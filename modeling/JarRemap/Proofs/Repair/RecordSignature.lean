import JarRemap.Proofs.Repair.Components
import JarRemap.Proofs.Repair.TypeVariables

/-!
# The signature that a record gets

A record without a signature gets one that declares the type variables of its members. It can be
read again if the classes that it names have names that can be written in a signature, and it says
of every variable where it was met first and what bounds it (`DeclaresVariables`).
-/

namespace JarRemap

open ConstantPool Signature

/-! ## What a signature declares -/

/-- The type parameter is bounded by this class as what it is, if there is one and it is found, and
else by the class of all objects. -/
structure TypeParameter.BoundedBy (find : String → Option ClassShape) (bound : Option String)
    (p : TypeParameter) : Prop where
  byInterface : ∀ b shape, bound = some b → find b = some shape → shape.isInterface = true →
    p.classBound = none ∧ p.interfaceBounds = [.classType (.simple b)]
  byClass : ∀ b shape, bound = some b → find b = some shape → shape.isInterface = false →
    p.classBound = some (.classType (.simple b)) ∧ p.interfaceBounds = []
  byObject : (∀ b, bound = some b → find b = none) →
    p.classBound = some (.classType (.simple objectName)) ∧ p.interfaceBounds = []

/-- The signature is that of a record which declares the type variables of the class, each one once
and in the order of their first places. -/
structure DeclaresVariables (find : String → Option ClassShape) (c : ClassFile)
    (s : ClassSignature) : Prop where
  typeParams : ∃ sites, c.variableSites = .ok sites ∧
    s.typeParams.map (·.name) = (sites.map (·.1)).eraseDups ∧
    ∀ p ∈ s.typeParams, p.BoundedBy find (firstBound sites p.name)
  superclass_eq : s.superclass = .simple recordName
  interfaces : ∃ names, c.interfaceNames = .ok names ∧ s.interfaces = names.map .simple

/-- A signature for the class can be read again: nothing in a name that it holds would end it. -/
structure ClassFile.NamesReadable (find : String → Option ClassShape) (c : ClassFile) : Prop where
  bounds : ∀ sites, c.variableSites = .ok sites → ∀ site ∈ sites, ∀ bound, site.2 = some bound →
    (find bound).isSome = true → IsName classStops bound
  interfaces : ∀ names, c.interfaceNames = .ok names → ∀ name ∈ names, IsName classStops name

/-! ## Type parameters -/

section

variable {find : String → Option ClassShape} {name : String} {bound : Option String}

/-- Where the name of a variable ends, that of a type parameter may end as well. -/
theorem Signature.IsName.ofParameter (h : IsName variableStops name) :
    IsName parameterStops name := by
  have hsub : ∀ stop ∈ parameterStops, stop ∈ variableStops := by
    simp [parameterStops, variableStops]
  exact ⟨h.nonempty, fun ch hch hstop => h.free ch hch (hsub ch hstop)⟩

theorem ClassType.simple_wellFormed (h : IsName classStops name) :
    (ClassType.simple name).WellFormed :=
  ⟨⟨h, trivial⟩, trivial⟩

namespace TypeParameter

/-- The type parameter for a variable with the class that is known for it, if this is found. -/
def forVariable (find : String → Option ClassShape) (name : String) (bound : Option String) :
    TypeParameter :=
  .ofBound name (bound.bind fun b => (find b).map fun shape => (b, shape.isInterface))

theorem forVariable_cases (find : String → Option ClassShape) (name : String)
    (bound : Option String) :
    (∃ b shape, bound = some b ∧ find b = some shape ∧
      forVariable find name bound = .ofBound name (some (b, shape.isInterface))) ∨
    (∀ b, bound = some b → find b = none) ∧ forVariable find name bound = .ofBound name none := by
  rcases bound with _ | b
  · exact .inr ⟨nofun, rfl⟩
  · rw [forVariable, Option.bind_some]
    rcases hfind : find b with _ | shape
    · refine .inr ⟨?_, rfl⟩
      rintro _ ⟨⟩
      exact hfind
    · exact .inl ⟨b, shape, rfl, hfind, rfl⟩

theorem name_ofBound (name : String) (found : Option (String × Bool)) :
    (ofBound name found).name = name := by
  rcases found with _ | ⟨b, _ | _⟩ <;> rfl

theorem name_forVariable : (forVariable find name bound).name = name :=
  name_ofBound _ _

theorem forVariable_boundedBy (find : String → Option ClassShape) (name : String)
    (bound : Option String) : (forVariable find name bound).BoundedBy find bound := by
  rcases forVariable_cases find name bound with ⟨b, shape, rfl, hfind, heq⟩ | ⟨hnone, heq⟩
  · rw [heq]
    refine ⟨?_, ?_, fun hnone => absurd (hfind.symm.trans (hnone b rfl)) nofun⟩
    · rintro _ other ⟨⟩ hother hinterface
      obtain rfl := Option.some.inj (hfind.symm.trans hother)
      rw [hinterface]
      exact ⟨rfl, rfl⟩
    · rintro _ other ⟨⟩ hother hinterface
      obtain rfl := Option.some.inj (hfind.symm.trans hother)
      rw [hinterface]
      exact ⟨rfl, rfl⟩
  · rw [heq]
    have hunknown {b : String} {shape : ClassShape} (hb : bound = some b)
        (hfind : find b = some shape) : False := nomatch (hnone b hb).symm.trans hfind
    exact ⟨fun _ _ hb hfind _ => (hunknown hb hfind).elim,
      fun _ _ hb hfind _ => (hunknown hb hfind).elim, fun _ => ⟨rfl, rfl⟩⟩

/-- Something bounds every variable. -/
theorem ofBound_not_bare (name : String) (found : Option (String × Bool)) :
    ¬ (ofBound name found).Bare := by
  rcases found with _ | ⟨b, _ | _⟩
  · exact fun h => nomatch h.1
  · exact fun h => nomatch h.1
  · exact fun h => nomatch h.2

theorem ofBound_wellFormed {found : Option (String × Bool)} (hname : IsName parameterStops name)
    (hfound : ∀ b isInterface, found = some (b, isInterface) → IsName classStops b) :
    (ofBound name found).WellFormed := by
  have hbound {b : String} (hb : IsName classStops b) : ∀ t ∈ [TypeSignature.classType (.simple b)],
      t.IsReference ∧ t.WellFormed :=
    List.forall_mem_singleton.2 ⟨trivial, ClassType.simple_wellFormed hb⟩
  rcases found with _ | ⟨b, _ | _⟩
  · exact ⟨hname, hbound (by decide)⟩
  · exact ⟨hname, hbound (hfound b _ rfl)⟩
  · exact ⟨hname, hbound (hfound b _ rfl)⟩

theorem forVariable_wellFormed (hname : IsName parameterStops name)
    (hbound : ∀ b, bound = some b → (find b).isSome = true → IsName classStops b) :
    (forVariable find name bound).WellFormed := by
  rcases forVariable_cases find name bound with ⟨b, shape, hb, hfind, heq⟩ | ⟨-, heq⟩
  · rw [heq]
    refine ofBound_wellFormed hname ?_
    rintro _ _ ⟨⟩
    exact hbound b hb (by rw [hfind]; rfl)
  · rw [heq]
    exact ofBound_wellFormed hname nofun

end TypeParameter

end

/-! ## The signature for a list of places -/

section

variable {find : String → Option ClassShape} {sites : List VariableSite} {names : List String}

/-- The signature of a record with variables in these places and with these interfaces. -/
def ClassSignature.forSites (find : String → Option ClassShape) (sites : List VariableSite)
    (names : List String) : ClassSignature :=
  .ofRecord ((noteSites [] sites []).typeParams find) names

theorem ClassSignature.typeParams_forSites :
    (forSites find sites names).typeParams = (sites.map (·.1)).eraseDups.map fun name =>
      .forVariable find name (firstBound sites name) := by
  show (noteSites [] sites []).typeParams find = _
  rw [noteSites_eq, VariableBounds.typeParams, List.map_map]
  rfl

theorem firstBound_mem {name bound : String} (h : firstBound sites name = some bound) :
    (name, some bound) ∈ sites := by
  obtain ⟨⟨other, known⟩, hsite, hbound⟩ := List.exists_of_findSome?_eq_some h
  by_cases hname : other = name
  · rw [if_pos hname] at hbound
    exact hname ▸ hbound ▸ hsite
  · rw [if_neg hname] at hbound
    cases hbound

theorem ClassSignature.forSites_wellFormed (hnamed : SitesNamed sites)
    (hbounds : ∀ site ∈ sites, ∀ bound, site.2 = some bound → (find bound).isSome = true →
      IsName classStops bound)
    (hnames : ∀ name ∈ names, IsName classStops name) :
    (forSites find sites names).WellFormed := by
  refine ⟨?_, ClassType.simple_wellFormed (by decide), fun c hc => ?_⟩
  · rw [typeParams_forSites]
    constructor
    · intro p hp
      obtain ⟨name, hname, rfl⟩ := List.mem_map.1 hp
      obtain ⟨site, hsite, rfl⟩ := List.mem_map.1 (List.mem_eraseDups.1 hname)
      exact TypeParameter.forVariable_wellFormed (hnamed site hsite).ofParameter
        fun b hb => hbounds _ (firstBound_mem hb) b rfl
    · refine (List.pairwise_map.2 (List.pairwise_of_forall fun _ _ hbare => ?_)).isChain
      exact absurd hbare (TypeParameter.ofBound_not_bare _ _)
  · obtain ⟨name, hname, rfl⟩ := List.mem_map.1 hc
    exact ClassType.simple_wellFormed (hnames name hname)

end

/-! ## What comes of the class -/

section

variable {find : String → Option ClassShape} {c c' : ClassFile}

/-- A signature that a class gets is no place of type variables. -/
theorem variableSites_of_sets {a : Attribute} (hsets : c.Sets a c')
    (hname : a.name = signatureName) {sites : List VariableSite}
    (h : c.variableSites = .ok sites) : c'.variableSites = .ok sites := by
  refine ClassFile.variableSites_congr hsets.grows.kept ?_ ?_ ?_ h
  · rw [hsets.eq]
  · rw [hsets.eq]
  · rw [hsets.attributes_eq]
    refine findAttribute?_setAttribute_of_ne ?_
    rw [hname]
    decide

theorem interfaceNames_of_sets {a : Attribute} (hsets : c.Sets a c') {names : List String}
    (h : c.interfaceNames = .ok names) : c'.interfaceNames = .ok names := by
  have hsame : c'.interfaces = c.interfaces := by rw [hsets.eq]
  unfold ClassFile.interfaceNames
  rw [hsame]
  exact mapM_ok_of_forall₂ ((forall₂_of_mapM_ok h).imp fun _ _ => hsets.grows.className)

/-- The signature that is added declares the variables of the class. -/
theorem SignatureAdded.declares {bounds : VariableBounds} {text : String}
    (h : SignatureAdded find bounds c c') (htext : c'.signature = .ok (some text))
    (hnames : c'.NamesReadable find) :
    ∃ s, ClassSignature.parse text = .ok s ∧ DeclaresVariables find c s ∧
      DeclaresVariables find c' s := by
  obtain ⟨interfaces, hinterfaces, hsignature⟩ := h.signature_eq
  obtain ⟨a, i, hsets, ha, -⟩ := h.sets
  obtain ⟨sites, hsites, rfl⟩ := map_ok_iff.1 (c.variableBounds_eq.symm.trans h.variables_eq)
  have hsites' := variableSites_of_sets hsets ha hsites
  have hinterfaces' := interfaceNames_of_sets hsets hinterfaces
  have hnamed : (ClassSignature.forSites find sites interfaces).typeParams.map (·.name) =
      (sites.map (·.1)).eraseDups := by
    rw [ClassSignature.typeParams_forSites, List.map_map]
    exact (List.map_congr_left fun _ _ => TypeParameter.name_forVariable).trans (List.map_id _)
  have hbounded : ∀ p ∈ (ClassSignature.forSites find sites interfaces).typeParams,
      p.BoundedBy find (firstBound sites p.name) := by
    intro p hp
    rw [ClassSignature.typeParams_forSites] at hp
    obtain ⟨name, -, rfl⟩ := List.mem_map.1 hp
    rw [TypeParameter.name_forVariable]
    exact TypeParameter.forVariable_boundedBy _ _ _
  refine ⟨.forSites find sites interfaces, ClassSignature.parse_ok_iff.2 ⟨?_, ?_⟩,
    ⟨⟨sites, hsites, hnamed, hbounded⟩, rfl, interfaces, hinterfaces, rfl⟩,
    ⟨⟨sites, hsites', hnamed, hbounded⟩, rfl, interfaces, hinterfaces', rfl⟩⟩
  · exact ClassSignature.forSites_wellFormed (ClassFile.variableSites_named hsites)
      (hnames.bounds sites hsites') (hnames.interfaces interfaces hinterfaces')
  · exact Option.some.inj (Except.ok.inj (htext.symm.trans hsignature))

end

/-- Where the repair of a record adds a signature, this can be read again and declares the type
variables of the members. It names the interfaces of the class. -/
theorem record_signature_declares {parts : RecordParts} {path : ClassPath} {c c' : ClassFile}
    {changed : Bool} {text : String} (hvalid : c.pool.Valid) (hmissing : c.signature = .ok none)
    (happly : (Repair.record parts).apply path c = (.ok changed, c'))
    (hadded : c'.signature = .ok (some text)) (hnames : c'.NamesReadable path.find?) :
    ∃ s, ClassSignature.parse text = .ok s ∧ DeclaresVariables path.find? c' s ∧
      (parts.components = false → DeclaresVariables path.find? c s) := by
  have habsent {d : ClassFile} (hd : d.signature = .ok none) (heq : c' = d) : False := by
    rw [heq, hd] at hadded
    cases hadded
  obtain ⟨superName, -, h⟩ :=
    RepairEdit.orFail_bind_ok_iff.1 (RepairEdit.get_bind_ok_iff.1 happly)
  by_cases hrecord : superName = some recordName
  swap
  · rw [if_pos hrecord] at h
    cases h
    exact (habsent hmissing rfl).elim
  rw [if_neg (not_not.2 hrecord), RepairEdit.unaided_eq] at h
  obtain ⟨first, c₁, hfirst, h⟩ := bind_stateful_ok_iff.1 h
  obtain ⟨second, c₂, hsecond, h⟩ := bind_stateful_ok_iff.1 h
  cases h
  -- The components come first, and leave the class without a signature.
  obtain ⟨hvalid₁, hmissing₁, hsame⟩ : c₁.pool.Valid ∧ c₁.signature = .ok none ∧
      (parts.components = false → c₁ = c) := by
    rcases RepairEdit.ifChosen_cases hfirst with ⟨-, -, rfl⟩ | ⟨hchosen, hrestore⟩
    · exact ⟨hvalid, hmissing, fun _ => rfl⟩
    · obtain ⟨hvalid₁, hkeeps⟩ := restoreComponents_keeps hvalid hrestore
      exact ⟨hvalid₁, hkeeps none hmissing, fun h => nomatch hchosen.symm.trans h⟩
  rcases RepairEdit.ifChosen_cases hsecond with ⟨-, -, heq⟩ | ⟨-, hrestore⟩
  · exact (habsent hmissing₁ heq).elim
  rcases restoreSignature_cases hvalid₁ hrestore with ⟨-, heq, -⟩ | ⟨-, bounds, hsignature⟩
  · exact (habsent hmissing₁ heq).elim
  obtain ⟨s, hparse, hdeclares, hdeclares'⟩ := hsignature.declares hadded hnames
  exact ⟨s, hparse, hdeclares', fun hparts => hsame hparts ▸ hdeclares⟩

/-- A record with a field and with a method that has a type parameter of its own. -/
def genericRecord : Bytes :=
  [0xca, 0xfe, 0xba, 0xbe, 0, 0, 0, 0x3d, 0, 0xc, 1, 0, 1, 0x52, 7, 0, 1, 1, 0, 0x10, 0x6a, 0x61,
   0x76, 0x61, 0x2f, 0x6c, 0x61, 0x6e, 0x67, 0x2f, 0x52, 0x65, 0x63, 0x6f, 0x72, 0x64, 7, 0, 3, 1,
   0, 9, 0x53, 0x69, 0x67, 0x6e, 0x61, 0x74, 0x75, 0x72, 0x65, 1, 0, 1, 0x76, 1, 0, 3, 0x4c, 0x51,
   0x3b, 1, 0, 3, 0x54, 0x54, 0x3b, 1, 0, 1, 0x6d, 1, 0, 0xa, 0x28, 0x4c, 0x51, 0x3b, 0x5b, 0x4c,
   0x4b, 0x3b, 0x29, 0x56, 1, 0, 0x16, 0x3c, 0x55, 0x3a, 0x4c, 0x43, 0x3c, 0x54, 0x41, 0x3b, 0x3e,
   0x3b, 0x3e, 0x28, 0x54, 0x55, 0x3b, 0x5b, 0x54, 0x58, 0x3b, 0x29, 0x56, 0, 0x31, 0, 2, 0, 4, 0,
   0, 0, 1, 0, 0x12, 0, 6, 0, 7, 0, 1, 0, 5, 0, 0, 0, 2, 0, 8, 0, 1, 0, 1, 0, 9, 0, 0xa, 0, 1, 0, 5,
   0, 0, 0, 2, 0, 0xb, 0, 0]

/-- A class path with nothing but an interface. -/
def interfacePath : ClassPath where
  sources := [[("K",
    [0xca, 0xfe, 0xba, 0xbe, 0, 0, 0, 0x3d, 0, 3, 1, 0, 1, 0x4b, 7, 0, 1, 6, 0, 0, 2, 0, 0, 0, 0, 0,
     0, 0, 0, 0, 0])]]

theorem record_signature_declares_generic :
    ∃ c c' s, ClassFile.parse genericRecord = .ok c ∧ c.pool.Valid ∧ c.signature = .ok none ∧
      (Repair.record ⟨false, true⟩).apply interfacePath c = (.ok true, c') ∧
      c'.signature = .ok (some
        "<T:Ljava/lang/Object;A:Ljava/lang/Object;X::LK;>Ljava/lang/Record;") ∧
      c'.NamesReadable interfacePath.find? ∧
      ClassSignature.parse
        "<T:Ljava/lang/Object;A:Ljava/lang/Object;X::LK;>Ljava/lang/Record;" = .ok s ∧
      DeclaresVariables interfacePath.find? c' s ∧ DeclaresVariables interfacePath.find? c s := by
  have hrun : (ClassFile.parse genericRecord).map (fun c =>
      let (outcome, c') := (Repair.record ⟨false, true⟩).apply interfacePath c
      (c.signature, outcome, c'.signature)) =
        .ok (.ok none, .ok true,
          .ok (some "<T:Ljava/lang/Object;A:Ljava/lang/Object;X::LK;>Ljava/lang/Record;")) := by
    decide +kernel
  have hread : (ClassFile.parse genericRecord).map (fun c =>
      let (_, c') := (Repair.record ⟨false, true⟩).apply interfacePath c
      (c'.variableSites, c'.interfaceNames)) =
        .ok (.ok [("T", some "Q"), ("A", none), ("X", some "K")], .ok []) := by
    decide +kernel
  obtain ⟨c, hparse, hrun⟩ := map_ok_iff.1 hrun
  obtain ⟨hvalid, -⟩ := ClassFile.valid_of_parse hparse
  rcases happly : (Repair.record ⟨false, true⟩).apply interfacePath c with ⟨outcome, c'⟩
  rw [happly] at hrun
  rw [hparse, Except.map, happly] at hread
  obtain ⟨hsites, hinterfaces⟩ := Prod.mk.inj (Except.ok.inj hread)
  simp only [Prod.mk.injEq] at hrun
  obtain ⟨hmissing, rfl, hadded⟩ := hrun
  have hnames : c'.NamesReadable interfacePath.find? := by
    refine ⟨fun sites h => ?_, fun names h => ?_⟩
    · obtain rfl := Except.ok.inj (hsites.symm.trans h)
      refine List.forall_mem_cons.2 ⟨?_, List.forall_mem_cons.2 ⟨nofun,
        List.forall_mem_singleton.2 ?_⟩⟩
      · rintro _ ⟨⟩ -
        decide
      · rintro _ ⟨⟩ -
        decide
    · obtain rfl := Except.ok.inj (hinterfaces.symm.trans h)
      exact nofun
  obtain ⟨s, hs, hdeclares, hdeclares'⟩ :=
    record_signature_declares hvalid hmissing happly hadded hnames
  exact ⟨c, c', s, hparse, hvalid, hmissing, happly, hadded, hnames, hs, hdeclares,
    hdeclares' rfl⟩

end JarRemap
