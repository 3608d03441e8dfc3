import JarRemap.Proofs.Repair.Revised
import JarRemap.Repair.Record

/-!
# The repair of records

A record is settled if it has components, or no fields that could be those of components, and if it
has a signature, or uses no type variables. The repair leaves such a record alone, and makes every
other one settled. What it adds makes the attributes of the class longer, which shows in its bytes.
-/

namespace JarRemap

open ConstantPool

/-! ## What a record is repaired by -/

/-- Nothing in the second class that the repair looks at differs from the first. -/
structure SameRecord (c c' : ClassFile) : Prop where
  keeps : c.pool.Keeps c'.pool
  superClass_eq : c'.superClass = c.superClass
  fields_eq : c'.fields = c.fields
  methods : List.Forall₂ (fun m m' => m'.descriptor = m.descriptor ∧
    findAttribute? signatureName m'.attributes = findAttribute? signatureName m.attributes)
    c.methods c'.methods
  components_eq : findAttribute? AttributeFormat.recordComponents.name c'.attributes =
    findAttribute? AttributeFormat.recordComponents.name c.attributes
  signature_eq : findAttribute? signatureName c'.attributes =
    findAttribute? signatureName c.attributes

section

variable {pool pool' : ConstantPool} {attributes attributes' : List Attribute}

theorem AttributeFormat.parseAmong_ok_iff {α : Type} {format : AttributeFormat α}
    {found : Option α} :
    format.parseAmong pool attributes = .ok found ↔
      (findAttribute? format.name attributes = none ∧ found = none) ∨
      ∃ a body, findAttribute? format.name attributes = some a ∧
        format.parse pool a.info = .ok body ∧ found = some body := by
  unfold parseAmong
  rcases findAttribute? format.name attributes with _ | a
  · constructor
    · intro h
      exact .inl ⟨rfl, (Except.ok.inj h).symm⟩
    · rintro (⟨-, rfl⟩ | ⟨a, body, ha, -⟩)
      · rfl
      · cases ha
  · show (format.parse pool a.info).map some = .ok found ↔ _
    rcases hparse : format.parse pool a.info with e | body
    · refine iff_of_false nofun ?_
      rintro (⟨ha, -⟩ | ⟨b, body, ha, hbody, -⟩)
      · cases ha
      · obtain rfl := Option.some.inj ha
        exact nomatch hparse.symm.trans hbody
    · constructor
      · rintro ⟨⟩
        exact .inr ⟨a, body, rfl, hparse, rfl⟩
      · rintro (⟨ha, -⟩ | ⟨b, body', ha, hbody, rfl⟩)
        · cases ha
        · obtain rfl := Option.some.inj ha
          obtain rfl := Except.ok.inj (hparse.symm.trans hbody)
          rfl

theorem parseAmong_components_congr (hkeeps : pool.Keeps pool')
    (hfind : findAttribute? AttributeFormat.recordComponents.name attributes' =
      findAttribute? AttributeFormat.recordComponents.name attributes)
    {found : Option (List RecordComponent)}
    (h : AttributeFormat.recordComponents.parseAmong pool attributes = .ok found) :
    AttributeFormat.recordComponents.parseAmong pool' attributes' = .ok found := by
  rw [AttributeFormat.parseAmong_ok_iff] at h ⊢
  rw [hfind]
  refine h.imp_right ?_
  rintro ⟨a, rows, ha, hrows, hfound⟩
  obtain ⟨⟨hlength, hfits⟩, hinfo⟩ :=
    (AttributeFormat.parse_ok_iff AttributeFormat.recordComponents_exact).1 hrows
  have hfits' : ∀ row ∈ rows, row.Fits pool' :=
    fun row hrow => (hfits row hrow).mono hkeeps.carries
  exact ⟨a, rows, ha, (AttributeFormat.parse_ok_iff AttributeFormat.recordComponents_exact).2
    ⟨⟨hlength, hfits'⟩, hinfo⟩, hfound⟩

theorem noteSignature_congr (hkeeps : pool.Keeps pool')
    (hfind : findAttribute? signatureName attributes' = findAttribute? signatureName attributes)
    {note : String → String → VariableBounds → Except TransformError VariableBounds}
    {descriptor : UInt16} {bounds noted : VariableBounds}
    (h : noteSignature pool note attributes descriptor bounds = .ok noted) :
    noteSignature pool' note attributes' descriptor bounds = .ok noted := by
  obtain ⟨found, hfound, h⟩ := except_bind_ok_iff.1 h
  refine except_bind_ok_iff.2 ⟨found, ?_, ?_⟩
  · exact mapError_ok_iff.2 (textAttribute_congr hkeeps hfind (mapError_ok_iff.1 hfound))
  rcases found with _ | signature
  · exact h
  · obtain ⟨text, htext, h⟩ := except_bind_ok_iff.1 h
    exact except_bind_ok_iff.2 ⟨text, mapError_ok_iff.2 (hkeeps.text (mapError_ok_iff.1 htext)), h⟩

theorem markComponents_congr (hkeeps : pool.Keeps pool') {fields : List Member}
    {seen : List (String × String)} {marked : List (Member × Bool)}
    (h : markComponents pool seen fields = .ok marked) :
    markComponents pool' seen fields = .ok marked := by
  induction fields generalizing seen marked with
  | nil => exact h
  | cons field fields ih =>
    unfold markComponents at h ⊢
    by_cases hfield : isComponentField field = true
    · rw [if_pos hfield] at h ⊢
      obtain ⟨name, hname, h⟩ := except_bind_ok_iff.1 h
      obtain ⟨descriptor, hdescriptor, h⟩ := except_bind_ok_iff.1 h
      refine except_bind_ok_iff.2 ⟨name, hkeeps.text hname, ?_⟩
      refine except_bind_ok_iff.2 ⟨descriptor, hkeeps.text hdescriptor, ?_⟩
      by_cases hseen : seen.contains (name, descriptor) = true
      · rw [if_pos hseen] at h ⊢
        obtain ⟨rest, hrest, h⟩ := except_bind_ok_iff.1 h
        exact except_bind_ok_iff.2 ⟨rest, ih hrest, h⟩
      · rw [if_neg hseen] at h ⊢
        obtain ⟨rest, hrest, h⟩ := except_bind_ok_iff.1 h
        exact except_bind_ok_iff.2 ⟨rest, ih hrest, h⟩
    · rw [if_neg hfield] at h ⊢
      obtain ⟨rest, hrest, h⟩ := except_bind_ok_iff.1 h
      exact except_bind_ok_iff.2 ⟨rest, ih hrest, h⟩

/-- Every field is marked, in order. -/
theorem map_fst_of_markComponents {fields : List Member} {seen : List (String × String)}
    {marked : List (Member × Bool)} (h : markComponents pool seen fields = .ok marked) :
    marked.map (·.1) = fields := by
  induction fields generalizing seen marked with
  | nil =>
    cases h
    rfl
  | cons field fields ih =>
    have hcons {seen : List (String × String)} {isFirst : Bool} (h : (do
        return (field, isFirst) :: (← markComponents pool seen fields) :
          Except ClassError (List (Member × Bool))) = .ok marked) :
        marked.map (·.1) = field :: fields := by
      obtain ⟨rest, hrest, h⟩ := except_bind_ok_iff.1 h
      cases h
      rw [List.map_cons, ih hrest]
    unfold markComponents at h
    by_cases hfield : isComponentField field = true
    · rw [if_pos hfield] at h
      obtain ⟨name, -, h⟩ := except_bind_ok_iff.1 h
      obtain ⟨descriptor, -, h⟩ := except_bind_ok_iff.1 h
      by_cases hseen : seen.contains (name, descriptor) = true
      · rw [if_pos hseen] at h
        exact hcons h
      · rw [if_neg hseen] at h
        exact hcons h
    · rw [if_neg hfield] at h
      exact hcons h

end

theorem ClassFile.variableBounds_congr {c c' : ClassFile} (h : SameRecord c c')
    {bounds : VariableBounds} (hbounds : c.variableBounds = .ok bounds) :
    c'.variableBounds = .ok bounds := by
  obtain ⟨components, hcomponents, hbounds⟩ := except_bind_ok_iff.1 hbounds
  obtain ⟨bounds₁, h₁, hbounds⟩ := except_bind_ok_iff.1 hbounds
  obtain ⟨bounds₂, h₂, hbounds⟩ := except_bind_ok_iff.1 hbounds
  refine except_bind_ok_iff.2 ⟨components, ?_, except_bind_ok_iff.2 ⟨bounds₁, ?_,
    except_bind_ok_iff.2 ⟨bounds₂, ?_, ?_⟩⟩⟩
  · exact mapError_ok_iff.2
      (parseAmong_components_congr h.keeps h.components_eq (mapError_ok_iff.1 hcomponents))
  · exact foldlM_mono (fun row _ _ => noteSignature_congr h.keeps rfl) h₁
  · rw [h.fields_eq]
    exact foldlM_mono (fun field _ _ => noteSignature_congr h.keeps rfl) h₂
  · refine foldlM_of_forall₂ (fun m m' hm bounds noted hnoted => ?_) h.methods hbounds
    rw [hm.1]
    exact noteSignature_congr h.keeps hm.2 hnoted

/-! ## Components -/

/-- The record has components, or no fields for them. -/
def ComponentsSettled (c : ClassFile) : Prop :=
  ∃ found, AttributeFormat.recordComponents.parseAmong c.pool c.attributes = .ok found ∧
    ((found.getD []).isEmpty = true →
      ∃ marked, markComponents c.pool [] c.fields = .ok marked ∧ marked.any (·.2) = false)

/-- The components that marked fields stand for. -/
def componentsOf (marked : List (Member × Bool)) : List RecordComponent :=
  (marked.filter (·.2)).map fun (field, _) => .ofField field

/-- The fields once those of components are private. -/
def privatized (marked : List (Member × Bool)) : List Member :=
  marked.map fun (field, isFirst) => if isFirst then field.makePrivate else field

theorem privatized_revised (marked : List (Member × Bool)) :
    List.Forall₂ Member.Revised (marked.map (·.1)) (privatized marked) := by
  induction marked with
  | nil => exact .nil
  | cons row marked ih =>
    obtain ⟨field, isFirst⟩ := row
    refine .cons ?_ ih
    cases isFirst with
    | false => exact .refl field
    | true => exact ⟨rfl, rfl, (Member.Revised.refl field).attributes⟩

theorem componentsOf_ne_nil {marked : List (Member × Bool)} (hany : marked.any (·.2) = true) :
    componentsOf marked ≠ [] := by
  obtain ⟨row, hrow, hfirst⟩ := List.any_eq_true.1 hany
  exact List.ne_nil_of_mem (List.mem_map_of_mem (List.mem_filter.2 ⟨hrow, hfirst⟩))

/-- A component is spelled in fewer bytes than its field. -/
theorem RecordComponent.length_encode_ofField_le (field : Member) :
    (RecordComponent.ofField field).encode.length ≤ field.encode.length := by
  have hattributes : (Attribute.encodeAll (RecordComponent.ofField field).attributes).length ≤
      (Attribute.encodeAll field.attributes).length := by
    unfold RecordComponent.ofField
    rcases hfind : findAttribute? signatureName field.attributes with _ | a
    · simp only [Option.toList, Attribute.length_encodeAll, List.map_nil, List.sum_nil]
      omega
    · have hmem : a ∈ field.attributes := List.mem_of_find?_eq_some hfind
      have hrow := length_le_length_flatMap (f := Attribute.encode) hmem
      simp only [Option.toList, Attribute.encodeAll, List.length_append, Bytes.count16,
        Bytes.length_ofUInt16, List.flatMap_singleton]
      omega
  simp only [RecordComponent.encode, Member.encode, List.length_append, Bytes.length_ofUInt16]
  omega

theorem length_encode_componentsOf_le (marked : List (Member × Bool)) :
    (AttributeFormat.recordComponents.encode (componentsOf marked)).length ≤
      (Member.encodeAll (marked.map (·.1))).length := by
  have hrows : ((componentsOf marked).flatMap RecordComponent.encode).length ≤
      ((marked.map (·.1)).flatMap Member.encode).length := by
    induction marked with
    | nil => exact le_rfl
    | cons row marked ih =>
      obtain ⟨field, isFirst⟩ := row
      have hfield := RecordComponent.length_encode_ofField_le field
      unfold componentsOf at ih ⊢
      cases isFirst with
      | false =>
        rw [List.filter_cons_of_neg Bool.false_ne_true, List.map_cons, List.flatMap_cons,
          List.length_append]
        omega
      | true =>
        rw [List.filter_cons_of_pos rfl, List.map_cons, List.map_cons, List.flatMap_cons,
          List.flatMap_cons, List.length_append, List.length_append]
        exact Nat.add_le_add hfield ih
  simp only [AttributeFormat.recordComponents, Member.encodeAll, List.length_append, Bytes.count16,
    Bytes.length_ofUInt16]
  omega

theorem componentsOf_fit {pool : ConstantPool} {marked : List (Member × Bool)}
    (hfits : Member.AllFit pool (marked.map (·.1))) :
    RowsFit (RecordComponent.Fits pool) (componentsOf marked) := by
  constructor
  · have hlength := hfits.length_lt
    have hfilter := List.length_filter_le (fun row : Member × Bool => row.2) marked
    unfold componentsOf
    rw [List.length_map] at hlength ⊢
    omega
  · intro row hrow
    obtain ⟨⟨field, isFirst⟩, hmem, rfl⟩ := List.mem_map.1 hrow
    have hfield := (hfits.fits field
      (List.mem_map_of_mem (List.mem_of_mem_filter hmem))).attributes_fit
    show Attribute.AllFit pool (findAttribute? signatureName field.attributes).toList
    rcases hfind : findAttribute? signatureName field.attributes with _ | a
    · refine ⟨?_, fun a ha => absurd ha List.not_mem_nil⟩
      show 0 < 65536
      omega
    · refine ⟨?_, fun b hb => ?_⟩
      · show 1 < 65536
        omega
      rw [Option.toList_some, List.mem_singleton] at hb
      rw [hb]
      exact hfield.fits a (List.mem_of_find?_eq_some hfind)

namespace ComponentsSettled

variable {c c' : ClassFile}

theorem mono (h : ComponentsSettled c) (hkeeps : c.pool.Keeps c'.pool)
    (hfields : c'.fields = c.fields)
    (hfind : findAttribute? AttributeFormat.recordComponents.name c'.attributes =
      findAttribute? AttributeFormat.recordComponents.name c.attributes) :
    ComponentsSettled c' := by
  obtain ⟨found, hfound, hnone⟩ := h
  refine ⟨found, parseAmong_components_congr hkeeps hfind hfound, fun hempty => ?_⟩
  obtain ⟨marked, hmarked, hany⟩ := hnone hempty
  refine ⟨marked, ?_, hany⟩
  rw [hfields]
  exact markComponents_congr hkeeps hmarked

/-- What is read of components that were added is what was written. -/
theorem of_found {a : Attribute} {rows : List RecordComponent}
    (hfind : findAttribute? AttributeFormat.recordComponents.name c.attributes = some a)
    (hinfo : a.info = AttributeFormat.recordComponents.encode rows)
    (hfit : RowsFit (RecordComponent.Fits c.pool) rows) (hrows : rows ≠ []) :
    ComponentsSettled c := by
  refine ⟨some rows, ?_, fun hempty => absurd (List.isEmpty_iff.1 hempty) hrows⟩
  have hparse : AttributeFormat.recordComponents.parse c.pool a.info = .ok rows :=
    (AttributeFormat.parse_ok_iff AttributeFormat.recordComponents_exact).2 ⟨hfit, hinfo⟩
  exact AttributeFormat.parseAmong_ok_iff.2 (.inr ⟨a, rows, hfind, hparse, rfl⟩)

theorem restore_eq (h : ComponentsSettled c) : restoreComponents c = (.ok false, c) := by
  obtain ⟨found, hfound, hnone⟩ := h
  refine RepairEdit.get_bind_ok_iff.2 (RepairEdit.orFail_bind_ok_iff.2 ⟨found, hfound, ?_⟩)
  by_cases hempty : (found.getD []).isEmpty = true
  · obtain ⟨marked, hmarked, hany⟩ := hnone hempty
    rw [if_pos hempty]
    refine RepairEdit.get_bind_ok_iff.2 (RepairEdit.orFail_bind_ok_iff.2 ⟨marked, hmarked, ?_⟩)
    rw [hany]
    rfl
  · rw [if_neg hempty]
    rfl

end ComponentsSettled

/-- What has been added to the class under these names has made its attributes longer. -/
structure RecordExtended (names : List String) (c c' : ClassFile) : Prop where
  revised : c.Revised names c'
  length_lt : (Attribute.encodeAll c.attributes).length < (Attribute.encodeAll c'.attributes).length

theorem RecordExtended.encode_ne {names : List String} {c c' : ClassFile}
    (h : RecordExtended names c c') (hvalid : c.pool.Valid) (hle : c.pool.size ≤ maxSize) :
    c'.encode ≠ c.encode := by
  intro heq
  rw [h.revised.eq_withParts] at heq
  obtain ⟨-, hparts⟩ := ClassFile.parts_of_encode_eq hvalid hle h.revised.grows heq
  have hlengths := congrArg List.length hparts
  simp only [List.length_append, Member.length_encodeAll_eq h.revised.fields,
    Member.length_encodeAll_eq h.revised.methods] at hlengths
  have hlonger := h.length_lt
  omega

theorem RecordExtended.trans {names : List String} {c c' c'' : ClassFile}
    (h : RecordExtended names c c') (h' : RecordExtended names c' c'') :
    RecordExtended names c c'' :=
  ⟨h.revised.trans h'.revised, h.length_lt.trans h'.length_lt⟩

/-- Either the class is as it was, or its attributes have become longer. -/
inductive RecordEdited (names : List String) (c : ClassFile) : Bool → ClassFile → Prop
  | kept : RecordEdited names c false c
  | extended {c' : ClassFile} (h : RecordExtended names c c') : RecordEdited names c true c'

namespace RecordEdited

variable {names : List String} {c c' c'' : ClassFile} {changed changed' : Bool}

theorem valid (h : RecordEdited names c changed c') (hvalid : c.pool.Valid) : c'.pool.Valid := by
  cases h with
  | kept => exact hvalid
  | extended h => exact h.revised.grows.valid

theorem trans (h : RecordEdited names c changed c') (h' : RecordEdited names c' changed' c'') :
    RecordEdited names c (changed || changed') c'' := by
  cases h with
  | kept => exact h'
  | extended h =>
    cases h' with
    | kept => exact .extended h
    | extended h' => exact .extended (h.trans h')

end RecordEdited

/-- Components that take the place of none make the attributes longer. -/
theorem length_encodeAll_lt_of_components {pool : ConstantPool} {a : Attribute}
    {attributes : List Attribute} {found : Option (List RecordComponent)}
    {rows : List RecordComponent} (hname : a.name = AttributeFormat.recordComponents.name)
    (hfound : AttributeFormat.recordComponents.parseAmong pool attributes = .ok found)
    (hempty : (found.getD []).isEmpty = true) (hrows : rows ≠ [])
    (hinfo : a.info = AttributeFormat.recordComponents.encode rows) :
    (Attribute.encodeAll attributes).length <
      (Attribute.encodeAll (setAttribute a attributes)).length := by
  rw [AttributeFormat.parseAmong_ok_iff, ← hname] at hfound
  rcases hfound with ⟨hmissing, -⟩ | ⟨b, body, hb, hbody, rfl⟩
  · exact Attribute.length_encodeAll_lt_of_missing hmissing
  · refine Attribute.length_encodeAll_lt_of_found hb ?_
    obtain ⟨-, hold⟩ :=
      (AttributeFormat.parse_ok_iff AttributeFormat.recordComponents_exact).1 hbody
    obtain rfl : body = [] := List.isEmpty_iff.1 hempty
    obtain ⟨row, rest, rfl⟩ := List.exists_cons_of_ne_nil hrows
    rw [hold, hinfo]
    simp only [AttributeFormat.recordComponents, RecordComponent.encode, List.flatMap_cons,
      List.flatMap_nil, List.length_append, List.length_nil, Bytes.count16, Bytes.length_ofUInt16]
    omega

/-- What comes of the components. -/
theorem restoreComponents_ok {names : List String} {c c' : ClassFile} {changed : Bool}
    (hname : AttributeFormat.recordComponents.name ∈ names) (hvalid : c.pool.Valid) (hfits : c.Fits)
    (h : restoreComponents c = (.ok changed, c')) :
    ComponentsSettled c' ∧ RecordEdited names c changed c' := by
  obtain ⟨found, hfound, h⟩ := RepairEdit.orFail_bind_ok_iff.1 (RepairEdit.get_bind_ok_iff.1 h)
  by_cases hempty : (found.getD []).isEmpty = true
  swap
  · rw [if_neg hempty] at h
    cases h
    exact ⟨⟨found, hfound, fun h => absurd h hempty⟩, .kept⟩
  rw [if_pos hempty] at h
  obtain ⟨marked, hmarked, h⟩ := RepairEdit.orFail_bind_ok_iff.1 (RepairEdit.get_bind_ok_iff.1 h)
  rcases hany : marked.any (·.2) with _ | _
  · rw [hany] at h
    cases h
    exact ⟨⟨found, hfound, fun _ => ⟨marked, hmarked, hany⟩⟩, .kept⟩
  rw [hany] at h
  -- The fields become private first, and the attribute is added to the class with these fields.
  have hedit : (do
      RepairEdit.edit do
        ClassEdit.setClassAttribute (← ClassEdit.makeAttribute AttributeFormat.recordComponents.name
          (AttributeFormat.recordComponents.encode (componentsOf marked)))
      return true : RepairEdit Bool) { c with fields := privatized marked } = (.ok changed, c') := h
  obtain ⟨⟨⟩, c₂, hset, hdone⟩ := RepairEdit.edit_bind_ok_iff.1 hedit
  cases hdone
  obtain ⟨a, hsets, ha, hinfo⟩ := (ClassEdit.makeAttribute_makes
    (c := { c with fields := privatized marked }) _ _).sets hvalid hset
  have hfields : marked.map (·.1) = c.fields := map_fst_of_markComponents hmarked
  have hrows : componentsOf marked ≠ [] := componentsOf_ne_nil hany
  have hattributes : c'.attributes = setAttribute a c.attributes := hsets.attributes_eq
  have hsettled : ComponentsSettled c' := by
    have hfit := componentsOf_fit (hfields ▸ hfits.fields_fit)
    refine .of_found ?_ hinfo ?_ hrows
    · rw [hattributes, ← ha]
      exact findAttribute?_setAttribute_self
    · exact ⟨hfit.1, fun row hrow => (hfit.2 row hrow).mono hsets.grows.carries⟩
  have hprivate : c.Revised names { c with fields := privatized marked } := by
    refine { ClassFile.Revised.refl _ hvalid with eq_withParts := rfl, fields := ?_ }
    exact hfields ▸ privatized_revised marked
  have hlength : a.info.length ≤ (Member.encodeAll (privatized marked)).length := by
    rw [hinfo, Member.length_encodeAll_eq hprivate.fields, ← hfields]
    exact length_encode_componentsOf_le marked
  have hadded : ClassFile.Revised names { c with fields := privatized marked } c' :=
    hsets.revised (ha ▸ hname) fun hfit => hlength.trans_lt (hfit hname)
  refine ⟨hsettled, .extended ⟨hprivate.trans hadded, ?_⟩⟩
  rw [hattributes]
  exact length_encodeAll_lt_of_components ha hfound hempty hrows hinfo

/-! ## The signature -/

/-- The record has a signature, or uses no type variables. -/
def RecordSignatureSettled (c : ClassFile) : Prop :=
  ∃ found, c.signature = .ok found ∧ (found = none → c.variableBounds = .ok [])

namespace RecordSignatureSettled

variable {find : String → Id (Option ClassShape)} {c c' : ClassFile}

theorem mono (h : RecordSignatureSettled c) (hsame : SameRecord c c') :
    RecordSignatureSettled c' := by
  obtain ⟨found, hfound, hnone⟩ := h
  refine ⟨found, textAttribute_congr hsame.keeps hsame.signature_eq hfound, fun hmissing => ?_⟩
  exact ClassFile.variableBounds_congr hsame (hnone hmissing)

theorem restore_eq (h : RecordSignatureSettled c) :
    restoreSignature (m := Id) find c = (.ok false, c) := by
  obtain ⟨found, hfound, hnone⟩ := h
  refine RepairEdit.get_bind_ok_iff.2 (RepairEdit.orFail_bind_ok_iff.2 ⟨found, hfound, ?_⟩)
  rcases found with _ | signature
  · rw [if_pos (by rfl)]
    refine RepairEdit.get_bind_ok_iff.2 (RepairEdit.orFail_bind_ok_iff.2 ⟨_, hnone rfl, ?_⟩)
    rfl
  · rfl

end RecordSignatureSettled

/-- The type parameters that declare these variables. A bound that cannot be found is none. -/
def VariableBounds.typeParams (find : String → Option ClassShape) (bounds : VariableBounds) :
    List TypeParameter :=
  bounds.map fun (name, bound) =>
    .ofBound name (bound.bind fun b => (find b).map fun shape => (b, shape.isInterface))

theorem mapM_typeParameterFor (find : String → Id (Option ClassShape)) (bounds : VariableBounds) :
    (bounds.mapM fun (name, bound) => typeParameterFor (m := Id) find name bound) =
      bounds.typeParams find := by
  refine List.idRun_mapM.trans (List.map_congr_left ?_)
  rintro ⟨name, _ | bound⟩ -
  · rfl
  · rfl

/-- The class has come by a signature that declares these type variables. -/
structure SignatureAdded (find : String → Option ClassShape) (bounds : VariableBounds)
    (c c' : ClassFile) : Prop where
  missing : findAttribute? signatureName c.attributes = none
  variables_eq : c.variableBounds = .ok bounds
  ne_nil : bounds ≠ []
  sets : ∃ a i, c.Sets a c' ∧ a.name = signatureName ∧ a.info = Bytes.ofUInt16 i
  signature_eq : ∃ interfaces, c.interfaceNames = .ok interfaces ∧
    c'.signature = .ok (some (ClassSignature.ofRecord (bounds.typeParams find) interfaces).text)

namespace SignatureAdded

variable {find : String → Option ClassShape} {bounds : VariableBounds} {c c' : ClassFile}

theorem settled (h : SignatureAdded find bounds c c') : RecordSignatureSettled c' := by
  obtain ⟨interfaces, -, hsignature⟩ := h.signature_eq
  exact ⟨_, hsignature, nofun⟩

theorem components (h : SignatureAdded find bounds c c') (hcomponents : ComponentsSettled c) :
    ComponentsSettled c' := by
  obtain ⟨a, i, hsets, ha, -⟩ := h.sets
  refine hcomponents.mono hsets.grows.kept ?_ ?_
  · rw [hsets.eq]
  · rw [hsets.attributes_eq]
    refine findAttribute?_setAttribute_of_ne ?_
    rw [ha]
    decide

theorem extended {names : List String} (h : SignatureAdded find bounds c c')
    (hname : signatureName ∈ names) : RecordExtended names c c' := by
  obtain ⟨a, i, hsets, ha, hinfo⟩ := h.sets
  refine ⟨hsets.revised_of_text (ha ▸ hname) hinfo, ?_⟩
  rw [hsets.attributes_eq]
  exact Attribute.length_encodeAll_lt_of_missing (ha ▸ h.missing)

end SignatureAdded

/-- What comes of the signature. -/
theorem restoreSignature_cases {find : String → Id (Option ClassShape)} {c c' : ClassFile}
    {changed : Bool} (hvalid : c.pool.Valid)
    (h : restoreSignature (m := Id) find c = (.ok changed, c')) :
    (changed = false ∧ c' = c ∧ RecordSignatureSettled c) ∨
    (changed = true ∧ ∃ bounds, SignatureAdded find bounds c c') := by
  obtain ⟨found, hfound, h⟩ := RepairEdit.orFail_bind_ok_iff.1 (RepairEdit.get_bind_ok_iff.1 h)
  rcases found with _ | signature
  swap
  · cases h
    exact .inl ⟨rfl, rfl, _, hfound, nofun⟩
  rw [if_pos (by rfl)] at h
  obtain ⟨bounds, hbounds, h⟩ := RepairEdit.orFail_bind_ok_iff.1 (RepairEdit.get_bind_ok_iff.1 h)
  by_cases hempty : bounds.isEmpty = true
  · rw [if_pos hempty] at h
    cases h
    refine .inl ⟨rfl, rfl, _, hfound, fun _ => ?_⟩
    rw [hbounds, List.isEmpty_iff.1 hempty]
  rw [if_neg hempty] at h
  have hmade : (do
      let typeParams ← (pure (bounds.mapM fun (name, bound) =>
        typeParameterFor (m := Id) find name bound) : RepairEdit (List TypeParameter))
      let interfaces ← orFail .classFile c.interfaceNames
      RepairEdit.edit do
        ClassEdit.setClassAttribute (← ClassEdit.makeTextAttribute signatureName
          (ClassSignature.ofRecord typeParams interfaces).text)
      return true : RepairEdit Bool) c = (.ok changed, c') := h
  rw [mapM_typeParameterFor, pure_bind] at hmade
  obtain ⟨interfaces, hinterfaces, hedit⟩ := RepairEdit.orFail_bind_ok_iff.1 hmade
  obtain ⟨⟨⟩, c₁, hset, hdone⟩ := RepairEdit.edit_bind_ok_iff.1 hedit
  cases hdone
  obtain ⟨a, hsets, ha, i, hinfo, hi⟩ := (ClassEdit.makeTextAttribute_makes _ _).sets hvalid hset
  refine .inr ⟨rfl, bounds, ?_, hbounds, mt List.isEmpty_iff.2 hempty, ⟨a, i, hsets, ha, hinfo⟩,
    interfaces, hinterfaces, ?_⟩
  · rcases textAttribute_ok_iff.1 hfound with ⟨hnone, -⟩ | ⟨_, _, _, -, -, -, hsome⟩
    · exact hnone
    · cases hsome
  · unfold ClassFile.signature signatureAmong
    rw [← ha]
    exact hsets.textAttribute_eq hinfo hi

/-- Once it is restored, the signature is settled, and components stay settled. -/
theorem restoreSignature_ok {find : String → Id (Option ClassShape)} {names : List String}
    {c c' : ClassFile} {changed : Bool} (hname : signatureName ∈ names) (hvalid : c.pool.Valid)
    (h : restoreSignature (m := Id) find c = (.ok changed, c')) :
    RecordSignatureSettled c' ∧ (ComponentsSettled c → ComponentsSettled c') ∧
      RecordEdited names c changed c' := by
  rcases restoreSignature_cases hvalid h with ⟨rfl, rfl, hsettled⟩ | ⟨rfl, bounds, hadded⟩
  · exact ⟨hsettled, id, .kept⟩
  · exact ⟨hadded.settled, hadded.components, .extended (hadded.extended hname)⟩

/-! ## The record -/

/-- The chosen parts of the class are settled, if it is a record. -/
def RecordSettled (parts : RecordParts) (c : ClassFile) : Prop :=
  ∃ superName, c.superName = .ok superName ∧ (superName = some recordName →
    (parts.components = true → ComponentsSettled c) ∧
    (parts.signature = true → RecordSignatureSettled c))

namespace RecordSettled

variable {parts : RecordParts} {find : String → Id (Option ClassShape)} {c c' : ClassFile}

theorem mono (h : RecordSettled parts c) (hsame : SameRecord c c') : RecordSettled parts c' := by
  obtain ⟨superName, hsuper, hsettled⟩ := h
  refine ⟨superName, ?_, fun hrecord => ?_⟩
  · exact ClassFile.superName_congr hsame.keeps hsame.superClass_eq hsuper
  · obtain ⟨hcomponents, hsignature⟩ := hsettled hrecord
    refine ⟨fun hchosen => ?_, fun hchosen => (hsignature hchosen).mono hsame⟩
    exact (hcomponents hchosen).mono hsame.keeps hsame.fields_eq hsame.components_eq

theorem repair_eq (h : RecordSettled parts c) :
    repairRecord (m := Id) find parts c = (.ok false, c) := by
  obtain ⟨superName, hsuper, hsettled⟩ := h
  refine RepairEdit.get_bind_ok_iff.2 (RepairEdit.orFail_bind_ok_iff.2 ⟨superName, hsuper, ?_⟩)
  by_cases hrecord : superName = some recordName
  · obtain ⟨hcomponents, hsignature⟩ := hsettled hrecord
    have hfirst : RepairEdit.ifChosen parts.components restoreComponents c = (.ok false, c) :=
      RepairEdit.ifChosen_idle fun hchosen => (hcomponents hchosen).restore_eq
    have hsecond : RepairEdit.ifChosen parts.signature (restoreSignature (m := Id) find) c =
        (.ok false, c) :=
      RepairEdit.ifChosen_idle fun hchosen => (hsignature hchosen).restore_eq
    rw [if_neg (not_not.2 hrecord), RepairEdit.unaided_eq]
    exact bind_stateful_ok_iff.2 ⟨false, c, hfirst, bind_stateful_ok_iff.2 ⟨false, c, hsecond, rfl⟩⟩
  · rw [if_pos hrecord]
    rfl

end RecordSettled

/-- What the repair of records comes to, if the attributes of the chosen parts have one of the
names. -/
theorem repairRecord_cases {parts : RecordParts} {find : String → Id (Option ClassShape)}
    {names : List String} {c c' : ClassFile} {changed : Bool}
    (hnames : c.superName = .ok (some recordName) →
      (parts.components = true → AttributeFormat.recordComponents.name ∈ names) ∧
      (parts.signature = true → signatureName ∈ names))
    (hvalid : c.pool.Valid) (hfits : c.Fits)
    (h : repairRecord (m := Id) find parts c = (.ok changed, c')) :
    (changed = false ∧ c' = c ∧ RecordSettled parts c) ∨
    (changed = true ∧ RecordSettled parts c' ∧ RecordExtended names c c') := by
  obtain ⟨superName, hsuper, h⟩ := RepairEdit.orFail_bind_ok_iff.1 (RepairEdit.get_bind_ok_iff.1 h)
  by_cases hrecord : superName = some recordName
  swap
  · rw [if_pos hrecord] at h
    cases h
    exact .inl ⟨rfl, rfl, superName, hsuper, fun h => absurd h hrecord⟩
  rw [if_neg (not_not.2 hrecord), RepairEdit.unaided_eq] at h
  obtain rfl := hrecord
  obtain ⟨hcomponentsName, hsignatureName⟩ := hnames hsuper
  obtain ⟨first, c₁, hfirst, h⟩ := bind_stateful_ok_iff.1 h
  obtain ⟨second, c₂, hsecond, h⟩ := bind_stateful_ok_iff.1 h
  cases h
  obtain ⟨hcomponents, hedited⟩ : (parts.components = true → ComponentsSettled c₁) ∧
      RecordEdited names c first c₁ := by
    rcases RepairEdit.ifChosen_cases hfirst with ⟨hskipped, rfl, rfl⟩ | ⟨hchosen, hrestore⟩
    · exact ⟨fun hchosen => absurd (hskipped.symm.trans hchosen) nofun, .kept⟩
    · obtain ⟨hsettled, hedited⟩ :=
        restoreComponents_ok (hcomponentsName hchosen) hvalid hfits hrestore
      exact ⟨fun _ => hsettled, hedited⟩
  obtain ⟨hsignature, hkept, hedited'⟩ : (parts.signature = true → RecordSignatureSettled c') ∧
      (ComponentsSettled c₁ → ComponentsSettled c') ∧ RecordEdited names c₁ second c' := by
    rcases RepairEdit.ifChosen_cases hsecond with ⟨hskipped, rfl, rfl⟩ | ⟨hchosen, hrestore⟩
    · exact ⟨fun hchosen => absurd (hskipped.symm.trans hchosen) nofun, id, .kept⟩
    · obtain ⟨hsettled, hkept, hedited'⟩ :=
        restoreSignature_ok (hsignatureName hchosen) (hedited.valid hvalid) hrestore
      exact ⟨fun _ => hsettled, hkept, hedited'⟩
  have hparts : (parts.components = true → ComponentsSettled c') ∧
      (parts.signature = true → RecordSignatureSettled c') :=
    ⟨fun hchosen => hkept (hcomponents hchosen), hsignature⟩
  -- Both steps only make the attributes longer, so the second cannot undo the first.
  have hall : RecordEdited names c (first || second) c' := hedited.trans hedited'
  generalize (first || second) = changed at hall ⊢
  cases hall with
  | kept => exact .inl ⟨rfl, rfl, _, hsuper, fun _ => hparts⟩
  | extended hextended =>
    exact .inr ⟨rfl, ⟨_, hextended.revised.superName_eq hsuper, fun _ => hparts⟩, hextended⟩

end JarRemap
