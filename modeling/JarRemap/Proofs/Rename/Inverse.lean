import JarRemap.Proofs.Rename.MemberName
import JarRemap.Proofs.Rename.RenamedArchive

/-!
# Renaming back and forth

An archive is renamed by a table, and what comes out by the inverse of the table. This restores
every name: those of classes and the descriptors because the table is one-to-one on names, and those
of members if no two that a class can see get the same new name
(`RenameTable.reverse_restores_names`).

The inverse has a row for a member at the new name of a class exactly if the table has one at the
class. But the class that names a member is often not the one that has the row. A search with the
table ends at an ancestor that declares the member, and one with the inverse at an ancestor in the
renamed archive; as the ancestors are the same up to their names, and new names are kept apart, both
ends give the same pair of names.
-/

namespace JarRemap

open ConstantPool Walk

/-! ## Names that are kept apart -/

/-- A member is referenced, declared by a class or listed in the table. -/
inductive MemberKey.Occurs (r : Remapper) (referenced : Set MemberKey) (k : MemberKey) : Prop
  | referenced (h : k ∈ referenced)
  | declared (s : ClassShape) (hs : r.classPath.find? k.owner = some s)
      (h : (s.declared? k).isSome = true)
  | listed (new : String) (h : r.table.memberName? k = some new)

/-- Two members with different names that occur, one of a class and the other of that class or of an
ancestor, do not get the same new name. Methods may, if their new descriptors differ. -/
def Remapper.KeepsApart (r : Remapper) (referenced : Set MemberKey) : Prop :=
  ∀ k₁ k₂ : MemberKey, k₁.Occurs r referenced → k₂.Occurs r referenced → k₁.kind = k₂.kind →
    (k₂.owner = k₁.owner ∨ Ancestor r.classPath.find? k₁.owner k₂.owner) →
    (k₁.kind = .method → ∃ d, renameDescriptor r.table.newClassName k₁.descriptor = .ok d ∧
      renameDescriptor r.table.newClassName k₂.descriptor = .ok d) →
    ∀ new, r.memberName k₁ = .ok new → r.memberName k₂ = .ok new → k₁.name = k₂.name

/-- The renaming of an archive without cycles, by a table that can be undone. -/
structure Invertible (t : RenameTable) (names : Set String) (referenced : Set MemberKey)
    (entries entries' : List ClassEntry) : Prop
    extends ArchiveRenamed t names entries entries' where
  wellFormed : t.WellFormed
  descriptors : ∀ c ∈ t.classes, c.HasDescriptors
  acyclic : ∀ p, ¬ Ancestor (ClassPath.ofArchive entries).find? p p
  no_initializer : ∀ k new, t.memberName? k = some new →
    ¬ IsInitializer k.name ∧ ¬ IsInitializer new
  keepsApart : (Remapper.onArchive t entries).KeepsApart referenced

namespace Invertible

variable {t t' : RenameTable} {names : Set String} {referenced : Set MemberKey}
  {entries entries' : List ClassEntry}

theorem reverse_succeeds (h : Invertible t names referenced entries entries') :
    ∃ t', t.reverse = .ok t' :=
  RenameTable.reverse_succeeds_iff.2 h.descriptors

/-- The row of a class gives the new name, if the class is none of arrays. -/
theorem memberName_of_row (h : Invertible t names referenced entries entries') {k : MemberKey}
    {new : String} (hbracket : Text.beginsWith '[' k.owner = false)
    (hrow : t.memberName? k = some new) : (Remapper.onArchive t entries).memberName k = .ok new :=
  Remapper.memberName_of_row
    (MemberKey.isFixed_eq_false_iff.2 ⟨(h.no_initializer k new hrow).1, hbracket⟩) hrow

theorem separates (h : Invertible t names referenced entries entries') {owner : String}
    (hbracket : Text.beginsWith '[' owner = false) : t.Separates owner := by
  intro k₁ k₂ new hkind howner₁ howner₂ hdescriptors hrow₁ hrow₂
  exact h.keepsApart k₁ k₂ (.listed new hrow₁) (.listed new hrow₂) hkind
    (.inl (howner₂.trans howner₁.symm)) hdescriptors new
    (h.memberName_of_row (by rwa [howner₁]) hrow₁) (h.memberName_of_row (by rwa [howner₂]) hrow₂)

/-- The rows of the inverse for the members of a renamed class. -/
theorem memberName?_iff (h : Invertible t names referenced entries entries')
    (hreverse : t.reverse = .ok t') {kind : MemberKind}
    {owner new old d d' : String} (howner : owner ∈ names)
    (hbracket : Text.beginsWith '[' owner = false) (hd : NamesOnly names d)
    (hd' : renameDescriptor t.newClassName d = .ok d') :
    t'.memberName? ⟨kind, t.newClassName owner, new, d'⟩ = some old ↔
      t.memberName? ⟨kind, owner, old, d⟩ = some new :=
  RenameTable.memberName?_reverse_iff h.wellFormed h.oneToOne hreverse howner
    (h.separates hbracket) hd hd'

/-- A class that declares a member with a row declares it by its new name after the renaming. -/
theorem declared?_renamed (h : Invertible t names referenced entries entries') {p : String}
    {s s' : ClassShape} (hbracket : Text.beginsWith '[' p = false)
    (hs : (ClassPath.ofArchive entries).find? p = some s)
    (hfound : FoundRenamed (.onArchive t entries) names p s s') {kind : MemberKind}
    {owner owner' name new d d' : String} (hd : NamesOnly names d)
    (hd' : renameDescriptor t.newClassName d = .ok d')
    (hrow : t.memberName? ⟨kind, p, name, d⟩ = some new) {m : MemberShape}
    (hm : s.declared? ⟨kind, owner, name, d⟩ = some m) :
    ∃ m', s'.declared? ⟨kind, owner', new, d'⟩ = some m' ∧ m'.access = m.access := by
  obtain ⟨t', hreverse⟩ := h.reverse_succeeds
  have hnew : (Remapper.onArchive t entries).memberName ⟨kind, p, name, d⟩ = .ok new :=
    h.memberName_of_row hbracket hrow
  -- No other member becomes the new one.
  have hsame : ∀ e ∈ s.members kind, ∀ e', DeclaredRenamed (.onArchive t entries) kind s.name e e' →
      (e'.name == new && e'.descriptor == d') = (e.name == name && e.descriptor == d) := by
    intro e he e' hee'
    have hname := hee'.name_renamed
    rw [hfound.name_eq] at hname
    rw [Bool.eq_iff_iff, Bool.and_eq_true, Bool.and_eq_true, beq_iff_eq, beq_iff_eq, beq_iff_eq,
      beq_iff_eq]
    constructor
    · rintro ⟨rfl, rfl⟩
      obtain rfl := RenameTable.renameDescriptor_inj h.wellFormed h.oneToOne.faithfulOn hreverse
        (hfound.members_only kind e he) hd hee'.descriptor_renamed hd'
      refine ⟨?_, rfl⟩
      refine h.keepsApart ⟨kind, p, e.name, e.descriptor⟩ ⟨kind, p, name, e.descriptor⟩
        (.declared s hs ?_) (.listed _ hrow) rfl (.inl rfl) (fun _ => ⟨_, hd', hd'⟩) _ hname hnew
      rw [ClassShape.declared?_eq, List.find?_isSome]
      exact ⟨e, he, by simp⟩
    · rintro ⟨rfl, rfl⟩
      exact ⟨Except.ok.inj (hname.symm.trans hnew),
        Except.ok.inj (hee'.descriptor_renamed.symm.trans hd')⟩
  rw [ClassShape.declared?_eq] at hm ⊢
  obtain ⟨m', hmm', hm'⟩ := find?_of_forall₂ hsame (hfound.renamed.members_renamed kind) hm
  exact ⟨m', hm', hmm'.access_eq⟩

/-- An ancestor that gives a member its new name gives the old one back after the renaming. -/
theorem nameFrom?_renamed (h : Invertible t names referenced entries entries')
    (hreverse : t.reverse = .ok t') {k : MemberKey}
    {p new owner' d' : String} {s s' : ClassShape} (hp : p ∈ names)
    (hs : (ClassPath.ofArchive entries).find? p = some s)
    (hfound : FoundRenamed (.onArchive t entries) names p s s') (hd : NamesOnly names k.descriptor)
    (hd' : renameDescriptor t.newClassName k.descriptor = .ok d')
    (hfrom : t.nameFrom? k s = some new) :
    t'.nameFrom? ⟨k.kind, owner', new, d'⟩ s' = some k.name := by
  have hbracket := (mem_of_find? hs).1
  obtain ⟨m, hm, hprivate, hlisted⟩ := Remapper.nameFrom?_eq_some_iff.1 hfrom
  rw [hfound.name_eq] at hlisted
  obtain ⟨m', hm', haccess⟩ := h.declared?_renamed hbracket hs hfound hd hd' hlisted hm
  refine Remapper.nameFrom?_eq_some_iff.2 ⟨m', hm', by rw [haccess]; exact hprivate, ?_⟩
  rw [hfound.newName_eq hbracket]
  exact (h.memberName?_iff hreverse hp hbracket hd hd').2 hlisted

/-- A member without a row for its owner gets its old name back from the inverse. -/
theorem memberName_reverse_of_no_row (h : Invertible t names referenced entries entries')
    (hreverse : t.reverse = .ok t')
    {k : MemberKey} (hk : k.Occurs (.onArchive t entries) referenced)
    (hfixed : k.isFixed = false) (hrow : t.memberName? k = none) (howner : k.owner ∈ names)
    (hd : NamesOnly names k.descriptor) {d' : String}
    (hd' : renameDescriptor t.newClassName k.descriptor = .ok d') :
    ∃ new, (Remapper.onArchive t entries).memberName k = .ok new ∧
      (Remapper.onArchive t' entries').memberName
        ⟨k.kind, t.newClassName k.owner, new, d'⟩ = .ok k.name := by
  obtain ⟨hname, hbracket⟩ := MemberKey.isFixed_eq_false_iff.1 hfixed
  have hup : Upright (Remapper.onArchive t entries).classPath.find? _ k.owner :=
    h.archive.upright h.acyclic k.owner
  obtain ⟨new, hnew, hnewname⟩ : ∃ new, (Remapper.onArchive t entries).memberName k = .ok new ∧
      ¬ IsInitializer new := by
    rcases Remapper.memberName_of_no_row hfixed hrow hup with
      ⟨new, p, s, hnew, -, -, hfrom⟩ | ⟨hnew, -⟩
    · obtain ⟨-, -, -, hrow⟩ := Remapper.nameFrom?_eq_some_iff.1 hfrom
      exact ⟨new, hnew, (h.no_initializer _ _ hrow).2⟩
    · exact ⟨k.name, hnew, hname⟩
  -- A member that is listed for the owner or an ancestor and has this new name is this one.
  have hunique : ∀ {p old}, (p = k.owner ∨ Ancestor (ClassPath.ofArchive entries).find? k.owner p) →
      Text.beginsWith '[' p = false → t.memberName? ⟨k.kind, p, old, k.descriptor⟩ = some new →
      old = k.name := by
    intro p old hp hpbracket hlisted
    exact (h.keepsApart k ⟨k.kind, p, old, k.descriptor⟩ hk (.listed new hlisted) rfl hp
      (fun _ => ⟨d', hd', hd'⟩) new hnew (h.memberName_of_row hpbracket hlisted)).symm
  refine ⟨new, hnew, ?_⟩
  have hfixed' : (⟨k.kind, t.newClassName k.owner, new, d'⟩ : MemberKey).isFixed = false :=
    MemberKey.isFixed_eq_false_iff.2 ⟨hnewname, h.oneToOne.no_bracket hbracket⟩
  have hrow' : t'.memberName? ⟨k.kind, t.newClassName k.owner, new, d'⟩ = none := by
    refine Option.eq_none_iff_forall_ne_some.2 fun old hold => ?_
    rw [h.memberName?_iff hreverse howner hbracket hd hd'] at hold
    obtain rfl := hunique (.inl rfl) hbracket hold
    rw [hrow] at hold
    cases hold
  have hup' : Upright (Remapper.onArchive t' entries').classPath.find? _ (t.newClassName k.owner) :=
    h.upright_renamed h.acyclic howner hbracket
  rcases Remapper.memberName_of_no_row hfixed' hrow' hup' with
    ⟨old, q', s', hold, hq', hs', hfrom⟩ | ⟨hold, hnone⟩
  · -- The ancestor that gives the old name was one of the class, where the table lists the member.
    rw [hold]
    obtain ⟨q, hqnew, hq, hanc⟩ := h.ancestor_original howner hbracket hq'
    obtain ⟨hq, hqbracket, rfl⟩ := h.class_of_newClassConstant hq hqnew (mem_of_find? hs').1
    obtain ⟨-, -, -, hlisted⟩ := Remapper.nameFrom?_eq_some_iff.1 hfrom
    obtain ⟨s, -, hfound⟩ := h.found_original hq hqbracket hs'
    rw [hfound.newName_eq hqbracket] at hlisted
    rw [hunique (.inr hanc) hqbracket ((h.memberName?_iff hreverse hq hqbracket hd hd').1 hlisted)]
  · -- No ancestor gave the new name, as it would have given the old one back.
    rw [hold]
    rcases Remapper.memberName_of_no_row hfixed hrow hup with
      ⟨new₁, p, s, hnew₁, hanc, hs, hfrom⟩ | ⟨hnew₁, -⟩
    · cases hnew.symm.trans hnew₁
      obtain ⟨p', hp', hp, hanc'⟩ := h.ancestor_renamed howner hanc
      have hpbracket := (mem_of_find? hs).1
      rw [RenameTable.newClassConstant_of_class hpbracket] at hp'
      cases hp'
      have hp := mem_of_not_bracket hp hpbracket
      obtain ⟨s', hs', hfound⟩ := h.found_renamed hp hs
      have hback := hnone _ s' hanc' hs'
      rw [show (Remapper.onArchive t' entries').table = t' from rfl,
        h.nameFrom?_renamed hreverse hp hs hfound hd hd' hfrom] at hback
      cases hback
    · cases hnew.symm.trans hnew₁
      rfl

/-- A member gets its old name back from the inverse. -/
theorem memberName_reverse (h : Invertible t names referenced entries entries')
    (hreverse : t.reverse = .ok t') {k : MemberKey}
    (hk : k.Occurs (.onArchive t entries) referenced)
    (howner : k.owner ∈ names ∨ Text.beginsWith '[' k.owner = true)
    (hd : NamesOnly names k.descriptor) {owner' d' : String}
    (howner' : t.newClassConstant k.owner = .ok owner')
    (hd' : renameDescriptor t.newClassName k.descriptor = .ok d') :
    ∃ new, (Remapper.onArchive t entries).memberName k = .ok new ∧
      (Remapper.onArchive t' entries').memberName ⟨k.kind, owner', new, d'⟩ = .ok k.name := by
  have hbracket := h.oneToOne.beginsWith_iff howner'
  rcases hfixed : k.isFixed with _ | _
  · obtain ⟨hname, hclass⟩ := MemberKey.isFixed_eq_false_iff.1 hfixed
    have howner := mem_of_not_bracket howner hclass
    rw [RenameTable.newClassConstant_of_class hclass] at howner'
    cases howner'
    rcases hrow : t.memberName? k with _ | new
    · exact h.memberName_reverse_of_no_row hreverse hk hfixed hrow howner hd hd'
    · refine ⟨new, h.memberName_of_row hclass hrow, Remapper.memberName_of_row ?_ ?_⟩
      · exact MemberKey.isFixed_eq_false_iff.2
          ⟨(h.no_initializer k new hrow).2, h.oneToOne.no_bracket hclass⟩
      · exact (h.memberName?_iff hreverse howner hclass hd hd').2 hrow
  · -- Constructors, initializers and members of arrays are the same in both archives.
    refine ⟨k.name, Remapper.memberName_of_fixed hfixed, Remapper.memberName_of_fixed ?_⟩
    rw [MemberKey.isFixed] at hfixed ⊢
    rwa [hbracket]

end Invertible

namespace RenameTable

/-- If an archive is renamed by a table that can be undone, then the table has an inverse, and this
restores every name of a class, every descriptor over these names, and the name of every member that
occurs, whichever class names it. -/
theorem reverse_restores_names {t : RenameTable} {names : Set String}
    {referenced : Set MemberKey} {entries entries' : List ClassEntry}
    (h : Invertible t names referenced entries entries') :
    ∃ t', t.reverse = .ok t' ∧
      (∀ name ∈ names, t'.newClassName (t.newClassName name) = name) ∧
      (∀ s d, Descriptor.parse s = .ok d → (∀ name ∈ d.classNames, name ∈ names) →
        ∃ s', renameDescriptor t.newClassName s = .ok s' ∧
          renameDescriptor t'.newClassName s' = .ok s) ∧
      (∀ k : MemberKey, k.Occurs (.onArchive t entries) referenced →
        (k.owner ∈ names ∨ Text.beginsWith '[' k.owner = true) → NamesOnly names k.descriptor →
        ∀ owner' d', t.newClassConstant k.owner = .ok owner' →
          renameDescriptor t.newClassName k.descriptor = .ok d' →
          ∃ new, (Remapper.onArchive t entries).memberName k = .ok new ∧
            (Remapper.onArchive t' entries').memberName ⟨k.kind, owner', new, d'⟩ =
              .ok k.name) := by
  obtain ⟨t', hreverse⟩ := h.reverse_succeeds
  refine ⟨t', hreverse, ?_, ?_, ?_⟩
  · exact fun name hname => newClassName_reverse h.wellFormed h.oneToOne.faithfulOn hreverse hname
  · intro s d hparse hnames
    obtain ⟨s', hs'⟩ := (isDescriptor_iff (f := t.newClassName)).1 ⟨d, hparse⟩
    refine ⟨s', hs', renameDescriptor_reverse h.wellFormed h.oneToOne.faithfulOn hreverse ?_ hs'⟩
    intro d' hparse'
    cases hparse.symm.trans hparse'
    exact hnames
  · intro k hk howner hd owner' d' howner' hd'
    exact h.memberName_reverse hreverse hk howner hd howner' hd'

/-! ## A field of a superclass -/

/-- A class `A` with a field. -/
def baseClass : ClassFile where
  minorVersion := 0
  majorVersion := 61
  pool := .ofEntries [.utf8 "A", .classEntry 1, .utf8 "x", .utf8 "I"]
  access := ⟨0x21⟩
  thisClass := 2
  superClass := 0
  interfaces := []
  fields := [⟨⟨1⟩, 3, 4, []⟩]
  methods := []
  attributes := []

/-- A class `C` over `A`. -/
def derivedClass : ClassFile where
  minorVersion := 0
  majorVersion := 61
  pool := .ofEntries [.utf8 "C", .classEntry 1, .utf8 "A", .classEntry 3]
  access := ⟨0x21⟩
  thisClass := 2
  superClass := 4
  interfaces := []
  fields := []
  methods := []
  attributes := []

/-- The class files of `A` and `C` in an archive. -/
def derivedEntries : List ClassEntry :=
  [⟨"A", baseClass.encode, .stable, none⟩, ⟨"C", derivedClass.encode, .stable, none⟩]

/-- A table that renames `A` and its field. -/
def baseTable : RenameTable :=
  ⟨[⟨"A", "B", [⟨"x", "y", none⟩], []⟩]⟩

theorem shape_derivedEntries {e : ClassEntry} {s : ClassShape} (he : e ∈ derivedEntries)
    (hs : ClassShape.parse e.data = .ok s) :
    e.name = "A" ∧ s = ⟨"A", ⟨0x21⟩, none, [], [⟨"x", "I", ⟨1⟩⟩], []⟩ ∨
      e.name = "C" ∧ s = ⟨"C", ⟨0x21⟩, some "A", [], [], []⟩ := by
  have hall : ∀ e ∈ derivedEntries, ∀ s ∈ (ClassShape.parse e.data).toOption,
      e.name = "A" ∧ s = ⟨"A", ⟨0x21⟩, none, [], [⟨"x", "I", ⟨1⟩⟩], []⟩ ∨
        e.name = "C" ∧ s = ⟨"C", ⟨0x21⟩, some "A", [], [], []⟩ := by
    decide +kernel
  exact hall e he s (by rw [hs]; rfl)

theorem wellFormed_baseTable : baseTable.WellFormed where
  classes_nodup := by decide
  rows c hc := by
    obtain rfl := List.mem_singleton.1 hc
    constructor <;> decide

theorem hasDescriptors_baseTable : ∀ c ∈ baseTable.classes, c.HasDescriptors := by
  intro c hc
  obtain rfl := List.mem_singleton.1 hc
  constructor <;> simp

theorem name_of_baseTable {k : MemberKey} {new : String} (h : baseTable.memberName? k = some new) :
    k.name = "x" ∧ new = "y" := by
  obtain ⟨_ | _, owner, name, descriptor⟩ := k
  · obtain ⟨c, hc, f, hf, rfl, -, rfl⟩ := (memberName?_field_iff wellFormed_baseTable).1 h
    obtain rfl := List.mem_singleton.1 ((class?_eq_some_iff wellFormed_baseTable).1 hc).1
    obtain rfl := List.mem_singleton.1 hf
    exact ⟨rfl, rfl⟩
  · obtain ⟨c, hc, m, hm, -⟩ := (memberName?_method_iff wellFormed_baseTable).1 h
    obtain rfl := List.mem_singleton.1 ((class?_eq_some_iff wellFormed_baseTable).1 hc).1
    cases hm

theorem namesOnly_int (names : Set String) : NamesOnly names "I" := by
  intro d hd
  have hint : Descriptor.parse "I" = .ok (.field ⟨0, .primitive .int⟩) := by decide
  cases hint.symm.trans hd
  exact fun name hname => (by cases hname)

theorem oneToOne_baseTable : baseTable.OneToOne {"A", "C"} where
  injOn := by
    have hnames : ∀ a ∈ ["A", "C"], ∀ b ∈ ["A", "C"],
        baseTable.newClassName a = baseTable.newClassName b → a = b := by
      decide
    intro a ha b hb
    exact hnames a (by simpa using ha) b (by simpa using hb)
  rows_mem := by simp [baseTable]
  fields_only := by simp [baseTable]
  methods_only := by simp [baseTable]
  closed := by
    intro front back hmem
    have hcut : '$' ∈ (front ++ "$" ++ back).toList := by simp
    rcases hmem with h | h <;> rw [h] at hcut <;> exact absurd hcut (by decide)
  newNames := by
    intro c hc
    obtain rfl := List.mem_singleton.1 hc
    exact ⟨⟨by decide, by decide⟩, by decide⟩

theorem archiveOver_derivedEntries : ArchiveOver {"A", "C"} derivedEntries where
  stored := by
    have hall : ∀ e ∈ derivedEntries,
        (ClassFile.parse e.data).toOption.any (fun c => decide (c.name = .ok e.name)) = true := by
      decide +kernel
    intro e he
    have hany := hall e he
    rcases hc : ClassFile.parse e.data with error | c
    · rw [hc] at hany
      cases hany
    · rw [hc] at hany
      exact ⟨c, rfl, of_decide_eq_true hany⟩
  names_mem := by
    intro e he
    rw [derivedEntries] at he
    simp only [List.mem_cons, List.not_mem_nil, or_false] at he
    rcases he with rfl | rfl <;> simp
  parents_mem := by
    intro e he s hs
    rcases shape_derivedEntries he hs with ⟨-, rfl⟩ | ⟨-, rfl⟩ <;> simp [ClassShape.parents]
  members_only := by
    intro e he s hs kind m hm
    rcases shape_derivedEntries he hs with ⟨-, rfl⟩ | ⟨-, rfl⟩ <;> cases kind <;>
      simp [ClassShape.members] at hm
    rw [hm]
    exact namesOnly_int _

theorem acyclic_derivedEntries (p : String) :
    ¬ Ancestor (ClassPath.ofArchive derivedEntries).find? p p := by
  have hext : ∀ p q, Extends (ClassPath.ofArchive derivedEntries).find? p q →
      p = "C" ∧ q = "A" := by
    rintro p q ⟨s, hs, hq⟩
    obtain ⟨-, -, e, he, rfl, hparse⟩ := mem_of_find? hs
    rcases shape_derivedEntries he hparse with ⟨-, rfl⟩ | ⟨hname, rfl⟩
    · cases hq
    · exact ⟨hname, List.mem_singleton.1 hq⟩
  intro hp
  obtain ⟨_, hfirst, -⟩ := Relation.TransGen.head'_iff.1 hp
  obtain ⟨_, -, hlast⟩ := Relation.TransGen.tail'_iff.1 hp
  have hne := (hext _ _ hfirst).1.symm.trans (hext _ _ hlast).2
  revert hne
  decide

theorem keepsApart_derivedEntries :
    (Remapper.onArchive baseTable derivedEntries).KeepsApart {⟨.field, "C", "x", "I"⟩} := by
  have hname : ∀ k : MemberKey,
      k.Occurs (.onArchive baseTable derivedEntries) {⟨.field, "C", "x", "I"⟩} → k.name = "x" := by
    intro k hk
    cases hk with
    | referenced h => rw [Set.mem_singleton_iff.1 h]
    | declared s hs h =>
      obtain ⟨-, -, e, he, -, hparse⟩ := mem_of_find? hs
      obtain ⟨m, hm⟩ := Option.isSome_iff_exists.1 h
      rw [ClassShape.declared?_eq] at hm
      have hmem := List.mem_of_find?_eq_some hm
      have hfound := List.find?_some hm
      rw [Bool.and_eq_true, beq_iff_eq, beq_iff_eq] at hfound
      rw [← hfound.1]
      rcases shape_derivedEntries he hparse with ⟨-, rfl⟩ | ⟨-, rfl⟩ <;>
        cases hkind : k.kind <;> simp [hkind, ClassShape.members] at hmem
      rw [hmem]
    | listed new h => exact (name_of_baseTable h).1
  intro k₁ k₂ hk₁ hk₂ _ _ _ _ _ _
  rw [hname k₁ hk₁, hname k₂ hk₂]

theorem reverse_restores_names_derived : ∃ entries', Invertible baseTable {"A", "C"}
      {⟨.field, "C", "x", "I"⟩} derivedEntries entries' ∧
    ∃ t', baseTable.reverse = .ok t' ∧ t'.newClassName (baseTable.newClassName "A") = "A" ∧
    ∃ new,
      (Remapper.onArchive baseTable derivedEntries).memberName ⟨.field, "C", "x", "I"⟩ = .ok new ∧
      (Remapper.onArchive t' entries').memberName ⟨.field, "C", new, "I"⟩ = .ok "x" := by
  obtain ⟨entries', s', hrun⟩ : ∃ entries' s',
      derivedEntries.mapM (Renaming.processClass (.onArchive baseTable derivedEntries)) .start =
        (.ok entries', s') := by
    have hok : (derivedEntries.mapM (Renaming.processClass (.onArchive baseTable derivedEntries))
        .start).1.toOption.isSome = true := by
      decide +kernel
    rcases hrun : derivedEntries.mapM (Renaming.processClass (.onArchive baseTable derivedEntries))
      .start with ⟨error | entries', s'⟩
    · rw [hrun] at hok
      cases hok
    · exact ⟨entries', s', rfl⟩
  have h : Invertible baseTable {"A", "C"} {⟨.field, "C", "x", "I"⟩} derivedEntries entries' := by
    refine ⟨⟨oneToOne_baseTable, archiveOver_derivedEntries, .of_mapM .start hrun⟩,
      wellFormed_baseTable, hasDescriptors_baseTable, acyclic_derivedEntries, ?_,
      keepsApart_derivedEntries⟩
    intro k new hrow
    obtain ⟨hname, rfl⟩ := name_of_baseTable hrow
    rw [hname]
    exact ⟨by unfold IsInitializer; decide, by unfold IsInitializer; decide⟩
  obtain ⟨t', hreverse, hclasses, -, hmembers⟩ := reverse_restores_names h
  refine ⟨entries', h, t', hreverse, hclasses "A" (by simp), ?_⟩
  exact hmembers ⟨.field, "C", "x", "I"⟩ (.referenced rfl) (.inl (by simp)) (namesOnly_int _)
    "C" "I" (by decide) (by decide)

end RenameTable

end JarRemap
