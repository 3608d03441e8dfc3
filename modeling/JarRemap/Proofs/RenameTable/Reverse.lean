import JarRemap.Proofs.Descriptor
import JarRemap.Proofs.RenameTable.ClassName
import JarRemap.Proofs.RenameTable.Merge
import JarRemap.Proofs.SideBySide
import JarRemap.Rename.Remapper
import Mathlib.Data.Set.Function

/-!
# The inverse of a table

A table has an inverse exactly if it lists members with descriptors
(`RenameTable.reverse_succeeds_iff`). The inverse has for the new name of each class the row that
undoes the old one, where new names of classes differ. So it takes the name of a class back wherever
the table is one-to-one on names and on what stands before a `$` in them
(`RenameTable.newClassName_reverse`), and the names of members wherever those that are listed for
one class differ (`RenameTable.memberName?_reverse_iff`).
-/

namespace JarRemap

/-! ## Rows that undo rows -/

/-- The row undoes that of a field. -/
structure FieldRename.Reversed (t : RenameTable) (f f' : FieldRename) : Prop where
  oldName_eq : f'.oldName = f.newName
  newName_eq : f'.newName = f.oldName
  descriptor_ok : f.descriptor.mapM (renameDescriptor t.newClassName) = .ok f'.descriptor

namespace FieldRename.Reversed

variable {t : RenameTable} {f f' : FieldRename}

theorem descriptor_some (h : FieldRename.Reversed t f f') {e : String} (he : e ∈ f.descriptor) :
    ∃ e', renameDescriptor t.newClassName e = .ok e' ∧ e' ∈ f'.descriptor := by
  have hok := h.descriptor_ok
  obtain he : f.descriptor = some e := he
  rw [he] at hok
  obtain ⟨e', he', hok⟩ := except_bind_ok_iff.1 hok
  exact ⟨e', he', (Except.ok.inj hok).symm⟩

theorem descriptor_of_some (h : FieldRename.Reversed t f f') {e' : String}
    (he : e' ∈ f'.descriptor) :
    ∃ e ∈ f.descriptor, renameDescriptor t.newClassName e = .ok e' := by
  have hok := h.descriptor_ok
  obtain he : f'.descriptor = some e' := he
  rcases hf : f.descriptor with _ | e
  · rw [hf, he] at hok
    cases hok
  · rw [hf, he] at hok
    obtain ⟨e₁, he₁, hok⟩ := except_bind_ok_iff.1 hok
    cases hok
    exact ⟨e, rfl, he₁⟩

end FieldRename.Reversed

/-- The row undoes that of a method. -/
structure MethodRename.Reversed (t : RenameTable) (m m' : MethodRename) : Prop where
  oldName_eq : m'.oldName = m.newName
  newName_eq : m'.newName = m.oldName
  descriptor_ok : renameDescriptor t.newClassName m.descriptor = .ok m'.descriptor
  params_eq : m'.params =
    m.params.map fun p => { p with oldName := p.newName, newName := p.oldName }

/-- The row undoes that of a class. -/
structure ClassRename.Reversed (t : RenameTable) (c c' : ClassRename) : Prop where
  oldName_eq : c'.oldName = c.newName
  newName_eq : c'.newName = c.oldName
  fields : List.Forall₂ (FieldRename.Reversed t) c.fields c'.fields
  methods : List.Forall₂ (MethodRename.Reversed t) c.methods c'.methods

/-- The members of a class are listed with descriptors, if with any. -/
structure ClassRename.HasDescriptors (c : ClassRename) : Prop where
  fields : ∀ f ∈ c.fields, ∀ d ∈ f.descriptor, IsDescriptor d
  methods : ∀ m ∈ c.methods, IsDescriptor m.descriptor

namespace RenameTable

variable {t t' : RenameTable} {names : Set String}

theorem reverseClass_ok {c c' : ClassRename} (h : t.reverseClass c = .ok c') :
    ClassRename.Reversed t c c' := by
  obtain ⟨fields, hfields, h⟩ := except_bind_ok_iff.1 h
  obtain ⟨methods, hmethods, h⟩ := except_bind_ok_iff.1 h
  cases h
  refine ⟨rfl, rfl, (forall₂_of_mapM_ok hfields).imp fun f f' hf => ?_,
    (forall₂_of_mapM_ok hmethods).imp fun m m' hm => ?_⟩
  · obtain ⟨descriptor, hdescriptor, hf⟩ := except_bind_ok_iff.1 hf
    cases hf
    exact ⟨rfl, rfl, hdescriptor⟩
  · obtain ⟨descriptor, hdescriptor, hm⟩ := except_bind_ok_iff.1 hm
    cases hm
    exact ⟨rfl, rfl, hdescriptor, rfl⟩

theorem reverse_ok (h : t.reverse = .ok t') :
    ∃ rows, List.Forall₂ (ClassRename.Reversed t) t.classes rows ∧ t' = rows.foldl merge empty := by
  rw [reverse] at h
  rcases hrows : t.classes.mapM t.reverseClass with e | rows
  · rw [hrows] at h
    cases h
  · rw [hrows] at h
    cases h
    exact ⟨rows, (forall₂_of_mapM_ok hrows).imp fun _ _ => reverseClass_ok, rfl⟩

/-- The row of a class has an inverse exactly if its members are listed with descriptors. -/
theorem reverseClass_succeeds_iff {c : ClassRename} :
    (∃ c', t.reverseClass c = .ok c') ↔ c.HasDescriptors := by
  constructor
  · rintro ⟨c', h⟩
    have hreversed := reverseClass_ok h
    constructor
    · intro f hf d hd
      obtain ⟨f', -, hf'⟩ := exists_right_of_mem hreversed.fields hf
      obtain ⟨d', hd', -⟩ := hf'.descriptor_some hd
      exact isDescriptor_iff.2 ⟨d', hd'⟩
    · intro m hm
      obtain ⟨m', -, hm'⟩ := exists_right_of_mem hreversed.methods hm
      exact isDescriptor_iff.2 ⟨m'.descriptor, hm'.descriptor_ok⟩
  · rintro ⟨hfields, hmethods⟩
    refine exists_bind_ok (mapM_ok_iff.2 fun f hf => ?_) fun fields =>
      exists_bind_ok (mapM_ok_iff.2 fun m hm => ?_) fun methods => ⟨_, rfl⟩
    · refine exists_bind_ok ?_ fun descriptor => ⟨_, rfl⟩
      rcases hd : f.descriptor with _ | d
      · exact ⟨none, rfl⟩
      · exact exists_bind_ok (isDescriptor_iff.1 (hfields f hf d hd)) fun d' => ⟨some d', rfl⟩
    · exact exists_bind_ok (isDescriptor_iff.1 (hmethods m hm)) fun descriptor => ⟨_, rfl⟩

/-- A table has an inverse exactly if it lists members with descriptors. -/
theorem reverse_succeeds_iff :
    (∃ t', t.reverse = .ok t') ↔ ∀ c ∈ t.classes, c.HasDescriptors := by
  constructor
  · rintro ⟨t', h⟩ c hc
    obtain ⟨rows, hrows, -⟩ := except_bind_ok_iff.1 h
    exact reverseClass_succeeds_iff.1 (mapM_ok_iff.1 ⟨rows, hrows⟩ c hc)
  · intro h
    exact exists_bind_ok (mapM_ok_iff.2 fun c hc => reverseClass_succeeds_iff.2 (h c hc))
      fun rows => ⟨_, rfl⟩

/-! ## Class names -/

/-- The table is one-to-one on names, among which are its own, those in its descriptors, and with
each name what stands before a `$` in it. The new names in it are names of classes. -/
structure OneToOne (t : RenameTable) (names : Set String) : Prop where
  injOn : Set.InjOn t.newClassName names
  rows_mem : ∀ c ∈ t.classes, c.oldName ∈ names
  fields_only : ∀ c ∈ t.classes, ∀ f ∈ c.fields, ∀ d ∈ f.descriptor, NamesOnly names d
  methods_only : ∀ c ∈ t.classes, ∀ m ∈ c.methods, NamesOnly names m.descriptor
  closed : ∀ front back, front ++ "$" ++ back ∈ names → front ∈ names
  newNames : ∀ c ∈ t.classes, IsWritable c.newName ∧ Text.beginsWith '[' c.newName = false

/-- As `OneToOne`, but a new name may begin as that of an array does. -/
structure FaithfulOn (t : RenameTable) (names : Set String) : Prop where
  injOn : Set.InjOn t.newClassName names
  rows_mem : ∀ c ∈ t.classes, c.oldName ∈ names
  fields_only : ∀ c ∈ t.classes, ∀ f ∈ c.fields, ∀ d ∈ f.descriptor, NamesOnly names d
  methods_only : ∀ c ∈ t.classes, ∀ m ∈ c.methods, NamesOnly names m.descriptor
  closed : ∀ front back, front ++ "$" ++ back ∈ names → front ∈ names
  newNames : ∀ c ∈ t.classes, IsWritable c.newName

theorem OneToOne.faithfulOn (hone : t.OneToOne names) : t.FaithfulOn names :=
  ⟨hone.injOn, hone.rows_mem, hone.fields_only, hone.methods_only, hone.closed,
    fun c hc => (hone.newNames c hc).1⟩

/-- What the rows have, a name without a row has if what stands before its last `$` does. -/
theorem newClassName_induction {motive : String → String → Prop}
    (hrow : ∀ c ∈ t.classes, motive c.oldName c.newName)
    (hplain : ∀ name, t.className? name = none → '$' ∉ name.toList → motive name name)
    (hnested : ∀ front back, t.className? (front ++ "$" ++ back) = none → '$' ∉ back.toList →
      motive front (t.newClassName front) →
      motive (front ++ "$" ++ back) (t.newClassName front ++ "$" ++ back)) (name : String) :
    motive name (t.newClassName name) := by
  refine newClassName_recursion (fun name new hclass => ?_) hplain hnested name
  obtain ⟨c, hc, rfl⟩ := Option.map_eq_some_iff.1 hclass
  obtain rfl : c.oldName = name := by simpa using List.find?_some hc
  exact hrow c (List.mem_of_find?_eq_some hc)

/-- A name that can be written in a descriptor has a new one that can. -/
theorem isWritable_newClassName (hnew : ∀ c ∈ t.classes, IsWritable c.newName) {name : String}
    (h : IsWritable name) : IsWritable (t.newClassName name) := by
  have hparts : ';' ∉ name.toList → (name ≠ "" → t.newClassName name ≠ "") ∧
      ';' ∉ (t.newClassName name).toList := by
    refine newClassName_induction (motive := fun name new => ';' ∉ name.toList →
      (name ≠ "" → new ≠ "") ∧ ';' ∉ new.toList) ?_ ?_ ?_ name
    · intro c hc _
      exact ⟨fun _ => (hnew c hc).1, (hnew c hc).2⟩
    · exact fun name _ _ hname => ⟨id, hname⟩
    · intro front back _ _ ih hname
      simp only [String.toList_append, List.mem_append, not_or] at hname ⊢
      refine ⟨fun _ hempty => ?_, ⟨(ih hname.1.1).2, hname.1.2⟩, hname.2⟩
      have := congrArg String.toList hempty
      simp at this
  exact ⟨(hparts h.2).1 h.1, (hparts h.2).2⟩

/-- No class becomes an array. -/
theorem OneToOne.no_bracket (hone : t.OneToOne names) {name : String}
    (h : Text.beginsWith '[' name = false) : Text.beginsWith '[' (t.newClassName name) = false := by
  have happend : ∀ front back, Text.beginsWith '[' (front ++ "$" ++ back) =
      Text.beginsWith '[' front := by
    intro front back
    rw [Text.beginsWith, Text.beginsWith, String.toList_append, String.toList_append]
    cases front.toList <;> rfl
  revert h
  refine newClassName_induction (motive := fun name new =>
    Text.beginsWith '[' name = false → Text.beginsWith '[' new = false) ?_ ?_ ?_ name
  · exact fun c hc _ => (hone.newNames c hc).2
  · exact fun name _ _ hname => hname
  · intro front back _ _ ih hname
    rw [happend] at hname ⊢
    exact ih hname

theorem newName_eq (hwf : t.WellFormed) {c : ClassRename} (hc : c ∈ t.classes) :
    t.newClassName c.oldName = c.newName := by
  refine newClassName_of_row ?_
  rw [className?, (class?_eq_some_iff hwf).2 ⟨hc, rfl⟩]
  rfl

theorem nodup_newNames (hwf : t.WellFormed) (hfaithful : t.FaithfulOn names) :
    (t.classes.map (·.newName)).Nodup := by
  have hmap : t.classes.map (·.newName) = (t.classes.map (·.oldName)).map t.newClassName := by
    rw [List.map_map]
    exact List.map_congr_left fun c hc => (newName_eq hwf hc).symm
  rw [hmap]
  refine hwf.classes_nodup.map_on fun n hn m hm heq => ?_
  obtain ⟨c, hc, rfl⟩ := List.mem_map.1 hn
  obtain ⟨d, hd, rfl⟩ := List.mem_map.1 hm
  exact hfaithful.injOn (hfaithful.rows_mem c hc) (hfaithful.rows_mem d hd) heq

/-- The row of a class in the inverse. -/
theorem class?_reverse_eq (hwf : t.WellFormed) (hfaithful : t.FaithfulOn names)
    (h : t.reverse = .ok t') {name : String} (hname : name ∈ names) :
    (∃ c c', t.class? name = some c ∧ ClassRename.Reversed t c c' ∧
      t'.class? (t.newClassName name) = some c'.merged) ∨
    (t.class? name = none ∧ t'.class? (t.newClassName name) = none) := by
  -- New names of classes differ, so merging the reversed rows merges no two of them.
  obtain ⟨rows, hrows, rfl⟩ := reverse_ok h
  have holdNames : rows.map (·.oldName) = t.classes.map (·.newName) :=
    map_eq_of_forall₂ (fun _ _ hc => hc.oldName_eq) hrows
  rcases hclass : t.class? name with _ | c
  · refine .inr ⟨rfl, ?_⟩
    rw [class?_foldl_merge_of_notMem]
    · rfl
    · rw [holdNames]
      intro hmem
      obtain ⟨c, hc, hnew⟩ := List.mem_map.1 hmem
      rw [← newName_eq hwf hc] at hnew
      have heq := hfaithful.injOn (hfaithful.rows_mem c hc) hname hnew
      rw [(class?_eq_some_iff hwf).2 ⟨hc, heq⟩] at hclass
      cases hclass
  · left
    obtain ⟨hc, rfl⟩ := (class?_eq_some_iff hwf).1 hclass
    obtain ⟨c', hc', hreversed⟩ := exists_right_of_mem hrows hc
    have hrow := class?_foldl_merge (t := empty) (holdNames ▸ nodup_newNames hwf hfaithful)
      (fun _ _ => rfl) hc'
    rw [hreversed.oldName_eq, ← newName_eq hwf hc] at hrow
    exact ⟨c, c', rfl, hreversed, hrow⟩

/-- What the row of a class in the inverse says. -/
theorem class?_reverse (hwf : t.WellFormed) (hfaithful : t.FaithfulOn names)
    (h : t.reverse = .ok t') {name : String} (hname : name ∈ names) :
    (∃ c c' row, t.class? name = some c ∧ ClassRename.Reversed t c c' ∧
      t'.class? (t.newClassName name) = some row ∧ row.newName = name ∧
      (c'.WellFormed → row.Agrees c')) ∨
    (t.class? name = none ∧ t'.class? (t.newClassName name) = none) := by
  refine (class?_reverse_eq hwf hfaithful h hname).imp_left ?_
  rintro ⟨c, c', hclass, hreversed, hrow⟩
  obtain ⟨-, rfl⟩ := (class?_eq_some_iff hwf).1 hclass
  exact ⟨c, c', _, hclass, hreversed, hrow, c'.newName_merged.trans hreversed.newName_eq,
    ClassRename.agrees_merged⟩

/-- The inverse takes names back. -/
theorem newClassName_reverse (hwf : t.WellFormed) (hfaithful : t.FaithfulOn names)
    (h : t.reverse = .ok t') {name : String} (hname : name ∈ names) :
    t'.newClassName (t.newClassName name) = name := by
  have hrow : ∀ name ∈ names, t.className? name = none →
      t'.className? (t.newClassName name) = none := by
    intro name hname hnone
    rw [className?, Option.map_eq_none_iff] at hnone ⊢
    rcases class?_reverse hwf hfaithful h hname with ⟨c, c', row, hclass, -⟩ | ⟨-, hnone'⟩
    · rw [hnone] at hclass
      cases hclass
    · exact hnone'
  revert hname
  -- The inverse has no row for a new name without one, so it cuts where the table did.
  refine newClassName_induction (motive := fun name new =>
    name ∈ names → t'.newClassName new = name) ?_ ?_ ?_ name
  · intro c hc hname
    rcases class?_reverse hwf hfaithful h hname with ⟨d, d', row, -, -, hrow, hnew, -⟩ | ⟨hnone, -⟩
    · rw [newName_eq hwf hc] at hrow
      refine newClassName_of_row ?_
      rw [className?, hrow, Option.map_some, hnew]
    · rw [(class?_eq_some_iff hwf).2 ⟨hc, rfl⟩] at hnone
      cases hnone
  · intro name hnone hplain hname
    have hnone' := hrow name hname hnone
    rw [newClassName_plain hnone hplain] at hnone'
    exact newClassName_plain hnone' hplain
  · intro front back hnone hback ih hname
    have hnone' := hrow _ hname hnone
    rw [newClassName_nested hnone hback] at hnone'
    rw [newClassName_nested hnone' hback, ih (hfaithful.closed front back hname)]

/-- The inverse takes descriptors back. -/
theorem renameDescriptor_reverse (hwf : t.WellFormed) (hfaithful : t.FaithfulOn names)
    (h : t.reverse = .ok t') {d d' : String} (hd : NamesOnly names d)
    (hd' : renameDescriptor t.newClassName d = .ok d') :
    renameDescriptor t'.newClassName d' = .ok d := by
  refine hd.rename_inverse (fun name _ hwritable => ?_) (fun name hname => ?_) hd'
  · exact isWritable_newClassName hfaithful.newNames hwritable
  · exact newClassName_reverse hwf hfaithful h hname

/-- Different descriptors stay different. -/
theorem renameDescriptor_inj (hwf : t.WellFormed) (hfaithful : t.FaithfulOn names)
    (h : t.reverse = .ok t') {d e d' : String} (hd : NamesOnly names d) (he : NamesOnly names e)
    (hd' : renameDescriptor t.newClassName d = .ok d')
    (he' : renameDescriptor t.newClassName e = .ok d') : d = e := by
  have hd := renameDescriptor_reverse hwf hfaithful h hd hd'
  rw [renameDescriptor_reverse hwf hfaithful h he he'] at hd
  exact (Except.ok.inj hd).symm

/-! ## Members -/

theorem method?_eq_some_iff {c : ClassRename} (hc : c.WellFormed) {name descriptor : String}
    {m : MethodRename} :
    c.method? name descriptor = some m ↔
      m ∈ c.methods ∧ m.oldName = name ∧ m.descriptor = descriptor := by
  have hkey : (fun m : MethodRename => m.isFor name descriptor) =
      fun m => (m.oldName, m.descriptor) == (name, descriptor) := by
    funext m
    rw [Bool.eq_iff_iff, MethodRename.isFor, beq_iff_eq, Bool.and_eq_true, beq_iff_eq, beq_iff_eq,
      Prod.mk.injEq]
  rw [ClassRename.method?, show MethodRename.isFor name descriptor = _ from hkey,
    find?_key_iff hc.methods_nodup, Prod.mk.injEq]

theorem field?_eq_some_iff {c : ClassRename} (hc : c.WellFormed) {name descriptor : String}
    {f : FieldRename} :
    c.field? name (some descriptor) = some f ↔
      f ∈ c.fields ∧ f.oldName = name ∧ ∀ d ∈ f.descriptor, d = descriptor := by
  rw [ClassRename.field?, Option.filter_eq_some_iff, find?_key_iff hc.fields_nodup, and_assoc]
  refine and_congr_right fun _ => and_congr_right fun _ => ?_
  cases f.descriptor <;> simp

/-- No two members that are listed for the class, in the case of methods with the same new
descriptor, get the same name. -/
def Separates (t : RenameTable) (owner : String) : Prop :=
  ∀ k₁ k₂ : MemberKey, ∀ new, k₁.kind = k₂.kind → k₁.owner = owner → k₂.owner = owner →
    (k₁.kind = .method → ∃ d, renameDescriptor t.newClassName k₁.descriptor = .ok d ∧
      renameDescriptor t.newClassName k₂.descriptor = .ok d) →
    t.memberName? k₁ = some new → t.memberName? k₂ = some new → k₁.name = k₂.name

theorem memberName?_field_iff (hwf : t.WellFormed) {owner name descriptor new : String} :
    t.memberName? ⟨.field, owner, name, descriptor⟩ = some new ↔
      ∃ c, t.class? owner = some c ∧ ∃ f ∈ c.fields, f.oldName = name ∧
        (∀ d ∈ f.descriptor, d = descriptor) ∧ f.newName = new := by
  rw [memberName?, fieldName?, Option.map_eq_some_iff]
  constructor
  · rintro ⟨f, hf, rfl⟩
    obtain ⟨c, hc, hf⟩ := Option.bind_eq_some_iff.1 hf
    obtain ⟨hmem, hname, hd⟩ :=
      (field?_eq_some_iff (hwf.rows c ((class?_eq_some_iff hwf).1 hc).1)).1 hf
    exact ⟨c, hc, f, hmem, hname, hd, rfl⟩
  · rintro ⟨c, hc, f, hmem, hname, hd, rfl⟩
    refine ⟨f, Option.bind_eq_some_iff.2 ⟨c, hc, ?_⟩, rfl⟩
    exact (field?_eq_some_iff (hwf.rows c ((class?_eq_some_iff hwf).1 hc).1)).2 ⟨hmem, hname, hd⟩

theorem memberName?_method_iff (hwf : t.WellFormed) {owner name descriptor new : String} :
    t.memberName? ⟨.method, owner, name, descriptor⟩ = some new ↔
      ∃ c, t.class? owner = some c ∧ ∃ m ∈ c.methods, m.oldName = name ∧
        m.descriptor = descriptor ∧ m.newName = new := by
  rw [memberName?, methodName?, Option.map_eq_some_iff]
  constructor
  · rintro ⟨m, hm, rfl⟩
    obtain ⟨c, hc, hm⟩ := Option.bind_eq_some_iff.1 hm
    obtain ⟨hmem, hname, hd⟩ :=
      (method?_eq_some_iff (hwf.rows c ((class?_eq_some_iff hwf).1 hc).1)).1 hm
    exact ⟨c, hc, m, hmem, hname, hd, rfl⟩
  · rintro ⟨c, hc, m, hmem, hname, hd, rfl⟩
    refine ⟨m, Option.bind_eq_some_iff.2 ⟨c, hc, ?_⟩, rfl⟩
    exact (method?_eq_some_iff (hwf.rows c ((class?_eq_some_iff hwf).1 hc).1)).2 ⟨hmem, hname, hd⟩

theorem memberName?_of_class?_none {kind : MemberKind} {owner name descriptor : String}
    (h : t.class? owner = none) : t.memberName? ⟨kind, owner, name, descriptor⟩ = none := by
  cases kind with
  | field => rw [memberName?, fieldName?, h, Option.bind_none, Option.map_none]
  | method => rw [memberName?, methodName?, h, Option.bind_none, Option.map_none]

/-- If the members of a class are kept apart, the row that undoes its row has one row for each. -/
theorem wellFormed_reversed (hwf : t.WellFormed) (hone : t.OneToOne names)
    (h : t.reverse = .ok t') {c c' : ClassRename} (hc : c ∈ t.classes)
    (hreversed : ClassRename.Reversed t c c') (hsep : t.Separates c.oldName) : c'.WellFormed := by
  have hclass := (class?_eq_some_iff hwf).2 ⟨hc, rfl⟩
  obtain ⟨hfields, hmethods⟩ := hwf.rows c hc
  constructor
  · rw [map_eq_of_forall₂ (g := FieldRename.oldName) (fun _ _ hf => hf.oldName_eq) hreversed.fields]
    refine hfields.of_map.map_on fun f hf g hg heq => ?_
    -- A row without a descriptor counts for any, so some member is listed by each row.
    have hlisted : ∀ f ∈ c.fields, t.memberName?
        ⟨.field, c.oldName, f.oldName, f.descriptor.getD ""⟩ = some f.newName := by
      intro f hf
      refine (memberName?_field_iff hwf).2 ⟨c, hclass, f, hf, rfl, fun d hd => ?_, rfl⟩
      rw [hd, Option.getD_some]
    have hold : f.oldName = g.oldName :=
      hsep ⟨.field, _, f.oldName, _⟩ ⟨.field, _, g.oldName, _⟩ f.newName rfl rfl rfl
        (fun h => (by cases h)) (hlisted f hf) ((hlisted g hg).trans (congrArg some heq.symm))
    exact List.inj_on_of_nodup_map hfields hf hg hold
  · have hlisted : ∀ m ∈ c.methods, t.memberName?
        ⟨.method, c.oldName, m.oldName, m.descriptor⟩ = some m.newName := fun m hm =>
      (memberName?_method_iff hwf).2 ⟨c, hclass, m, hm, rfl, rfl, rfl⟩
    have hkeys : c'.methods.map (fun m => (m.oldName, Except.ok m.descriptor)) =
        c.methods.map fun m => (m.newName, renameDescriptor t.newClassName m.descriptor) :=
      map_eq_of_forall₂ (fun _ _ hm => by rw [hm.oldName_eq, hm.descriptor_ok]) hreversed.methods
    have hnodup : (c'.methods.map fun m =>
        (m.oldName, (Except.ok m.descriptor : Except DescriptorError String))).Nodup := by
      rw [hkeys]
      refine hmethods.of_map.map_on fun m hm n hn heq => ?_
      obtain ⟨hname, hdescriptor⟩ := Prod.mk.inj heq
      obtain ⟨m', -, hm'⟩ := exists_right_of_mem hreversed.methods hm
      have hmnew := hm'.descriptor_ok
      have hnnew := hdescriptor.symm.trans hm'.descriptor_ok
      have hold : m.oldName = n.oldName :=
        hsep ⟨.method, _, m.oldName, _⟩ ⟨.method, _, n.oldName, _⟩ m.newName rfl rfl rfl
          (fun _ => ⟨_, hmnew, hnnew⟩) (hlisted m hm)
          ((hlisted n hn).trans (congrArg some hname.symm))
      have hsame := renameDescriptor_inj hwf hone.faithfulOn h (hone.methods_only c hc m hm)
        (hone.methods_only c hc n hn) hmnew hnnew
      exact List.inj_on_of_nodup_map hmethods hm hn (Prod.ext hold hsame)
    refine List.Nodup.of_map (fun p => (p.1, (Except.ok p.2 : Except DescriptorError String))) ?_
    rwa [List.map_map]

theorem field?_congr {row c : ClassRename} (h : row.Agrees c) (name descriptor : String) :
    row.field? name (some descriptor) = c.field? name (some descriptor) := by
  rw [ClassRename.field?, ClassRename.field?, h.fields_eq]

theorem method?_congr {row c : ClassRename} (h : row.Agrees c) (name descriptor : String) :
    (row.method? name descriptor).map (·.newName) =
      (c.method? name descriptor).map (·.newName) := by
  have hbare : ∀ l : List MethodRename,
      (l.find? (MethodRename.isFor name descriptor)).map (·.newName) =
      ((l.map MethodRename.bare).find? (MethodRename.isFor name descriptor)).map (·.newName) := by
    intro l
    rw [List.find?_map, Option.map_map]
    rfl
  rw [ClassRename.method?, ClassRename.method?, hbare, h.methods_eq, ← hbare]

/-- What the inverse says of members under the new names of their classes. -/
theorem memberName?_reverse_iff (hwf : t.WellFormed) (hone : t.OneToOne names)
    (h : t.reverse = .ok t') {kind : MemberKind} {owner new old d d' : String}
    (howner : owner ∈ names) (hsep : t.Separates owner) (hd : NamesOnly names d)
    (hd' : renameDescriptor t.newClassName d = .ok d') :
    t'.memberName? ⟨kind, t.newClassName owner, new, d'⟩ = some old ↔
      t.memberName? ⟨kind, owner, old, d⟩ = some new := by
  rcases class?_reverse hwf hone.faithfulOn h howner with
    ⟨c, c', row, hclass, hreversed, hrow, -, hagrees⟩ | ⟨hnone, hnone'⟩
  · obtain ⟨hc, rfl⟩ := (class?_eq_some_iff hwf).1 hclass
    -- Members are kept apart, so a row of the inverse is found by its key, and the row found for a
    -- member is the reverse of its own.
    have hwf' := wellFormed_reversed hwf hone h hc hreversed hsep
    have hagrees := hagrees hwf'
    cases kind with
    | field =>
      rw [memberName?_field_iff hwf, memberName?, fieldName?, hrow, Option.bind_some,
        field?_congr hagrees, Option.map_eq_some_iff]
      constructor
      · rintro ⟨f', hf', rfl⟩
        obtain ⟨hmem, rfl, hdescriptor⟩ := (field?_eq_some_iff hwf').1 hf'
        obtain ⟨f, hf, hff'⟩ := exists_left_of_mem hreversed.fields hmem
        refine ⟨c, hclass, f, hf, hff'.newName_eq.symm, fun e he => ?_, hff'.oldName_eq.symm⟩
        obtain ⟨e', he', hee'⟩ := hff'.descriptor_some he
        rw [hdescriptor e' hee'] at he'
        exact renameDescriptor_inj hwf hone.faithfulOn h (hone.fields_only c hc f hf e he) hd he'
          hd'
      · rintro ⟨d₁, hd₁, f, hf, rfl, hdescriptor, rfl⟩
        cases hclass.symm.trans hd₁
        obtain ⟨f', hf', hff'⟩ := exists_right_of_mem hreversed.fields hf
        refine ⟨f', (field?_eq_some_iff hwf').2 ⟨hf', hff'.oldName_eq, fun e' he' => ?_⟩,
          hff'.newName_eq⟩
        obtain ⟨e, he, hee'⟩ := hff'.descriptor_of_some he'
        rw [hdescriptor e he, hd'] at hee'
        exact (Except.ok.inj hee').symm
    | method =>
      rw [memberName?_method_iff hwf, memberName?, methodName?, hrow, Option.bind_some,
        method?_congr hagrees, Option.map_eq_some_iff]
      constructor
      · rintro ⟨m', hm', rfl⟩
        obtain ⟨hmem, rfl, rfl⟩ := (method?_eq_some_iff hwf').1 hm'
        obtain ⟨m, hm, hmm'⟩ := exists_left_of_mem hreversed.methods hmem
        refine ⟨c, hclass, m, hm, hmm'.newName_eq.symm, ?_, hmm'.oldName_eq.symm⟩
        exact renameDescriptor_inj hwf hone.faithfulOn h (hone.methods_only c hc m hm) hd
          hmm'.descriptor_ok hd'
      · rintro ⟨d₁, hd₁, m, hm, rfl, rfl, rfl⟩
        cases hclass.symm.trans hd₁
        obtain ⟨m', hm', hmm'⟩ := exists_right_of_mem hreversed.methods hm
        refine ⟨m', (method?_eq_some_iff hwf').2 ⟨hm', hmm'.oldName_eq, ?_⟩, hmm'.newName_eq⟩
        exact Except.ok.inj (hmm'.descriptor_ok.symm.trans hd')
  · rw [memberName?_of_class?_none hnone, memberName?_of_class?_none hnone']
    exact ⟨fun h => (by cases h), fun h => (by cases h)⟩

end RenameTable

end JarRemap
