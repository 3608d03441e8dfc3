import JarRemap.Proofs.Rename.MemberName
import JarRemap.Proofs.Rename.RenamedArchive

/-!
# References and declarations

A reference names a member through some class, and is linked to a declaration in that class or in an
ancestor of it. Renaming should not break the link: the reference and the declaration should get the
same new name.

It does not if the table is made for the declarations of the hierarchy (`Remapper.Consistent`) and
the class through which the member is named does not stand in the way: with a private declaration of
its own, or with a row for a field of the same name but of another type, which for want of a
descriptor is taken for the row of the member (`Remapper.reference_named_as_declaration`). The
second case does break links (`Remapper.untyped_row_breaks_link`).
-/

namespace JarRemap

open Walk

/-- A class under this name declares the member, for others to see. -/
def ClassPath.Shares (path : ClassPath) (k : MemberKey) : Prop :=
  ∃ s m, path.find? k.owner = some s ∧ s.declared? k = some m ∧
    m.access.contains .privateFlag = false

/-- A class under this name declares the member as a private one. -/
def ClassPath.Hides (path : ClassPath) (k : MemberKey) : Prop :=
  ∃ s m, path.find? k.owner = some s ∧ s.declared? k = some m ∧
    m.access.contains .privateFlag = true

/-- Every row of a member is in the row of a class that can be found and that declares such a
member. A row without a descriptor is for any field of its name. -/
structure RenameTable.OfDeclared (t : RenameTable) (path : ClassPath) : Prop where
  fields : ∀ c ∈ t.classes, ∀ f ∈ c.fields, ∃ s, path.find? c.oldName = some s ∧
    (s.field? f.oldName f.descriptor).isSome = true
  methods : ∀ c ∈ t.classes, ∀ m ∈ c.methods, ∃ s, path.find? c.oldName = some s ∧
    (s.method? m.oldName m.descriptor).isSome = true

namespace RenameTable

variable {t : RenameTable} {c : ClassRename} {name : String}

theorem mem_of_class? (h : t.class? name = some c) : c ∈ t.classes ∧ c.oldName = name :=
  ⟨List.mem_of_find?_eq_some h, by simpa using List.find?_some h⟩

theorem mem_of_field? {descriptor : String} {f : FieldRename}
    (h : c.field? name (some descriptor) = some f) :
    f ∈ c.fields ∧ f.oldName = name ∧ (f.descriptor = none ∨ f.descriptor = some descriptor) := by
  obtain ⟨hfind, hsame⟩ := Option.filter_eq_some_iff.1 h
  refine ⟨List.mem_of_find?_eq_some hfind, by simpa using List.find?_some hfind, ?_⟩
  rcases hd : f.descriptor with _ | d
  · exact .inl rfl
  · rw [hd] at hsame
    exact .inr (congrArg some (beq_iff_eq.1 hsame))

theorem mem_of_method? {descriptor : String} {m : MethodRename}
    (h : c.method? name descriptor = some m) :
    m ∈ c.methods ∧ m.oldName = name ∧ m.descriptor = descriptor := by
  refine ⟨List.mem_of_find?_eq_some h, ?_⟩
  simpa [MethodRename.isFor] using List.find?_some h

end RenameTable

namespace Remapper

variable {r : Remapper} {k : MemberKey}

/-- The table is made for the declarations of a hierarchy without cycles: it has rows for declared
members alone, and what overrides or hides a declaration that it inherits gets the same name. -/
structure Consistent (r : Remapper) : Prop where
  acyclic : r.classPath.Acyclic
  ofDeclared : r.table.OfDeclared r.classPath
  /-- Two declarations of a member among a class and its ancestors are named alike. -/
  alike : ∀ (start : String) (k₁ k₂ : MemberKey), k₂ = { k₁ with owner := k₂.owner } →
    (k₁.owner = start ∨ Ancestor r.classPath.find? start k₁.owner) →
    (k₂.owner = start ∨ Ancestor r.classPath.find? start k₂.owner) →
    r.classPath.Shares k₁ → r.classPath.Shares k₂ → r.memberName k₁ = r.memberName k₂

/-- The row that the table takes for that of a field has no descriptor. -/
def UntypedRow (t : RenameTable) (k : MemberKey) : Prop :=
  k.kind = .field ∧ ∃ c f, t.class? k.owner = some c ∧ c.field? k.name (some k.descriptor) = some f ∧
    f.descriptor = none

/-- A member with a row is declared, unless the row is that of a field and does not say its type. -/
theorem declared_of_row (hof : r.table.OfDeclared r.classPath) {new : String}
    (hrow : r.table.memberName? k = some new) (htyped : ¬ UntypedRow r.table k) :
    ∃ s m, r.classPath.find? k.owner = some s ∧ s.declared? k = some m := by
  obtain ⟨kind, owner, name, descriptor⟩ := k
  cases kind with
  | field =>
    obtain ⟨f, hf, rfl⟩ := Option.map_eq_some_iff.1 hrow
    obtain ⟨c, hc, hf⟩ := Option.bind_eq_some_iff.1 hf
    obtain ⟨hmem, rfl⟩ := RenameTable.mem_of_class? hc
    obtain ⟨hfmem, rfl, hsame⟩ := RenameTable.mem_of_field? hf
    have hdescriptor : f.descriptor = some descriptor :=
      hsame.resolve_left fun hnone => htyped ⟨rfl, c, f, hc, hf, hnone⟩
    obtain ⟨s, hs, hsome⟩ := hof.fields c hmem f hfmem
    rw [hdescriptor] at hsome
    obtain ⟨m, hm⟩ := Option.isSome_iff_exists.1 hsome
    exact ⟨s, m, hs, hm⟩
  | method =>
    obtain ⟨m, hm, rfl⟩ := Option.map_eq_some_iff.1 hrow
    obtain ⟨c, hc, hm⟩ := Option.bind_eq_some_iff.1 hm
    obtain ⟨hmem, rfl⟩ := RenameTable.mem_of_class? hc
    obtain ⟨hmmem, rfl, rfl⟩ := RenameTable.mem_of_method? hm
    obtain ⟨s, hs, hsome⟩ := hof.methods c hmem m hmmem
    obtain ⟨d, hd⟩ := Option.isSome_iff_exists.1 hsome
    exact ⟨s, d, hs, hd⟩

/-- A class that gives a member its name declares it, and would be given that name itself. -/
theorem memberName_of_nameFrom? (hacyclic : r.classPath.Acyclic) (hfixed : k.isFixed = false)
    {p new : String} {s : ClassShape} (hs : r.classPath.find? p = some s)
    (hfrom : r.table.nameFrom? k s = some new) :
    r.classPath.Shares { k with owner := p } ∧ r.memberName { k with owner := p } = .ok new := by
  obtain ⟨m, hm, hshared, hrow⟩ := nameFrom?_eq_some_iff.1 hfrom
  rw [hacyclic.name_eq p s hs] at hrow
  refine ⟨⟨s, m, hs, ?_, hshared⟩, memberName_of_row ?_ hrow⟩
  · obtain ⟨_ | _, _, _, _⟩ := k <;> exact hm
  · rw [MemberKey.isFixed_eq_false_iff] at hfixed ⊢
    exact ⟨hfixed.1, (ClassPath.mem_names_of_find? hs).1⟩

/-- A member that a class names gets the name of the declaration in any ancestor that declares it
for others to see, unless the class itself declares it as a private one or has an untyped row for
other fields of that name only. -/
theorem reference_named_as_declaration (hr : r.Consistent) {ancestor : String}
    (hancestor : Ancestor r.classPath.find? k.owner ancestor)
    (hshares : r.classPath.Shares { k with owner := ancestor })
    (hhides : ¬ r.classPath.Hides k)
    (huntyped : UntypedRow r.table k → ∃ s, r.classPath.find? k.owner = some s ∧
      (s.declared? k).isSome = true) :
    ∃ new, r.memberName k = .ok new ∧ r.memberName { k with owner := ancestor } = .ok new := by
  obtain ⟨s, m, hs, hm, hshared⟩ := hshares
  have hbracket := (ClassPath.mem_names_of_find? hs).1
  rcases hfixed : k.isFixed with _ | _
  · have hname := (MemberKey.isFixed_eq_false_iff.1 hfixed).1
    have hfixed' : ({ k with owner := ancestor } : MemberKey).isFixed = false :=
      MemberKey.isFixed_eq_false_iff.2 ⟨hname, hbracket⟩
    rcases hrow : r.table.memberName? k with _ | new
    · -- The search from the class ends at an ancestor that shares the member, or nowhere.
      rcases memberName_of_no_row hfixed hrow (hr.acyclic.upright _) with
        ⟨new, p, t, hnew, hp, ht, hfrom⟩ | ⟨hold, hnone⟩
      · obtain ⟨hpshares, hpname⟩ := memberName_of_nameFrom? hr.acyclic hfixed ht hfrom
        refine ⟨new, hnew, ?_⟩
        rw [← hpname]
        exact hr.alike k.owner _ _ rfl (.inr hancestor) (.inr hp) ⟨s, m, hs, hm, hshared⟩ hpshares
      · -- What the class does not find above it, the ancestor does not find either.
        refine ⟨k.name, hold, ?_⟩
        have hrow' : r.table.memberName? { k with owner := ancestor } = none := by
          refine Option.eq_none_iff_forall_ne_some.2 fun new hnew => ?_
          have hfrom : r.table.nameFrom? k s = some new := by
            refine nameFrom?_eq_some_iff.2 ⟨m, ?_, hshared, ?_⟩
            · obtain ⟨_ | _, _, _, _⟩ := k <;> exact hm
            · rw [hr.acyclic.name_eq ancestor s hs]
              exact hnew
          rw [hnone ancestor s hancestor hs] at hfrom
          cases hfrom
        rcases memberName_of_no_row hfixed' hrow' (hr.acyclic.upright _) with
          ⟨new, p, t, -, hp, ht, hfrom⟩ | ⟨hold', -⟩
        · have hfrom' : r.table.nameFrom? k t = some new := by
            obtain ⟨_ | _, _, _, _⟩ := k <;> exact hfrom
          rw [hnone p t (hancestor.trans hp) ht] at hfrom'
          cases hfrom'
        · exact hold'
    · -- A row of the class is for a declaration of its own, which others see.
      have hnew := memberName_of_row hfixed hrow
      have hown : r.classPath.Shares k := by
        have hdeclared : ∃ s m, r.classPath.find? k.owner = some s ∧ s.declared? k = some m := by
          by_cases hu : UntypedRow r.table k
          · obtain ⟨s, hs, hsome⟩ := huntyped hu
            obtain ⟨m, hm⟩ := Option.isSome_iff_exists.1 hsome
            exact ⟨s, m, hs, hm⟩
          · exact declared_of_row hr.ofDeclared hrow hu
        obtain ⟨s, m, hs, hm⟩ := hdeclared
        refine ⟨s, m, hs, hm, ?_⟩
        by_contra hprivate
        exact hhides ⟨s, m, hs, hm, by simpa using hprivate⟩
      refine ⟨new, hnew, ?_⟩
      rw [← hnew]
      exact hr.alike k.owner _ _ rfl (.inr hancestor) (.inl rfl) ⟨s, m, hs, hm, hshared⟩ hown
  · refine ⟨k.name, memberName_of_fixed hfixed, memberName_of_fixed ?_⟩
    -- A class with ancestors is no array, so the name is that of an initializer.
    obtain ⟨_, ⟨t, ht, -⟩, -⟩ := Relation.TransGen.head'_iff.1 hancestor
    have hplain := (ClassPath.mem_names_of_find? ht).1
    rw [MemberKey.isFixed, hplain, Bool.or_false] at hfixed
    rw [MemberKey.isFixed, hfixed, Bool.true_or]

/-! ## A class and its superclass -/

/-- A class `A` with a field and a method. -/
def ownerClass : ClassFile where
  minorVersion := 0
  majorVersion := 61
  pool := .ofEntries
    [.utf8 "A", .classEntry 1, .utf8 "x", .utf8 "I", .utf8 "m", .utf8 "()V"]
  access := ⟨0x21⟩
  thisClass := 2
  superClass := 0
  interfaces := []
  fields := [⟨⟨1⟩, 3, 4, []⟩]
  methods := [⟨⟨1⟩, 5, 6, []⟩]
  attributes := []

/-- A class `C` over `A` that overrides the method and has a field of the same name, but of another
type. -/
def heirClass : ClassFile where
  minorVersion := 0
  majorVersion := 61
  pool := .ofEntries
    [.utf8 "C", .classEntry 1, .utf8 "A", .classEntry 3, .utf8 "x", .utf8 "J", .utf8 "m",
     .utf8 "()V"]
  access := ⟨0x21⟩
  thisClass := 2
  superClass := 4
  interfaces := []
  fields := [⟨⟨1⟩, 5, 6, []⟩]
  methods := [⟨⟨1⟩, 7, 8, []⟩]
  attributes := []

/-- The class files of `A` and `C` in an archive. -/
def heirEntries : List ClassEntry :=
  [⟨"A", ownerClass.encode, .stable, none⟩, ⟨"C", heirClass.encode, .stable, none⟩]

/-- The class path of this archive. -/
def heirPath : ClassPath := .ofArchive heirEntries

theorem shape_heirEntries {e : ClassEntry} {s : ClassShape} (he : e ∈ heirEntries)
    (hs : ClassShape.parse e.data = .ok s) :
    e.name = "A" ∧ s = ⟨"A", ⟨0x21⟩, none, [], [⟨"x", "I", ⟨1⟩⟩], [⟨"m", "()V", ⟨1⟩⟩]⟩ ∨
      e.name = "C" ∧
        s = ⟨"C", ⟨0x21⟩, some "A", [], [⟨"x", "J", ⟨1⟩⟩], [⟨"m", "()V", ⟨1⟩⟩]⟩ := by
  have hall : ∀ e ∈ heirEntries, ∀ s ∈ (ClassShape.parse e.data).toOption,
      e.name = "A" ∧ s = ⟨"A", ⟨0x21⟩, none, [], [⟨"x", "I", ⟨1⟩⟩], [⟨"m", "()V", ⟨1⟩⟩]⟩ ∨
        e.name = "C" ∧
          s = ⟨"C", ⟨0x21⟩, some "A", [], [⟨"x", "J", ⟨1⟩⟩], [⟨"m", "()V", ⟨1⟩⟩]⟩ := by
    decide +kernel
  exact hall e he s (by rw [hs]; rfl)

theorem find?_heirPath {p : String} {s : ClassShape} (h : heirPath.find? p = some s) :
    p = "A" ∧ s = ⟨"A", ⟨0x21⟩, none, [], [⟨"x", "I", ⟨1⟩⟩], [⟨"m", "()V", ⟨1⟩⟩]⟩ ∨
      p = "C" ∧
        s = ⟨"C", ⟨0x21⟩, some "A", [], [⟨"x", "J", ⟨1⟩⟩], [⟨"m", "()V", ⟨1⟩⟩]⟩ := by
  obtain ⟨-, -, e, he, rfl, hparse⟩ := mem_of_find? h
  exact shape_heirEntries he hparse

theorem heirPath_owner : ∃ s m, heirPath.find? "A" = some s ∧
    s.declared? ⟨.field, "A", "x", "I"⟩ = some m ∧ m.access.contains .privateFlag = false :=
  ⟨⟨"A", ⟨0x21⟩, none, [], [⟨"x", "I", ⟨1⟩⟩], [⟨"m", "()V", ⟨1⟩⟩]⟩, ⟨"x", "I", ⟨1⟩⟩,
    by decide +kernel, by decide, by decide⟩

theorem heirPath_heir : heirPath.find? "C" =
    some ⟨"C", ⟨0x21⟩, some "A", [], [⟨"x", "J", ⟨1⟩⟩], [⟨"m", "()V", ⟨1⟩⟩]⟩ := by
  decide +kernel

theorem ancestor_heirPath : Ancestor heirPath.find? "C" "A" :=
  .single ⟨_, heirPath_heir, by decide⟩

theorem extends_heirPath {p q : String} (h : Extends heirPath.find? p q) : p = "C" ∧ q = "A" := by
  obtain ⟨s, hs, hq⟩ := h
  rcases find?_heirPath hs with ⟨rfl, rfl⟩ | ⟨rfl, rfl⟩
  · cases hq
  · exact ⟨rfl, List.mem_singleton.1 hq⟩

theorem acyclic_heirPath : heirPath.Acyclic where
  name_eq p s hs := by
    rcases find?_heirPath hs with ⟨rfl, rfl⟩ | ⟨rfl, rfl⟩ <;> rfl
  not_ancestor p hp := by
    obtain ⟨_, hfirst, -⟩ := Relation.TransGen.head'_iff.1 hp
    obtain ⟨_, -, hlast⟩ := Relation.TransGen.tail'_iff.1 hp
    have hne := (extends_heirPath hfirst).1.symm.trans (extends_heirPath hlast).2
    revert hne
    decide

theorem shares_heirPath {k : MemberKey} (h : heirPath.Shares k) :
    k ∈ [⟨.field, "A", "x", "I"⟩, ⟨.field, "C", "x", "J"⟩, ⟨.method, "A", "m", "()V"⟩,
      (⟨.method, "C", "m", "()V"⟩ : MemberKey)] := by
  obtain ⟨kind, owner, name, descriptor⟩ := k
  obtain ⟨s, m, hs, hm, -⟩ := h
  rw [ClassShape.declared?_eq] at hm
  have hmem := List.mem_of_find?_eq_some hm
  have hkey := List.find?_some hm
  rw [Bool.and_eq_true, beq_iff_eq, beq_iff_eq] at hkey
  obtain ⟨hname, hdescriptor⟩ := hkey
  dsimp only at hs hmem hname hdescriptor
  subst hname hdescriptor
  rcases find?_heirPath hs with ⟨rfl, rfl⟩ | ⟨rfl, rfl⟩ <;> cases kind <;>
    (rw [ClassShape.members, List.mem_singleton] at hmem; subst hmem; decide)

theorem not_hides_heirPath : ¬ heirPath.Hides ⟨.field, "C", "x", "I"⟩ := by
  rintro ⟨s, m, hs, hm, -⟩
  rcases find?_heirPath hs with ⟨hp, -⟩ | ⟨-, rfl⟩
  · exact absurd hp (by decide)
  · exact absurd (Option.isSome_iff_exists.2 ⟨m, hm⟩) (by decide)

/-- If the overriding method is named as the overridden one is, then the declarations of this
archive are named alike. -/
theorem alike_heirPath {t : RenameTable}
    (hm : (⟨t, heirPath⟩ : Remapper).memberName ⟨.method, "A", "m", "()V"⟩ =
      (⟨t, heirPath⟩ : Remapper).memberName ⟨.method, "C", "m", "()V"⟩) (k₁ k₂ : MemberKey)
    (hkey : k₂ = { k₁ with owner := k₂.owner }) (h₁ : heirPath.Shares k₁)
    (h₂ : heirPath.Shares k₂) :
    (⟨t, heirPath⟩ : Remapper).memberName k₁ = (⟨t, heirPath⟩ : Remapper).memberName k₂ := by
  have hk₁ := shares_heirPath h₁
  have hk₂ := shares_heirPath h₂
  simp only [List.mem_cons, List.not_mem_nil, or_false] at hk₁ hk₂
  rcases hk₁ with rfl | rfl | rfl | rfl <;> rcases hk₂ with rfl | rfl | rfl | rfl <;>
    first
      | rfl
      | exact hm
      | exact hm.symm
      | exact absurd hkey (by decide)

/-- A table with rows for all declarations, in which the row of the field of `C` says its type. -/
def typedTable : RenameTable :=
  ⟨[⟨"A", "A", [⟨"x", "z", none⟩], [⟨"m", "()V", "n", []⟩]⟩,
    ⟨"C", "C", [⟨"x", "y", some "J"⟩], [⟨"m", "()V", "n", []⟩]⟩]⟩

theorem consistent_typedTable : Consistent ⟨typedTable, heirPath⟩ where
  acyclic := acyclic_heirPath
  ofDeclared := by constructor <;> decide +kernel
  alike _ k₁ k₂ hkey _ _ := by
    refine alike_heirPath ?_ k₁ k₂ hkey
    have hrow (owner : String) (h : typedTable.memberName? ⟨.method, owner, "m", "()V"⟩ = some "n")
        (hfixed : MemberKey.isFixed ⟨.method, owner, "m", "()V"⟩ = false) :
        (⟨typedTable, heirPath⟩ : Remapper).memberName ⟨.method, owner, "m", "()V"⟩ = .ok "n" :=
      memberName_of_row hfixed h
    rw [hrow _ (by decide) (by decide), hrow _ (by decide) (by decide)]

theorem reference_named_as_declaration_heir :
    Consistent ⟨typedTable, heirPath⟩ ∧ Ancestor heirPath.find? "C" "A" ∧
    heirPath.Shares ⟨.field, "A", "x", "I"⟩ ∧ ¬ heirPath.Hides ⟨.field, "C", "x", "I"⟩ ∧
    ∃ new, (⟨typedTable, heirPath⟩ : Remapper).memberName ⟨.field, "C", "x", "I"⟩ = .ok new ∧
      (⟨typedTable, heirPath⟩ : Remapper).memberName ⟨.field, "A", "x", "I"⟩ = .ok new := by
  refine ⟨consistent_typedTable, ancestor_heirPath, heirPath_owner, not_hides_heirPath, ?_⟩
  refine reference_named_as_declaration (k := ⟨.field, "C", "x", "I"⟩) consistent_typedTable
    ancestor_heirPath heirPath_owner not_hides_heirPath ?_
  rintro ⟨-, c, f, hc, hf, -⟩
  cases hc
  exact absurd (Option.isSome_iff_exists.2 ⟨f, hf⟩) (by decide)

/-- A table with a row for the field of `C` alone, which does not say its type. -/
def untypedTable : RenameTable :=
  ⟨[⟨"C", "C", [⟨"x", "y", none⟩], []⟩]⟩

theorem memberName_untypedTable_method (owner name descriptor : String) :
    (⟨untypedTable, heirPath⟩ : Remapper).memberName ⟨.method, owner, name, descriptor⟩ =
      .ok name := by
  refine memberName_of_unlisted (acyclic_heirPath.upright _) fun p _ => ?_
  refine Option.eq_none_iff_forall_ne_some.2 fun new hnew => ?_
  obtain ⟨m, hm, -⟩ := Option.map_eq_some_iff.1 hnew
  obtain ⟨c, hc, hm⟩ := Option.bind_eq_some_iff.1 hm
  obtain rfl := List.mem_singleton.1 (RenameTable.mem_of_class? hc).1
  cases (RenameTable.mem_of_method? hm).1

theorem memberName_untypedTable_owner :
    (⟨untypedTable, heirPath⟩ : Remapper).memberName ⟨.field, "A", "x", "I"⟩ = .ok "x" := by
  refine memberName_of_unlisted (acyclic_heirPath.upright _) ?_
  rintro p (rfl | hp)
  · decide
  · obtain ⟨q, hfirst, -⟩ := Relation.TransGen.head'_iff.1 hp
    exact absurd (extends_heirPath hfirst).1 (by decide)

theorem consistent_untypedTable : Consistent ⟨untypedTable, heirPath⟩ where
  acyclic := acyclic_heirPath
  ofDeclared := by constructor <;> decide +kernel
  alike _ k₁ k₂ hkey _ _ := by
    refine alike_heirPath ?_ k₁ k₂ hkey
    rw [memberName_untypedTable_method, memberName_untypedTable_method]

/-- The row of the field of `C` is taken for that of the field which `C` inherits: a reference to
the latter through `C` gets a new name, and the field itself does not. -/
theorem untyped_row_breaks_link :
    Consistent ⟨untypedTable, heirPath⟩ ∧ Ancestor heirPath.find? "C" "A" ∧
    heirPath.Shares ⟨.field, "A", "x", "I"⟩ ∧ ¬ heirPath.Hides ⟨.field, "C", "x", "I"⟩ ∧
    (⟨untypedTable, heirPath⟩ : Remapper).memberName ⟨.field, "C", "x", "I"⟩ = .ok "y" ∧
    (⟨untypedTable, heirPath⟩ : Remapper).memberName ⟨.field, "A", "x", "I"⟩ = .ok "x" :=
  ⟨consistent_untypedTable, ancestor_heirPath, heirPath_owner, not_hides_heirPath,
    memberName_of_row (by decide) (by decide), memberName_untypedTable_owner⟩

end Remapper

end JarRemap
