import JarRemap.Proofs.RenameTable.Built
import JarRemap.Proofs.RenameTable.Reverse
import JarRemap.RenameTable.Format

/-!
# Fields that share a name

The row of a class has one place for all its fields of one name. The descriptor of a field says
which lookups its row counts for, but it is no part of the key, as that of a method is. Of all steps
that rename a field of that name the last one is kept (`RenameTable.fieldRow?_foldl`), and it alone
decides what the table says of such fields (`RenameTable.fieldName?_foldl_iff`). So a field keeps
its new name exactly until a step renames its namesake with another descriptor
(`RenameTable.fieldName?_kept_iff`).

In the same way the inverse keeps only the last one of the fields that get the same new name
(`RenameTable.fieldName?_reverse_iff`).
-/

namespace JarRemap

/-! ## Rows of fields -/

/-- The row counts when this descriptor is asked for. Without a descriptor on either side it
does. -/
def FieldRename.CountsFor (f : FieldRename) (descriptor : Option String) : Prop :=
  ∀ known ∈ f.descriptor, ∀ wanted ∈ descriptor, known = wanted

/-- The row of a field undoes another, so it counts for what the other's descriptor becomes. -/
theorem FieldRename.Reversed.countsFor_iff {t : RenameTable} {f f' : FieldRename}
    (h : FieldRename.Reversed t f f') {descriptor : Option String} :
    f'.CountsFor descriptor ↔
      ∀ d ∈ f.descriptor, ∀ wanted ∈ descriptor,
        renameDescriptor t.newClassName d = .ok wanted := by
  constructor
  · intro hcounts d hd wanted hwanted
    obtain ⟨d', hrenamed, hd'⟩ := h.descriptor_some hd
    rw [hrenamed, hcounts d' hd' wanted hwanted]
  · intro hrenamed d' hd' wanted hwanted
    obtain ⟨d, hd, hd'⟩ := h.descriptor_of_some hd'
    exact Except.ok.inj (hd'.symm.trans (hrenamed d hd wanted hwanted))

namespace ClassRename

variable {c : ClassRename}

/-- The row that stands at the place of a name. -/
def fieldRow? (c : ClassRename) (name : String) : Option FieldRename :=
  c.fields.find? (·.oldName == name)

theorem field?_eq_iff {name : String} {descriptor : Option String} {f : FieldRename} :
    c.field? name descriptor = some f ↔ c.fieldRow? name = some f ∧ f.CountsFor descriptor := by
  rw [field?, fieldRow?, Option.filter_eq_some_iff]
  refine and_congr_right fun _ => ?_
  unfold FieldRename.CountsFor
  rcases f.descriptor with _ | known <;> rcases descriptor with _ | wanted <;> simp

/-- Adding a field replaces what stood at the place of its name. -/
theorem fieldRow?_addField (c : ClassRename) (f : FieldRename) (name : String) :
    (c.addField f).fieldRow? name = if f.oldName = name then some f else c.fieldRow? name := by
  by_cases hname : f.oldName = name
  · subst hname
    rw [if_pos rfl, addField, fieldRow?, find?_upsert_self]
    · cases c.fields.find? (·.oldName == f.oldName) <;> rfl
    · exact fun _ _ => BEq.rfl
    · exact BEq.rfl
  · rw [if_neg hname]
    refine find?_upsert_of_disjoint (fun row hrow => ?_) (beq_false_of_ne hname)
    rw [beq_iff_eq.1 hrow]
    exact ⟨beq_false_of_ne hname, beq_false_of_ne hname⟩

/-- Of fields that are added the last one with a name stays at its place. -/
theorem fieldRow?_foldl_addField (fields : List FieldRename) (c : ClassRename) (name : String) :
    (fields.foldl (fun c f => c.addField f) c).fieldRow? name =
      (fields.reverse.find? (·.oldName == name)).or (c.fieldRow? name) := by
  induction fields generalizing c with
  | nil => rfl
  | cons f fields ih =>
    rw [List.foldl_cons, ih, fieldRow?_addField, List.reverse_cons, List.find?_append,
      Option.or_assoc, List.find?_singleton]
    by_cases hname : f.oldName = name
    · rw [if_pos hname, if_pos (beq_iff_eq.2 hname), Option.some_or]
    · rw [if_neg hname, if_neg (fun h => hname (beq_iff_eq.1 h)), Option.none_or]

theorem fieldRow?_merged (c : ClassRename) (name : String) :
    c.merged.fieldRow? name = c.fields.reverse.find? (·.oldName == name) := by
  have hfold := fieldRow?_foldl_addField c.fields { identity c.oldName with newName := c.newName }
    name
  rw [fieldRow?, ← fields_absorb] at hfold
  exact hfold.trans (Option.or_none)

end ClassRename

namespace RenameTable

variable {t : RenameTable} {owner name new : String} {descriptor : Option String}

/-- The row that stands at the place of a name, in the row of a class. -/
def fieldRow? (t : RenameTable) (owner name : String) : Option FieldRename :=
  (t.class? owner).bind (·.fieldRow? name)

theorem fieldName?_eq_some_iff :
    t.fieldName? owner name descriptor = some new ↔
      ∃ f, t.fieldRow? owner name = some f ∧ f.CountsFor descriptor ∧ f.newName = new := by
  rw [fieldName?, fieldRow?, Option.map_eq_some_iff]
  rcases t.class? owner with _ | c
  · simp
  · simp only [Option.bind_some, ClassRename.field?_eq_iff, and_assoc]

theorem fieldRow?_getD (t : RenameTable) (owner name : String) :
    ((t.class? owner).getD (.identity owner)).fieldRow? name = t.fieldRow? owner name := by
  rw [fieldRow?]
  cases t.class? owner <;> rfl

/-! ## Steps -/

/-- A change of a row that leaves fields alone changes no row of a field. -/
theorem fieldRow?_modifyClass {f : ClassRename → ClassRename} (hkey : KeepsKey f)
    (hfields : ∀ c, (f c).fields = c.fields) (changed : String) :
    (t.modifyClass changed f).fieldRow? owner name = t.fieldRow? owner name := by
  by_cases howner : owner = changed
  · subst howner
    rw [fieldRow?, class?_modifyClass_self hkey, Option.bind_some, ClassRename.fieldRow?, hfields]
    exact t.fieldRow?_getD owner name
  · rw [fieldRow?, class?_modifyClass_of_ne hkey howner, fieldRow?]

theorem fieldRow?_addField (t : RenameTable) (owner' : String) (f : FieldRename) :
    (t.addField owner' f).fieldRow? owner name =
      if owner' = owner ∧ f.oldName = name then some f else t.fieldRow? owner name := by
  have hkey : KeepsKey fun c => c.addField f := fun _ => rfl
  rw [addField, fieldRow?]
  by_cases howner : owner = owner'
  · subst howner
    rw [class?_modifyClass_self hkey, Option.bind_some, ClassRename.fieldRow?_addField,
      fieldRow?_getD]
    simp
  · rw [class?_modifyClass_of_ne hkey howner, if_neg (fun h => howner h.1.symm), fieldRow?]

end RenameTable

/-- The row that a step puts at the place of a name. -/
def TableStep.fieldRow? (owner name : String) : TableStep → Option FieldRename
  | .addField owner' f => if owner' = owner ∧ f.oldName = name then some f else none
  | .addClass _ _ | .keepClass _ | .addMethod _ _ _ _ | .addParam _ _ _ _ _ _ => none

namespace RenameTable

variable {t t' : RenameTable} {names : Set String} {owner name new old : String}
  {descriptor : Option String}

/-- A step changes what stands at the place of a name only if it renames a field of that name. -/
theorem fieldRow?_apply (t : RenameTable) (s : TableStep) :
    (s.apply t).fieldRow? owner name =
      (s.fieldRow? owner name).or (t.fieldRow? owner name) := by
  cases s with
  | addClass oldName newName =>
    exact fieldRow?_modifyClass (f := fun c => { c with newName }) (fun _ => rfl) (fun _ => rfl) _
  | keepClass name => exact fieldRow?_modifyClass (fun _ => rfl) (fun _ => rfl) _
  | addField owner' f =>
    rw [TableStep.apply, fieldRow?_addField, TableStep.fieldRow?]
    split <;> rfl
  | addMethod owner' name' descriptor newName =>
    exact fieldRow?_modifyClass (f := fun c => c.addMethod name' descriptor newName)
      (fun _ => rfl) (fun _ => rfl) _
  | addParam owner' name' descriptor slot oldName newName =>
    exact fieldRow?_modifyClass
      (f := fun c => c.addParam name' descriptor ⟨slot.toNat, oldName, newName⟩)
      (fun _ => rfl) (fun _ => rfl) _

/-- The last step that renames a field of a name decides what stands at its place. -/
theorem fieldRow?_foldl (steps : List TableStep) (t : RenameTable) :
    (steps.foldl TableStep.apply t).fieldRow? owner name =
      (steps.reverse.findSome? (TableStep.fieldRow? owner name)).or (t.fieldRow? owner name) := by
  induction steps generalizing t with
  | nil => rfl
  | cons s steps ih =>
    rw [List.foldl_cons, ih, fieldRow?_apply, List.reverse_cons, List.findSome?_append,
      Option.or_assoc, List.findSome?_singleton]

/-- What a table that is built says of a field: what the last step says that renames a field of its
name, if this counts for the descriptor. -/
theorem fieldName?_foldl_iff {steps : List TableStep} :
    (steps.foldl TableStep.apply empty).fieldName? owner name descriptor = some new ↔
      ∃ f, steps.reverse.findSome? (TableStep.fieldRow? owner name) = some f ∧
        f.CountsFor descriptor ∧ f.newName = new := by
  have hempty : empty.fieldRow? owner name = none := rfl
  rw [fieldName?_eq_some_iff, fieldRow?_foldl, hempty, Option.or_none]

/-- A field keeps the new name that it got last exactly if no later step renames a field of its name
with another descriptor, or the last one that does has the same new name and no descriptor. -/
theorem fieldName?_kept_iff {d : String} {before after : List TableStep}
    (hlast : ∀ s ∈ after, ∀ g ∈ s.fieldRow? owner name, g.descriptor ≠ some d) :
    ((before ++ .addField owner ⟨name, new, some d⟩ :: after).foldl TableStep.apply t).fieldName?
        owner name (some d) = some new ↔
      ∀ g ∈ after.reverse.findSome? (TableStep.fieldRow? owner name),
        g.descriptor = none ∧ g.newName = new := by
  rw [fieldName?_eq_some_iff, List.foldl_append, List.foldl_cons, fieldRow?_foldl, fieldRow?_apply]
  rcases hlater : after.reverse.findSome? (TableStep.fieldRow? owner name) with _ | g
  · rw [Option.none_or, TableStep.fieldRow?, if_pos ⟨rfl, rfl⟩, Option.some_or]
    refine iff_of_true ⟨_, rfl, ?_, rfl⟩ (by simp)
    rintro _ ⟨⟩ _ ⟨⟩
    rfl
  · -- The last of the later rows stands at the place. It is for another descriptor or for none.
    obtain ⟨s, hs, hg⟩ := List.exists_of_findSome?_eq_some hlater
    have hother : g.descriptor ≠ some d := hlast s (List.mem_reverse.1 hs) g hg
    have hcounts : g.CountsFor (some d) ↔ g.descriptor = none := by
      unfold FieldRename.CountsFor
      rcases hknown : g.descriptor with _ | known
      · simp
      · rw [hknown, ne_eq, Option.some.injEq] at hother
        simp [hother]
    simp [hcounts]

/-! ## The inverse -/

/-- What the inverse says of a field: what undoes the last row of the class that gives its name, if
this has no descriptor or the one that is asked for. -/
theorem fieldName?_reverse_iff (hwf : t.WellFormed) (hfaithful : t.FaithfulOn names)
    (h : t.reverse = .ok t') (howner : owner ∈ names) {c : ClassRename}
    (hclass : t.class? owner = some c) :
    t'.fieldName? (t.newClassName owner) new descriptor = some old ↔
      ∃ f, c.fields.reverse.find? (·.newName == new) = some f ∧
        (∀ d ∈ f.descriptor, ∀ wanted ∈ descriptor,
          renameDescriptor t.newClassName d = .ok wanted) ∧ f.oldName = old := by
  obtain ⟨_, c', hclass', hreversed, hrow⟩ | ⟨hnone, -⟩ := class?_reverse_eq hwf hfaithful h howner
  · cases hclass.symm.trans hclass'
    -- The rows that undo fields stand in the order of these, so the last ones of a name correspond.
    have hrows := List.rel_reverse hreversed.fields
    rw [fieldName?_eq_some_iff, fieldRow?, hrow, Option.bind_some, ClassRename.fieldRow?_merged]
    constructor
    · rintro ⟨f', hf', hcounts, rfl⟩
      obtain ⟨f, hff', hf⟩ := find?_of_forall₂ (fun f' _ f hf => by rw [hf.oldName_eq])
        hrows.flip hf'
      exact ⟨f, hf, hff'.countsFor_iff.1 hcounts, hff'.newName_eq.symm⟩
    · rintro ⟨f, hf, hcounts, rfl⟩
      obtain ⟨f', hff', hf'⟩ := find?_of_forall₂
        (fun f _ f' hf => congrArg (· == new) hf.oldName_eq) hrows hf
      exact ⟨f', hf', hff'.countsFor_iff.2 hcounts, hff'.newName_eq⟩
  · cases hnone.symm.trans hclass

/-- Of two fields with one name the second line of a table loses the first. -/
example : (RenameTable.parse "tsrg2 left right\na b\n\tf I x\n\tf J y\n").map (fun t =>
    (t.fieldName? "a" "f" (some "I"), t.fieldName? "a" "f" (some "J"))) =
      .ok (none, some "y") := by
  decide +kernel

end RenameTable

end JarRemap
