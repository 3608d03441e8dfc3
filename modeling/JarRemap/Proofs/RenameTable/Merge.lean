import JarRemap.RenameTable.Basic
import Mathlib.Data.List.Nodup

/-!
# Rows that are put together

A table has one row for each class, and adding to it changes one row. All that merging a row does is
therefore one change of one row (`RenameTable.merge_eq`), and merging rows of different classes puts
them side by side: the table then says of each class what its row says
(`RenameTable.class?_foldl_merge`).
-/

namespace JarRemap

/-! ## Rows -/

section

variable {α : Type} {isRow : α → Bool} {change : α → α} {fresh : α} {l : List α}

theorem upsert_eq_append (h : ∀ row ∈ l, isRow row = false) :
    upsert isRow change fresh l = l ++ [fresh] := by
  induction l with
  | nil => rfl
  | cons row rest ih =>
    rw [List.forall_mem_cons] at h
    rw [upsert, h.1, if_neg Bool.false_ne_true, ih h.2, List.cons_append]

/-- The row that was picked is there, changed. -/
theorem find?_upsert_self (hchange : ∀ row, isRow row = true → isRow (change row) = true)
    (hfresh : isRow fresh = true) :
    (upsert isRow change fresh l).find? isRow = some (((l.find? isRow).map change).getD fresh) := by
  induction l with
  | nil => simp [upsert, hfresh]
  | cons row rest ih =>
    rw [upsert]
    by_cases hrow : isRow row = true
    · simp [hrow, hchange row hrow]
    · simp only [hrow, Bool.false_eq_true, if_false, List.find?_cons, ih]

/-- Rows that are picked by another key are as before. -/
theorem find?_upsert_of_disjoint {isOther : α → Bool}
    (hchange : ∀ row, isRow row = true → isOther row = false ∧ isOther (change row) = false)
    (hfresh : isOther fresh = false) :
    (upsert isRow change fresh l).find? isOther = l.find? isOther := by
  induction l with
  | nil => simp [upsert, hfresh]
  | cons row rest ih =>
    rw [upsert]
    by_cases hrow : isRow row = true
    · rw [if_pos hrow, List.find?_cons, List.find?_cons, (hchange row hrow).1, (hchange row hrow).2]
    · rw [if_neg hrow, List.find?_cons, List.find?_cons, ih]

/-- Two changes of a row are one. -/
theorem upsert_upsert {again : α → α} (other : α)
    (hchange : ∀ row, isRow row = true → isRow (change row) = true) (hfresh : isRow fresh = true) :
    upsert isRow again other (upsert isRow change fresh l) =
      upsert isRow (fun row => again (change row)) (again fresh) l := by
  induction l with
  | nil => simp [upsert, hfresh]
  | cons row rest ih =>
    by_cases hrow : isRow row = true
    · simp [upsert, hrow, hchange row hrow]
    · simp only [upsert, hrow, Bool.false_eq_true, if_false, ih]

/-- Where keys differ, looking one up finds the row that has it. -/
theorem find?_key_iff {β : Type} [BEq β] [LawfulBEq β] {key : α → β} (h : (l.map key).Nodup) {k : β}
    {row : α} : l.find? (fun row => key row == k) = some row ↔ row ∈ l ∧ key row = k := by
  constructor
  · intro hfind
    exact ⟨List.mem_of_find?_eq_some hfind, by simpa using List.find?_some hfind⟩
  · rintro ⟨hmem, rfl⟩
    induction l with
    | nil => cases hmem
    | cons other rest ih =>
      rw [List.map_cons, List.nodup_cons] at h
      rw [List.find?_cons]
      by_cases hkey : key other = key row
      · rcases List.mem_cons.1 hmem with rfl | hmem
        · simp
        · exact absurd (hkey ▸ List.mem_map_of_mem hmem) h.1
      · rcases List.mem_cons.1 hmem with rfl | hmem
        · exact absurd rfl hkey
        · rw [beq_eq_false_iff_ne.2 hkey]
          exact ih h.2 hmem

end

/-! ## Well-formed tables -/

/-- A class has one row for each field and for each method. -/
structure ClassRename.WellFormed (c : ClassRename) : Prop where
  fields_nodup : (c.fields.map (·.oldName)).Nodup
  methods_nodup : (c.methods.map fun m => (m.oldName, m.descriptor)).Nodup

/-- A table has one row for each class, field and method. -/
structure RenameTable.WellFormed (t : RenameTable) : Prop where
  classes_nodup : (t.classes.map (·.oldName)).Nodup
  rows : ∀ c ∈ t.classes, c.WellFormed

namespace RenameTable

variable {t : RenameTable}

theorem class?_eq_some_iff (h : t.WellFormed) {name : String} {c : ClassRename} :
    t.class? name = some c ↔ c ∈ t.classes ∧ c.oldName = name :=
  find?_key_iff h.classes_nodup

/-! ## Merging rows -/

/-- The change of a row keeps its key. -/
def KeepsKey (f : ClassRename → ClassRename) : Prop :=
  ∀ c, (f c).oldName = c.oldName

theorem class?_modifyClass_self {f : ClassRename → ClassRename} (hf : KeepsKey f) (name : String) :
    (t.modifyClass name f).class? name = some (f ((t.class? name).getD (.identity name))) := by
  rw [modifyClass, class?,
    find?_upsert_self (fun c hc => by rwa [hf]) (by rw [hf]; simp [ClassRename.identity]),
    class?]
  cases t.classes.find? (·.oldName == name) <;> rfl

theorem class?_modifyClass_of_ne {f : ClassRename → ClassRename} (hf : KeepsKey f)
    {name other : String} (h : other ≠ name) :
    (t.modifyClass name f).class? other = t.class? other := by
  rw [modifyClass, class?, find?_upsert_of_disjoint, class?]
  · intro c hc
    have hname : c.oldName = name := by simpa using hc
    rw [hf, hname]
    exact ⟨beq_eq_false_iff_ne.2 (Ne.symm h), beq_eq_false_iff_ne.2 (Ne.symm h)⟩
  · rw [hf]
    exact beq_eq_false_iff_ne.2 (Ne.symm h)

theorem modifyClass_modifyClass {f g : ClassRename → ClassRename} (hf : KeepsKey f)
    (name : String) :
    (t.modifyClass name f).modifyClass name g = t.modifyClass name fun c => g (f c) := by
  rw [modifyClass, modifyClass, upsert_upsert _ (fun c hc => by rw [hf]; exact hc)
    (by rw [hf]; exact beq_self_eq_true name)]
  rfl

theorem foldl_modifyClass {α : Type} {f : ClassRename → ClassRename}
    {g : α → ClassRename → ClassRename} (hf : KeepsKey f) (hg : ∀ a, KeepsKey (g a))
    (name : String) (l : List α) :
    l.foldl (fun t a => t.modifyClass name (g a)) (t.modifyClass name f) =
      t.modifyClass name fun c => l.foldl (fun c a => g a c) (f c) := by
  induction l generalizing f with
  | nil => rfl
  | cons a l ih =>
    rw [List.foldl_cons, modifyClass_modifyClass hf,
      ih (f := fun c => g a (f c)) fun c => (hg a (f c)).trans (hf c)]
    rfl

end RenameTable

/-- What a row becomes by a method with its parameters. -/
def ClassRename.absorbMethod (row : ClassRename) (m : MethodRename) : ClassRename :=
  m.params.foldl (fun row p => row.addParam m.oldName m.descriptor p)
    (row.addMethod m.oldName m.descriptor m.newName)

/-- What a row becomes by a row that is merged into it, but for its name. -/
def ClassRename.absorb (row c : ClassRename) : ClassRename :=
  c.methods.foldl absorbMethod (c.fields.foldl (fun row f => row.addField f) row)

/-- A method without its parameters. -/
def MethodRename.bare (m : MethodRename) : MethodRename :=
  { m with params := [] }

/-- Two rows say the same of a class, its fields and its methods. Parameters are left aside. -/
structure ClassRename.Agrees (row c : ClassRename) : Prop where
  oldName_eq : row.oldName = c.oldName
  newName_eq : row.newName = c.newName
  fields_eq : row.fields = c.fields
  methods_eq : row.methods.map MethodRename.bare = c.methods.map MethodRename.bare

namespace ClassRename

theorem fields_foldl_addField {row : ClassRename} (fields : List FieldRename)
    (h : ((row.fields ++ fields).map (·.oldName)).Nodup) :
    fields.foldl (fun row f => row.addField f) row =
      { row with fields := row.fields ++ fields } := by
  induction fields generalizing row with
  | nil => rw [List.append_nil]; rfl
  | cons f fields ih =>
    have hfresh : ∀ g ∈ row.fields, (g.oldName == f.oldName) = false := by
      intro g hg
      rw [List.map_append, List.nodup_append] at h
      exact beq_eq_false_iff_ne.2 (h.2.2 _ (List.mem_map_of_mem hg) _ (by simp))
    have hrow : row.addField f = { row with fields := row.fields ++ [f] } := by
      rw [addField, upsert_eq_append hfresh]
    rw [List.foldl_cons, hrow, ih (by simpa using h)]
    simp

theorem bare_foldl_addParam (name descriptor : String) (params : List ParameterRename)
    (row : ClassRename) :
    ∃ methods, params.foldl (fun row p => row.addParam name descriptor p) row =
      { row with methods } ∧ methods.map MethodRename.bare = row.methods.map MethodRename.bare := by
  induction params generalizing row with
  | nil => exact ⟨row.methods, rfl, rfl⟩
  | cons p params ih =>
    obtain ⟨methods, heq, hbare⟩ := ih (row.addParam name descriptor p)
    refine ⟨methods, heq, hbare.trans ?_⟩
    rw [addParam, List.map_map]
    refine List.map_congr_left fun m _ => ?_
    simp only [Function.comp_apply]
    split <;> rfl

/-- What tells methods apart does not depend on their parameters. -/
theorem map_key_congr {methods methods' : List MethodRename}
    (h : methods.map MethodRename.bare = methods'.map MethodRename.bare) :
    (methods.map fun m => (m.oldName, m.descriptor)) =
      methods'.map fun m => (m.oldName, m.descriptor) := by
  have hkey : ∀ l : List MethodRename, (l.map fun m => (m.oldName, m.descriptor)) =
      (l.map MethodRename.bare).map fun m => (m.oldName, m.descriptor) := by
    intro l
    rw [List.map_map]
    rfl
  rw [hkey, h, ← hkey]

theorem bare_foldl_methods (methods : List MethodRename) (row : ClassRename)
    (h : ((row.methods ++ methods).map fun m => (m.oldName, m.descriptor)).Nodup) :
    ∃ rows, methods.foldl absorbMethod row = { row with methods := rows } ∧
      rows.map MethodRename.bare = (row.methods ++ methods).map MethodRename.bare := by
  induction methods generalizing row with
  | nil => exact ⟨row.methods, rfl, by rw [List.append_nil]⟩
  | cons m methods ih =>
    have hfresh : ∀ n ∈ row.methods, n.isFor m.oldName m.descriptor = false := by
      intro n hn
      rw [List.map_append, List.nodup_append] at h
      have hne := h.2.2 _ (List.mem_map_of_mem hn) (m.oldName, m.descriptor) (by simp)
      rw [MethodRename.isFor]
      by_contra hsame
      simp only [Bool.not_eq_false, Bool.and_eq_true, beq_iff_eq] at hsame
      exact hne (Prod.ext hsame.1 hsame.2)
    obtain ⟨step, hstep, hstepBare⟩ :=
      bare_foldl_addParam m.oldName m.descriptor m.params
        (row.addMethod m.oldName m.descriptor m.newName)
    have hadd : (row.addMethod m.oldName m.descriptor m.newName).methods =
        row.methods ++ [m.bare] := by
      rw [addMethod, upsert_eq_append hfresh]
      rfl
    have hbare : step.map MethodRename.bare = (row.methods ++ [m]).map MethodRename.bare := by
      rw [hstepBare, hadd, List.map_append, List.map_append]
      rfl
    have hall : (step ++ methods).map MethodRename.bare =
        (row.methods ++ m :: methods).map MethodRename.bare := by
      rw [List.map_append, hbare, ← List.map_append, List.append_assoc]
      rfl
    have hrow : { row.addMethod m.oldName m.descriptor m.newName with methods := step } =
        { row with methods := step } := rfl
    -- The keys of the rows are those of the bare rows, so they still differ.
    obtain ⟨rows, heq, hrows⟩ := ih { row with methods := step } (by
      rw [map_key_congr hall]
      exact h)
    refine ⟨rows, ?_, hrows.trans hall⟩
    rw [List.foldl_cons, absorbMethod, hstep, hrow, heq]

theorem foldl_keeps {α β : Type} {part : ClassRename → β} {f : α → ClassRename → ClassRename}
    (hf : ∀ a c, part (f a c) = part c) (l : List α) (c : ClassRename) :
    part (l.foldl (fun c a => f a c) c) = part c := by
  induction l generalizing c with
  | nil => rfl
  | cons a l ih => rw [List.foldl_cons, ih, hf]

theorem absorbMethod_keeps {β : Type} {part : ClassRename → β}
    (hpart : ∀ (row : ClassRename) methods, part { row with methods } = part row)
    (row : ClassRename) (m : MethodRename) : part (row.absorbMethod m) = part row :=
  (foldl_keeps (f := fun p row => row.addParam m.oldName m.descriptor p)
    (fun _ row => hpart row _) _ _).trans (hpart row _)

/-- What neither fields nor methods change stays when a row absorbs another. -/
theorem absorb_keeps {β : Type} {part : ClassRename → β}
    (hpart : ∀ row fields methods, part { row with fields, methods } = part row)
    (row c : ClassRename) : part (row.absorb c) = part row :=
  (foldl_keeps (f := fun m row => row.absorbMethod m)
    (fun m row => absorbMethod_keeps (fun row => hpart row row.fields) row m) _ _).trans
    (foldl_keeps (f := fun f row => row.addField f) (fun _ row => hpart row _ row.methods) _ _)

theorem newName_absorb (row c : ClassRename) : (row.absorb c).newName = row.newName :=
  absorb_keeps (fun _ _ _ => rfl) row c

theorem oldName_absorb (row c : ClassRename) : (row.absorb c).oldName = row.oldName :=
  absorb_keeps (fun _ _ _ => rfl) row c

theorem agrees_absorb {row c : ClassRename} (hc : c.WellFormed) (hold : row.oldName = c.oldName)
    (hnew : row.newName = c.newName) (hfields : row.fields = []) (hmethods : row.methods = []) :
    (row.absorb c).Agrees c := by
  have hnodup : ((row.fields ++ c.fields).map (·.oldName)).Nodup := by
    simpa [hfields] using hc.fields_nodup
  have hfold := fields_foldl_addField c.fields hnodup
  obtain ⟨rows, heq, hbare⟩ := bare_foldl_methods c.methods
    { row with fields := row.fields ++ c.fields } (by simpa [hmethods] using hc.methods_nodup)
  rw [absorb, hfold, heq]
  refine ⟨hold, hnew, ?_, ?_⟩
  · simp [hfields]
  · simpa [hmethods] using hbare

/-- Methods do not touch the fields that are absorbed. -/
theorem fields_absorb (row c : ClassRename) :
    (row.absorb c).fields = (c.fields.foldl (fun row f => row.addField f) row).fields :=
  foldl_keeps (f := fun m row => row.absorbMethod m)
    (fun m row => absorbMethod_keeps (fun _ _ => rfl) row m) _ _

/-- The row that a class without one gets by merging. -/
def merged (c : ClassRename) : ClassRename :=
  absorb { identity c.oldName with newName := c.newName } c

theorem newName_merged (c : ClassRename) : c.merged.newName = c.newName :=
  newName_absorb _ c

theorem agrees_merged {c : ClassRename} (hc : c.WellFormed) : c.merged.Agrees c :=
  agrees_absorb hc rfl rfl rfl rfl

end ClassRename

namespace RenameTable

variable {t : RenameTable}

/-- All that merging does is to change one row. -/
theorem merge_eq (t : RenameTable) (c : ClassRename) :
    t.merge c = t.modifyClass c.oldName
      fun row => ClassRename.absorb { row with newName := c.newName } c := by
  have hmethod : ∀ (m : MethodRename) (t : RenameTable),
      m.params.foldl (fun t p => t.addParam c.oldName m.oldName m.descriptor p)
        (t.addMethod c.oldName m.oldName m.descriptor m.newName) =
      t.modifyClass c.oldName fun row => row.absorbMethod m :=
    fun m t => foldl_modifyClass (f := fun row => row.addMethod m.oldName m.descriptor m.newName)
      (g := fun p row => row.addParam m.oldName m.descriptor p) (fun _ => rfl) (fun _ _ => rfl)
      c.oldName m.params
  have hfields : KeepsKey fun row =>
      c.fields.foldl (fun row f => row.addField f) { row with newName := c.newName } :=
    fun row => ClassRename.foldl_keeps (f := fun f row => row.addField f) (fun _ _ => rfl) _ _
  simp only [merge, hmethod, addClass, addField]
  rw [foldl_modifyClass (f := fun row => { row with newName := c.newName })
      (g := fun f row => row.addField f) (fun _ => rfl) (fun _ _ => rfl),
    foldl_modifyClass (g := fun m row => row.absorbMethod m) hfields fun m row =>
      ClassRename.absorbMethod_keeps (fun _ _ => rfl) row m]
  rfl

theorem keepsKey_absorb (c : ClassRename) :
    KeepsKey fun row => ClassRename.absorb { row with newName := c.newName } c :=
  fun _ => ClassRename.oldName_absorb _ c

theorem class?_merge_of_ne (c : ClassRename) {name : String} (h : name ≠ c.oldName) :
    (t.merge c).class? name = t.class? name := by
  rw [merge_eq, class?_modifyClass_of_ne (keepsKey_absorb c) h]

/-- The row of a class that the table does not have yet is there after the merge. -/
theorem class?_merge_self {c : ClassRename} (hnone : t.class? c.oldName = none) :
    (t.merge c).class? c.oldName = some c.merged := by
  rw [merge_eq, class?_modifyClass_self (keepsKey_absorb c), hnone, Option.getD_none]
  rfl

theorem class?_foldl_merge_of_notMem {rows : List ClassRename} {name : String}
    (h : name ∉ rows.map (·.oldName)) : (rows.foldl merge t).class? name = t.class? name := by
  induction rows generalizing t with
  | nil => rfl
  | cons c rows ih =>
    rw [List.map_cons, List.mem_cons, not_or] at h
    rw [List.foldl_cons, ih h.2, class?_merge_of_ne c h.1]

/-- Rows of different classes do not run into each other. -/
theorem class?_foldl_merge {rows : List ClassRename} (h : (rows.map (·.oldName)).Nodup)
    (hnone : ∀ c ∈ rows, t.class? c.oldName = none) {c : ClassRename} (hc : c ∈ rows) :
    (rows.foldl merge t).class? c.oldName = some c.merged := by
  induction rows generalizing t with
  | nil => cases hc
  | cons d rows ih =>
    rw [List.map_cons, List.nodup_cons] at h
    rw [List.forall_mem_cons] at hnone
    rw [List.foldl_cons]
    have hne : ∀ c ∈ rows, c.oldName ≠ d.oldName :=
      fun c hc heq => h.1 (heq ▸ List.mem_map_of_mem hc)
    rcases List.mem_cons.1 hc with rfl | hc
    · rw [class?_foldl_merge_of_notMem h.1]
      exact class?_merge_self hnone.1
    · refine ih h.2 (fun c hc => ?_) hc
      rw [class?_merge_of_ne d (hne c hc)]
      exact hnone.2 c hc

end RenameTable

end JarRemap
