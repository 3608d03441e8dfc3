import JarRemap.Proofs.RenameTable.Merge

/-!
# Tables that are built

A table is built by adding to it, beginning with the empty one (`RenameTable.Built`). Adding keeps a
table *proper*: what tells rows apart differs, and so do the slots of the parameters of a method. In
proper tables every row can be put together again from what it says, so merging proper rows of
different classes gives these rows, parameters and order included
(`RenameTable.foldl_merge_eq`).
-/

namespace JarRemap

/-! ## Rows -/

section

variable {α β : Type} {isRow : α → Bool} {change : α → α} {fresh : α} {l : List α}

/-- What holds of the rows, of the changed one and of the fresh one holds of all. -/
theorem forall_upsert {p : α → Prop} (h : ∀ row ∈ l, p row)
    (hchange : ∀ row, isRow row = true → p row → p (change row)) (hfresh : p fresh) :
    ∀ row ∈ upsert isRow change fresh l, p row := by
  induction l with
  | nil => simpa [upsert] using hfresh
  | cons row rest ih =>
    rw [List.forall_mem_cons] at h
    by_cases hrow : isRow row = true
    · rw [upsert, if_pos hrow, List.forall_mem_cons]
      exact ⟨hchange row hrow h.1, h.2⟩
    · rw [upsert, if_neg hrow, List.forall_mem_cons]
      exact ⟨h.1, ih h.2⟩

/-- Rows that differ in their keys still do if the changed one and the fresh one have the key by
which rows are picked. -/
theorem nodup_upsert {key : α → β} {k : β} (h : (l.map key).Nodup)
    (hrow : ∀ row, isRow row = true ↔ key row = k)
    (hchange : ∀ row, isRow row = true → key (change row) = k) (hfresh : key fresh = k) :
    ((upsert isRow change fresh l).map key).Nodup := by
  induction l with
  | nil => simp [upsert]
  | cons row rest ih =>
    rw [List.map_cons, List.nodup_cons] at h
    by_cases hpick : isRow row = true
    · rw [upsert, if_pos hpick, List.map_cons, List.nodup_cons, hchange row hpick,
        ← (hrow row).1 hpick]
      exact h
    · rw [upsert, if_neg hpick, List.map_cons, List.nodup_cons]
      refine ⟨fun hmem => ?_, ih h.2⟩
      obtain ⟨other, hother, heq⟩ := List.mem_map.1 hmem
      -- Rows behind this one are as they were or have the key that this one does not have.
      have hkeys : ∀ other ∈ upsert isRow change fresh rest,
          key other ∈ rest.map key ∨ key other = k :=
        forall_upsert (fun other hother => .inl (List.mem_map_of_mem hother))
          (fun other hpick _ => .inr (hchange other hpick)) (.inr hfresh)
      rcases hkeys other hother with hkey | hkey
      · exact h.1 (heq ▸ hkey)
      · exact hpick ((hrow row).2 (heq ▸ hkey))

end

/-! ## Proper tables -/

/-- What tells methods apart. -/
def MethodRename.key (m : MethodRename) : String × String :=
  (m.oldName, m.descriptor)

/-- Slots are 16 bits and tell the parameters of the method apart. -/
structure MethodRename.Proper (m : MethodRename) : Prop where
  slots_nodup : (m.params.map (·.slot)).Nodup
  slots_lt : ∀ p ∈ m.params, p.slot < 65536

/-- The class has one row for each field, method and parameter. -/
structure ClassRename.Proper (c : ClassRename) : Prop where
  wellFormed : c.WellFormed
  methods : ∀ m ∈ c.methods, m.Proper

/-- The table has one row for each class, field, method and parameter. -/
structure RenameTable.Proper (t : RenameTable) : Prop where
  classes_nodup : (t.classes.map (·.oldName)).Nodup
  rows : ∀ c ∈ t.classes, c.Proper

theorem RenameTable.Proper.wellFormed {t : RenameTable} (h : t.Proper) : t.WellFormed :=
  ⟨h.classes_nodup, fun c hc => (h.rows c hc).wellFormed⟩

theorem MethodRename.isFor_iff {m : MethodRename} {name descriptor : String} :
    m.isFor name descriptor = true ↔ m.key = (name, descriptor) := by
  rw [isFor, key, Bool.and_eq_true, beq_iff_eq, beq_iff_eq, Prod.mk.injEq]

theorem MethodRename.Proper.addParam {m : MethodRename} (h : m.Proper) {p : ParameterRename}
    (hp : p.slot < 65536) : (m.addParam p).Proper := by
  constructor
  · rw [MethodRename.addParam, List.map_append, List.nodup_append]
    refine ⟨(List.filter_sublist.map _).nodup h.slots_nodup, by simp, ?_⟩
    intro slot hslot other hother
    obtain ⟨q, hq, rfl⟩ := List.mem_map.1 hslot
    obtain rfl : other = p.slot := by simpa using hother
    simpa using (List.mem_filter.1 hq).2
  · intro q hq
    rcases List.mem_append.1 hq with hq | hq
    · exact h.slots_lt q (List.mem_filter.1 hq).1
    · rwa [List.mem_singleton.1 hq]

namespace ClassRename

variable {c : ClassRename}

theorem proper_identity (name : String) : (identity name).Proper :=
  ⟨⟨List.nodup_nil, List.nodup_nil⟩, by simp [identity]⟩

theorem Proper.addField (h : c.Proper) (f : FieldRename) : (c.addField f).Proper := by
  refine ⟨⟨?_, h.wellFormed.methods_nodup⟩, h.methods⟩
  exact nodup_upsert h.wellFormed.fields_nodup (fun _ => beq_iff_eq) (fun _ _ => rfl) rfl

theorem Proper.addMethod (h : c.Proper) (name descriptor newName : String) :
    (c.addMethod name descriptor newName).Proper := by
  have hkeys : (c.methods.map MethodRename.key).Nodup := h.wellFormed.methods_nodup
  refine ⟨⟨h.wellFormed.fields_nodup, ?_⟩, ?_⟩
  · exact nodup_upsert hkeys (fun _ => MethodRename.isFor_iff)
      (fun _ hm => MethodRename.isFor_iff.1 hm) rfl
  · exact forall_upsert h.methods (fun m _ hm => ⟨hm.slots_nodup, hm.slots_lt⟩)
      ⟨List.nodup_nil, by simp⟩

theorem Proper.addParam (h : c.Proper) (name descriptor : String) {p : ParameterRename}
    (hp : p.slot < 65536) : (c.addParam name descriptor p).Proper := by
  have hkey : ∀ m : MethodRename,
      (if m.isFor name descriptor then m.addParam p else m).key = m.key := by
    intro m
    split <;> rfl
  refine ⟨⟨h.wellFormed.fields_nodup, ?_⟩, ?_⟩
  · have hkeys : (c.addParam name descriptor p).methods.map MethodRename.key =
        c.methods.map MethodRename.key := by
      rw [ClassRename.addParam, List.map_map]
      exact List.map_congr_left fun m _ => hkey m
    exact hkeys ▸ h.wellFormed.methods_nodup
  · intro m hm
    obtain ⟨n, hn, rfl⟩ := List.mem_map.1 hm
    split
    · exact (h.methods n hn).addParam hp
    · exact h.methods n hn

end ClassRename

namespace RenameTable

variable {t : RenameTable}

theorem Proper.modifyClass (h : t.Proper) {f : ClassRename → ClassRename} (hkey : KeepsKey f)
    (hf : ∀ c, c.Proper → (f c).Proper) (name : String) : (t.modifyClass name f).Proper := by
  constructor
  · refine nodup_upsert h.classes_nodup (fun _ => beq_iff_eq) (fun c hc => ?_) (hkey _)
    rw [hkey]
    exact beq_iff_eq.1 hc
  · exact forall_upsert h.rows (fun c _ => hf c) (hf _ (ClassRename.proper_identity name))

end RenameTable

/-! ## Building -/

/-- A way to add to a table. -/
inductive TableStep where
  | addClass (oldName newName : String)
  /-- Makes sure that a class has a row. -/
  | keepClass (name : String)
  | addField (owner : String) (f : FieldRename)
  | addMethod (owner name descriptor newName : String)
  | addParam (owner name descriptor : String) (slot : UInt16) (oldName newName : String)

/-- The table with what the step adds. -/
def TableStep.apply (t : RenameTable) : TableStep → RenameTable
  | .addClass oldName newName => t.addClass oldName newName
  | .keepClass name => t.modifyClass name id
  | .addField owner f => t.addField owner f
  | .addMethod owner name descriptor newName => t.addMethod owner name descriptor newName
  | .addParam owner name descriptor slot oldName newName =>
    t.addParam owner name descriptor ⟨slot.toNat, oldName, newName⟩

namespace RenameTable

variable {t : RenameTable}

/-- The table is built by adding to the empty one. -/
inductive Built : RenameTable → Prop where
  | empty : Built empty
  | step {t : RenameTable} (h : Built t) (s : TableStep) : Built (s.apply t)

/-- More steps build more. -/
theorem Built.foldl (h : t.Built) (steps : List TableStep) :
    (steps.foldl TableStep.apply t).Built := by
  induction steps generalizing t with
  | nil => exact h
  | cons s steps ih => exact ih (h.step s)

/-- One step keeps a table proper. -/
theorem Proper.apply (h : t.Proper) (s : TableStep) : (s.apply t).Proper := by
  cases s with
  | addClass oldName newName =>
    exact h.modifyClass (f := fun c => { c with newName }) (fun _ => rfl)
      (fun _ hc => ⟨⟨hc.wellFormed.fields_nodup, hc.wellFormed.methods_nodup⟩, hc.methods⟩) oldName
  | keepClass name => exact h.modifyClass (fun _ => rfl) (fun _ hc => hc) name
  | addField owner f =>
    exact h.modifyClass (f := fun c => c.addField f) (fun _ => rfl) (fun _ hc => hc.addField f)
      owner
  | addMethod owner name descriptor newName =>
    exact h.modifyClass (f := fun c => c.addMethod name descriptor newName) (fun _ => rfl)
      (fun _ hc => hc.addMethod name descriptor newName) owner
  | addParam owner name descriptor slot oldName newName =>
    exact h.modifyClass
      (f := fun c => c.addParam name descriptor ⟨slot.toNat, oldName, newName⟩) (fun _ => rfl)
      (fun _ hc => hc.addParam name descriptor slot.toNat_lt) owner

theorem Built.proper (h : t.Built) : t.Proper := by
  induction h with
  | empty => exact ⟨List.nodup_nil, by simp [RenameTable.empty]⟩
  | step _ s ih => exact ih.apply s

end RenameTable

/-- The steps that add a method and its parameters. -/
def MethodRename.steps (owner : String) (m : MethodRename) : List TableStep :=
  .addMethod owner m.oldName m.descriptor m.newName ::
    m.params.map fun p =>
      .addParam owner m.oldName m.descriptor (UInt16.ofNat p.slot) p.oldName p.newName

/-- The steps that merge a row. -/
def ClassRename.steps (c : ClassRename) : List TableStep :=
  .addClass c.oldName c.newName :: c.fields.map (TableStep.addField c.oldName) ++
    c.methods.flatMap (MethodRename.steps c.oldName)

/-- Merging a row is a number of steps. -/
theorem ClassRename.foldl_steps {c : ClassRename}
    (hslots : ∀ m ∈ c.methods, ∀ p ∈ m.params, p.slot < 65536) (t : RenameTable) :
    c.steps.foldl TableStep.apply t = t.merge c := by
  have hmethod : ∀ m ∈ c.methods, ∀ t, (m.steps c.oldName).foldl TableStep.apply t =
      m.params.foldl (fun t p => t.addParam c.oldName m.oldName m.descriptor p)
        (t.addMethod c.oldName m.oldName m.descriptor m.newName) := by
    intro m hm t
    rw [MethodRename.steps, List.foldl_cons, List.foldl_map]
    refine List.foldl_ext _ _ _ fun t p hp => ?_
    rw [TableStep.apply, UInt16.toNat_ofNat_of_lt' (hslots m hm p hp)]
  rw [steps, List.foldl_append, List.foldl_cons, List.foldl_map, List.foldl_flatMap]
  exact List.foldl_ext _ _ _ fun t m hm => hmethod m hm t

/-- Merging rows is a number of steps. -/
theorem RenameTable.foldl_merge_eq_steps {rows : List ClassRename}
    (hslots : ∀ c ∈ rows, ∀ m ∈ c.methods, ∀ p ∈ m.params, p.slot < 65536) (t : RenameTable) :
    rows.foldl merge t = (rows.flatMap ClassRename.steps).foldl TableStep.apply t := by
  rw [List.foldl_flatMap]
  exact List.foldl_ext _ _ _ fun t c hc => (ClassRename.foldl_steps (hslots c hc) t).symm

/-! ## Merging proper rows -/

namespace ClassRename

variable {row c : ClassRename}

/-- Parameters of the last method are added behind those that it has. -/
theorem foldl_addParam_last {front : List MethodRename} {m : MethodRename}
    {params : List ParameterRename} (hrow : row.methods = front ++ [m])
    (hfront : ∀ n ∈ front, n.key ≠ m.key) (hnodup : ((m.params ++ params).map (·.slot)).Nodup) :
    params.foldl (fun row p => row.addParam m.oldName m.descriptor p) row =
      { row with methods := front ++ [{ m with params := m.params ++ params }] } := by
  induction params generalizing row m with
  | nil => rw [List.append_nil, List.foldl_nil, ← hrow]
  | cons p params ih =>
    have hslots : m.params.filter (·.slot != p.slot) = m.params := by
      refine List.filter_eq_self.2 fun q hq => ?_
      rw [List.map_append, List.nodup_append] at hnodup
      exact bne_iff_ne.2 (hnodup.2.2 _ (List.mem_map_of_mem hq) _ (by simp))
    have hother : front.map (fun n =>
        if n.isFor m.oldName m.descriptor then n.addParam p else n) = front := by
      refine (List.map_congr_left fun n hn => if_neg fun hfor => ?_).trans (List.map_id front)
      exact hfront n hn (MethodRename.isFor_iff.1 hfor)
    have hadd : row.addParam m.oldName m.descriptor p =
        { row with methods := front ++ [{ m with params := m.params ++ [p] }] } := by
      have hself : m.isFor m.oldName m.descriptor = true := MethodRename.isFor_iff.2 rfl
      rw [addParam, hrow, List.map_append, hother, List.map_singleton, if_pos hself,
        MethodRename.addParam, hslots]
    rw [List.foldl_cons, hadd]
    refine (ih (m := { m with params := m.params ++ [p] }) rfl hfront ?_).trans ?_
    · simpa using hnodup
    · simp

/-- A proper method that is new to the row is added as it is. -/
theorem absorbMethod_of_fresh {m : MethodRename} (hm : m.Proper)
    (hfresh : ∀ n ∈ row.methods, n.key ≠ m.key) :
    row.absorbMethod m = { row with methods := row.methods ++ [m] } := by
  have hadd : row.addMethod m.oldName m.descriptor m.newName =
      { row with methods := row.methods ++ [m.bare] } := by
    rw [addMethod, upsert_eq_append]
    · rfl
    · exact fun n hn => Bool.eq_false_iff.2 fun hfor => hfresh n hn (MethodRename.isFor_iff.1 hfor)
  rw [absorbMethod, hadd]
  exact foldl_addParam_last (m := m.bare) rfl hfresh hm.slots_nodup

theorem foldl_absorbMethod {methods : List MethodRename} (hmethods : ∀ m ∈ methods, m.Proper)
    (hnodup : ((row.methods ++ methods).map MethodRename.key).Nodup) :
    methods.foldl absorbMethod row = { row with methods := row.methods ++ methods } := by
  induction methods generalizing row with
  | nil => rw [List.append_nil, List.foldl_nil]
  | cons m methods ih =>
    rw [List.forall_mem_cons] at hmethods
    have hfresh : ∀ n ∈ row.methods, n.key ≠ m.key := by
      intro n hn
      rw [List.map_append, List.nodup_append] at hnodup
      exact hnodup.2.2 _ (List.mem_map_of_mem hn) _ (by simp)
    rw [List.foldl_cons, absorbMethod_of_fresh hmethods.1 hfresh,
      ih hmethods.2 (by simpa using hnodup)]
    simp

/-- From what a proper row says the row is put together again. -/
theorem absorb_of_proper (hc : c.Proper) :
    ({ c with fields := [], methods := [] } : ClassRename).absorb c = c := by
  let bare : ClassRename := { c with fields := [], methods := [] }
  have hfields : c.fields.foldl (fun row f => row.addField f) bare =
      { bare with fields := c.fields } :=
    fields_foldl_addField c.fields hc.wellFormed.fields_nodup
  rw [absorb, hfields]
  exact foldl_absorbMethod hc.methods hc.wellFormed.methods_nodup

end ClassRename

namespace RenameTable

variable {t : RenameTable}

/-- A proper row of a new class is added as it is. -/
theorem merge_of_fresh {c : ClassRename} (hc : c.Proper)
    (hfresh : ∀ row ∈ t.classes, row.oldName ≠ c.oldName) : t.merge c = ⟨t.classes ++ [c]⟩ := by
  rw [merge_eq, modifyClass,
    upsert_eq_append fun row hrow => beq_eq_false_iff_ne.2 (hfresh row hrow)]
  exact congrArg (fun row => (⟨t.classes ++ [row]⟩ : RenameTable)) (ClassRename.absorb_of_proper hc)

/-- Proper rows of different classes are put side by side. -/
theorem foldl_merge_eq {rows : List ClassRename} (hrows : ∀ c ∈ rows, c.Proper)
    (hnodup : ((t.classes ++ rows).map (·.oldName)).Nodup) :
    rows.foldl merge t = ⟨t.classes ++ rows⟩ := by
  induction rows generalizing t with
  | nil => rw [List.append_nil, List.foldl_nil]
  | cons c rows ih =>
    rw [List.forall_mem_cons] at hrows
    have hfresh : ∀ row ∈ t.classes, row.oldName ≠ c.oldName := by
      intro row hrow
      rw [List.map_append, List.nodup_append] at hnodup
      exact hnodup.2.2 _ (List.mem_map_of_mem hrow) _ (by simp)
    rw [List.foldl_cons, merge_of_fresh hrows.1 hfresh, ih hrows.2 (by simpa using hnodup)]
    simp

/-- A proper table is put together again from its rows. -/
theorem Proper.foldl_merge_classes (h : t.Proper) : t.classes.foldl merge empty = t :=
  foldl_merge_eq h.rows h.classes_nodup

/-- The tables that can be built are those with one row for everything. -/
theorem built_iff_proper : t.Built ↔ t.Proper := by
  refine ⟨Built.proper, fun h => ?_⟩
  rw [← h.foldl_merge_classes, foldl_merge_eq_steps
    fun c hc m hm => ((h.rows c hc).methods m hm).slots_lt]
  exact Built.empty.foldl _

end RenameTable

end JarRemap
