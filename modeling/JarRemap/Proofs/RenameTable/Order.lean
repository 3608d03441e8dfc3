import JarRemap.Proofs.RenameTable.Built
import Mathlib.Data.List.Induction

/-!
# Renames in any order

What all formats of tables can say is a list of renames: of classes, of fields without a descriptor,
and of methods. Each one changes the row of one class (`CommonRename.apply_eq`), and the row says in
the end what they all say (`CommonRename.foldl_change`). Different things may be renamed in any
order, even members before their class: the tables agree (`CommonRename.agrees_of_perm`).
-/

namespace JarRemap

/-! ## Rows that agree -/

section

variable {α β : Type} {sameKey same : α → α → Bool} {a b : List α} (key : α → β)

/-- Rows that differ in their keys agree if each one has its counterpart on the other side. -/
theorem agreeBy_of_counterparts (hkey : ∀ x y, sameKey x y = true ↔ key x = key y)
    (ha : (a.map key).Nodup) (hb : (b.map key).Nodup)
    (hleft : ∀ x ∈ a, ∃ y ∈ b, key x = key y ∧ same x y = true)
    (hright : ∀ y ∈ b, ∃ x ∈ a, key x = key y) : RenameTable.agreeBy sameKey same a b = true := by
  have hkeys : (a.map key).Perm (b.map key) := by
    rw [List.perm_ext_iff_of_nodup ha hb]
    intro k
    constructor
    · intro hk
      obtain ⟨x, hx, rfl⟩ := List.mem_map.1 hk
      obtain ⟨y, hy, heq, -⟩ := hleft x hx
      exact heq ▸ List.mem_map_of_mem hy
    · intro hk
      obtain ⟨y, hy, rfl⟩ := List.mem_map.1 hk
      obtain ⟨x, hx, heq⟩ := hright y hy
      exact heq ▸ List.mem_map_of_mem hx
  have hlength : a.length = b.length := by simpa using hkeys.length_eq
  rw [RenameTable.agreeBy, hlength, beq_self_eq_true, Bool.true_and, List.all_eq_true]
  intro x hx
  obtain ⟨y, hy, heq, hsame⟩ := hleft x hx
  -- The row that is found has the key of the counterpart, so it is the counterpart.
  obtain ⟨found, hfound⟩ : ∃ found, b.find? (sameKey x) = some found := by
    rw [← Option.isSome_iff_exists, List.find?_isSome]
    exact ⟨y, hy, (hkey x y).2 heq⟩
  have hfoundKey : key x = key found := (hkey x found).1 (List.find?_some hfound)
  obtain rfl : found = y :=
    List.inj_on_of_nodup_map hb (List.mem_of_find?_eq_some hfound) hy (hfoundKey.symm.trans heq)
  rw [hfound, Option.any_some, hsame]

/-- The same rows in another order. -/
theorem agreeBy_of_perm (hkey : ∀ x y, sameKey x y = true ↔ key x = key y)
    (hsame : ∀ x, same x x = true) (hb : (b.map key).Nodup) (h : a.Perm b) :
    RenameTable.agreeBy sameKey same a b = true :=
  agreeBy_of_counterparts key hkey ((h.map key).nodup_iff.2 hb) hb
    (fun x hx => ⟨x, h.subset hx, rfl, hsame x⟩) fun y hy => ⟨y, h.symm.subset hy, rfl⟩

end

/-! ## Renames -/

/-- A rename that can be said in every format. -/
inductive CommonRename where
  | ofClass (oldName newName : String)
  | ofField (owner oldName newName : String)
  | ofMethod (owner oldName descriptor newName : String)
  deriving DecidableEq, Repr

namespace CommonRename

/-- The class that is renamed, or that declares what is renamed. -/
def owner : CommonRename → String
  | .ofClass oldName _ => oldName
  | .ofField owner _ _ => owner
  | .ofMethod owner _ _ _ => owner

/-- What is renamed: a class, or a member by its name and, for a method, its descriptor. -/
def key : CommonRename → String × Option (String × Option String)
  | .ofClass oldName _ => (oldName, none)
  | .ofField owner oldName _ => (owner, some (oldName, none))
  | .ofMethod owner oldName descriptor _ => (owner, some (oldName, some descriptor))

/-- The step by which the rename is added to a table. -/
def step : CommonRename → TableStep
  | .ofClass oldName newName => .addClass oldName newName
  | .ofField owner oldName newName => .addField owner ⟨oldName, newName, none⟩
  | .ofMethod owner oldName descriptor newName => .addMethod owner oldName descriptor newName

/-- The table with the rename. -/
def apply (t : RenameTable) (r : CommonRename) : RenameTable :=
  r.step.apply t

/-- What the rename makes of the row of its class. -/
def change (c : ClassRename) : CommonRename → ClassRename
  | .ofClass _ newName => { c with newName }
  | .ofField _ oldName newName => c.addField ⟨oldName, newName, none⟩
  | .ofMethod _ oldName descriptor newName => c.addMethod oldName descriptor newName

/-- The new name of the class, if this is what is renamed. -/
def className? : CommonRename → Option String
  | .ofClass _ newName => some newName
  | _ => none

/-- The row of the field, if this is what is renamed. -/
def field? : CommonRename → Option FieldRename
  | .ofField _ oldName newName => some ⟨oldName, newName, none⟩
  | _ => none

/-- The row of the method, if this is what is renamed. -/
def method? : CommonRename → Option MethodRename
  | .ofMethod _ oldName descriptor newName => some ⟨oldName, descriptor, newName, []⟩
  | _ => none

/-- The row of a class of which these renames speak. -/
def row (owner : String) (rs : List CommonRename) : ClassRename :=
  { oldName := owner
    newName := (rs.findSome? className?).getD owner
    fields := rs.filterMap field?
    methods := rs.filterMap method? }

/-- The renames that speak of a class. -/
def ofOwner (owner : String) (rs : List CommonRename) : List CommonRename :=
  rs.filter (·.owner = owner)

variable {rs rs' : List CommonRename} {r : CommonRename} {owner : String} {t : RenameTable}

theorem className?_eq_some_iff {newName : String} :
    r.className? = some newName ↔ r = .ofClass r.owner newName := by
  cases r <;> simp [className?, CommonRename.owner]

theorem field?_eq_some_iff {f : FieldRename} :
    r.field? = some f ↔ r = .ofField r.owner f.oldName f.newName ∧ f.descriptor = none := by
  obtain ⟨oldName, newName, descriptor⟩ := f
  cases r <;> simp [field?, CommonRename.owner, eq_comm, and_assoc]

theorem method?_eq_some_iff {m : MethodRename} :
    r.method? = some m ↔
      r = .ofMethod r.owner m.oldName m.descriptor m.newName ∧ m.params = [] := by
  obtain ⟨oldName, descriptor, newName, params⟩ := m
  cases r <;> simp [method?, CommonRename.owner, eq_comm, and_assoc]

theorem mem_ofOwner : r ∈ ofOwner owner rs ↔ r ∈ rs ∧ r.owner = owner := by
  rw [ofOwner, List.mem_filter, decide_eq_true_iff]

theorem perm_ofOwner (h : rs'.Perm rs) (owner : String) :
    (ofOwner owner rs').Perm (ofOwner owner rs) :=
  h.filter _

theorem nodup_ofOwner (h : (rs.map key).Nodup) : ((ofOwner owner rs).map key).Nodup :=
  (List.filter_sublist.map key).nodup h

/-- All that a rename does is to change one row. -/
theorem apply_eq (t : RenameTable) (r : CommonRename) :
    apply t r = t.modifyClass r.owner fun c => r.change c := by
  cases r <;> rfl

theorem keepsKey_change (r : CommonRename) : RenameTable.KeepsKey fun c => r.change c := by
  intro c
  cases r <;> rfl

/-! ## One row -/

/-- Renames of one class and of different things in it make the row that says what they say. -/
theorem foldl_change (hnodup : (rs.map key).Nodup) (howner : ∀ r ∈ rs, r.owner = owner) :
    rs.foldl change (.identity owner) = row owner rs := by
  induction rs using List.reverseRecOn with
  | nil => rfl
  | append_singleton rs r ih =>
    rw [List.map_append, List.nodup_append] at hnodup
    rw [List.forall_mem_append] at howner
    have hfresh : ∀ r' ∈ rs, r'.key ≠ r.key :=
      fun r' hr' => hnodup.2.2 _ (List.mem_map_of_mem hr') _ (by simp)
    obtain rfl : r.owner = owner := howner.2 r (by simp)
    rw [List.foldl_append, List.foldl_cons, List.foldl_nil, ih hnodup.1 howner.1]
    cases r with
    | ofClass oldName newName =>
      have hnone : rs.findSome? className? = none := by
        refine List.findSome?_eq_none_iff.2 fun r' hr' => Option.eq_none_iff_forall_ne_some.2 ?_
        intro other hother
        rw [className?_eq_some_iff, howner.1 r' hr'] at hother
        exact hfresh r' hr' (by rw [hother]; rfl)
      simp [change, row, hnone, className?, field?, method?, List.findSome?_append]
    | ofField owner oldName newName =>
      have hrow : ∀ f ∈ rs.filterMap field?, (f.oldName == oldName) = false := by
        intro f hf
        obtain ⟨r', hr', hf⟩ := List.mem_filterMap.1 hf
        rw [field?_eq_some_iff, howner.1 r' hr'] at hf
        refine beq_eq_false_iff_ne.2 ?_
        rintro rfl
        exact hfresh r' hr' (by rw [hf.1]; rfl)
      simp [change, row, ClassRename.addField, upsert_eq_append hrow, className?, field?, method?,
        List.findSome?_append, CommonRename.owner]
    | ofMethod owner oldName descriptor newName =>
      have hrow : ∀ m ∈ rs.filterMap method?, m.isFor oldName descriptor = false := by
        intro m hm
        obtain ⟨r', hr', hm⟩ := List.mem_filterMap.1 hm
        rw [method?_eq_some_iff, howner.1 r' hr'] at hm
        refine Bool.eq_false_iff.2 fun hfor => ?_
        obtain ⟨rfl, rfl⟩ := Prod.mk.inj (MethodRename.isFor_iff.1 hfor)
        exact hfresh r' hr' (by rw [hm.1]; rfl)
      simp [change, row, ClassRename.addMethod, upsert_eq_append hrow, className?, field?, method?,
        List.findSome?_append, CommonRename.owner]

theorem findSome?_className?_eq_some_iff (hnodup : (rs.map key).Nodup)
    (howner : ∀ r ∈ rs, r.owner = owner) {newName : String} :
    rs.findSome? className? = some newName ↔ .ofClass owner newName ∈ rs := by
  constructor
  · intro h
    obtain ⟨r, hr, hname⟩ := List.exists_of_findSome?_eq_some h
    rw [className?_eq_some_iff, howner r hr] at hname
    exact hname ▸ hr
  · intro hmem
    rcases hfind : rs.findSome? className? with _ | other
    · cases List.findSome?_eq_none_iff.1 hfind _ hmem
    · obtain ⟨r, hr, hname⟩ := List.exists_of_findSome?_eq_some hfind
      rw [className?_eq_some_iff, howner r hr] at hname
      subst hname
      -- Both name the same class, so they are one.
      have heq := List.inj_on_of_nodup_map hnodup hr hmem rfl
      rw [(ofClass.inj heq).2]

/-- The order of renames does not count for what a row says. -/
theorem classesAgree_row (h : rs'.Perm rs) (hnodup : (rs.map key).Nodup)
    (howner : ∀ r ∈ rs, r.owner = owner) (hrow : (row owner rs).WellFormed) :
    RenameTable.classesAgree (row owner rs') (row owner rs) = true := by
  have hname : rs'.findSome? className? = rs.findSome? className? := by
    refine Option.ext fun newName => ?_
    rw [findSome?_className?_eq_some_iff ((h.map key).nodup_iff.2 hnodup)
        (fun r hr => howner r (h.subset hr)),
      findSome?_className?_eq_some_iff hnodup howner, h.mem_iff]
  have hfields : RenameTable.agreeBy (fun f g => f.oldName == g.oldName) (· == ·)
      (row owner rs').fields (row owner rs).fields = true :=
    agreeBy_of_perm FieldRename.oldName (fun _ _ => beq_iff_eq) (fun _ => beq_self_eq_true _)
      hrow.fields_nodup (h.filterMap field?)
  have hmethods : RenameTable.agreeBy (fun m n => n.isFor m.oldName m.descriptor) (· == ·)
      (row owner rs').methods (row owner rs).methods = true :=
    agreeBy_of_perm MethodRename.key (fun _ _ => MethodRename.isFor_iff.trans eq_comm)
      (fun _ => beq_self_eq_true _) hrow.methods_nodup (h.filterMap method?)
  rw [RenameTable.classesAgree, hfields, hmethods]
  simp [row, hname]

/-! ## Tables -/

/-- The table that says all this. -/
def table (rs : List CommonRename) : RenameTable :=
  rs.foldl apply .empty

theorem proper_table (rs : List CommonRename) : (table rs).Proper := by
  have hsteps : table rs = (rs.map step).foldl TableStep.apply .empty := by
    rw [List.foldl_map]
    rfl
  rw [hsteps]
  exact (RenameTable.Built.empty.foldl _).proper

/-- The row of a class goes through the renames that speak of it. -/
theorem class?_foldl_apply (rs : List CommonRename) (t : RenameTable) (owner : String) :
    (rs.foldl apply t).class? owner = (ofOwner owner rs).foldl
      (fun c r => some (r.change (c.getD (.identity owner)))) (t.class? owner) := by
  induction rs generalizing t with
  | nil => rfl
  | cons r rs ih =>
    rw [List.foldl_cons, ih, apply_eq, ofOwner, ofOwner, List.filter_cons]
    by_cases h : r.owner = owner
    · subst h
      rw [RenameTable.class?_modifyClass_self r.keepsKey_change, if_pos (by simp), List.foldl_cons]
    · rw [RenameTable.class?_modifyClass_of_ne r.keepsKey_change (Ne.symm h), if_neg (by simpa)]

/-- The classes with a row are those of which there are renames. -/
theorem class?_table (hnodup : (rs.map key).Nodup) (owner : String) :
    (table rs).class? owner =
      if ofOwner owner rs = [] then none else some (row owner (ofOwner owner rs)) := by
  rw [table, class?_foldl_apply, ← foldl_change (nodup_ofOwner hnodup)
    fun r hr => (mem_ofOwner.1 hr).2]
  rcases ofOwner owner rs with _ | ⟨r, rest⟩
  · rfl
  · rw [if_neg (List.cons_ne_nil r rest), List.foldl_cons, List.foldl_cons]
    have hchange : ∀ c r, some (change ((some c).getD (.identity owner)) r) = some (change c r) :=
      fun _ _ => rfl
    exact List.foldl_hom some hchange

theorem class?_table_eq_some_iff (hnodup : (rs.map key).Nodup) {c : ClassRename} :
    (table rs).class? owner = some c ↔
      ofOwner owner rs ≠ [] ∧ row owner (ofOwner owner rs) = c := by
  rw [class?_table hnodup]
  split
  case isTrue h => simp [h]
  case isFalse h => simp [h]

/-- What one order says of a class another one does too. -/
theorem class?_table_of_perm (h : rs'.Perm rs) (hnodup : (rs.map key).Nodup) {c : ClassRename}
    (hc : (table rs').class? owner = some c) :
    ∃ c', (table rs).class? owner = some c' ∧ RenameTable.classesAgree c c' = true := by
  obtain ⟨hne, rfl⟩ := (class?_table_eq_some_iff ((h.map key).nodup_iff.2 hnodup)).1 hc
  have hperm := perm_ofOwner h owner
  have hrow : (table rs).class? owner = some (row owner (ofOwner owner rs)) :=
    (class?_table_eq_some_iff hnodup).2 ⟨fun hnil => hne (hnil ▸ hperm).eq_nil, rfl⟩
  refine ⟨_, hrow, classesAgree_row hperm (nodup_ofOwner hnodup)
    (fun r hr => (mem_ofOwner.1 hr).2) ?_⟩
  exact ((proper_table rs).rows _ (List.mem_of_find?_eq_some hrow)).wellFormed

/-- Tables that say the same in different orders agree. -/
theorem agrees_of_perm (h : rs'.Perm rs) (hnodup : (rs.map key).Nodup) :
    (table rs').agrees (table rs) = true := by
  have hwf := (proper_table rs).wellFormed
  have hwf' := (proper_table rs').wellFormed
  refine agreeBy_of_counterparts ClassRename.oldName (fun _ _ => beq_iff_eq)
    hwf'.classes_nodup hwf.classes_nodup (fun c hc => ?_) fun c hc => ?_
  · obtain ⟨c', hc', hagree⟩ :=
      class?_table_of_perm h hnodup ((RenameTable.class?_eq_some_iff hwf').2 ⟨hc, rfl⟩)
    obtain ⟨hmem, hkey⟩ := (RenameTable.class?_eq_some_iff hwf).1 hc'
    exact ⟨c', hmem, hkey.symm, hagree⟩
  · obtain ⟨c', hc', -⟩ := class?_table_of_perm h.symm ((h.map key).nodup_iff.2 hnodup)
      ((RenameTable.class?_eq_some_iff hwf).2 ⟨hc, rfl⟩)
    obtain ⟨hmem, hkey⟩ := (RenameTable.class?_eq_some_iff hwf').1 hc'
    exact ⟨c', hmem, hkey⟩

/-! ## Looking up -/

/-- The table has the new name where it is looked up. -/
def ToldBy (t : RenameTable) : CommonRename → Prop
  | .ofClass oldName newName => t.className? oldName = some newName
  | .ofField owner oldName newName =>
    ∀ descriptor, t.fieldName? owner oldName descriptor = some newName
  | .ofMethod owner oldName descriptor newName =>
    t.methodName? owner oldName descriptor = some newName

/-- A table of different things tells each of them. -/
theorem toldBy_table (hnodup : (rs.map key).Nodup) (hr : r ∈ rs) : r.ToldBy (table rs) := by
  have hmem : r ∈ ofOwner r.owner rs := mem_ofOwner.2 ⟨hr, rfl⟩
  have hrow : (table rs).class? r.owner = some (row r.owner (ofOwner r.owner rs)) :=
    (class?_table_eq_some_iff hnodup).2 ⟨List.ne_nil_of_mem hmem, rfl⟩
  have hwf := ((proper_table rs).rows _ (List.mem_of_find?_eq_some hrow)).wellFormed
  cases r with
  | ofClass oldName newName =>
    have hname : (ofOwner oldName rs).findSome? className? = some newName :=
      (findSome?_className?_eq_some_iff (nodup_ofOwner hnodup)
        fun r hr => (mem_ofOwner.1 hr).2).2 hmem
    rw [CommonRename.owner] at hrow
    rw [ToldBy, RenameTable.className?, hrow, Option.map_some, row, hname, Option.getD_some]
  | ofField owner oldName newName =>
    have hfind : (row owner (ofOwner owner rs)).fields.find? (·.oldName == oldName) =
        some ⟨oldName, newName, none⟩ :=
      (find?_key_iff hwf.fields_nodup).2 ⟨List.mem_filterMap.2 ⟨_, hmem, rfl⟩, rfl⟩
    intro descriptor
    rw [CommonRename.owner] at hrow
    rw [RenameTable.fieldName?, hrow, Option.bind_some, ClassRename.field?, hfind]
    rfl
  | ofMethod owner oldName descriptor newName =>
    have hpick : MethodRename.isFor oldName descriptor =
        fun m => m.key == (oldName, descriptor) :=
      funext fun m => Bool.eq_iff_iff.2 (MethodRename.isFor_iff.trans beq_iff_eq.symm)
    have hfind : (row owner (ofOwner owner rs)).methods.find?
        (fun m => m.key == (oldName, descriptor)) = some ⟨oldName, descriptor, newName, []⟩ :=
      (find?_key_iff hwf.methods_nodup).2 ⟨List.mem_filterMap.2 ⟨_, hmem, rfl⟩, rfl⟩
    rw [CommonRename.owner] at hrow
    rw [ToldBy, RenameTable.methodName?, hrow, Option.bind_some, ClassRename.method?, hpick, hfind]
    rfl

end CommonRename

end JarRemap
