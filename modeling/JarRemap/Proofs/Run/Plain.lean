import JarRemap.Proofs.Run.Sharing

/-!
# Work on one class

`Chain.plainEntry` says what the stages make of an entry when nothing is remembered, and which lines
and counts they leave. The work on an entry settles with that (`Chain.processEntry_plainly`).
-/

namespace JarRemap

open Remapper

/-! ## Plain computations -/

/-- A computation that leaves lines and counts and may fail. -/
abbrev Plain := ExceptT TransformError (StateM (Multiset SharedAccess))

namespace Plain

/-- Leaves what the access does. -/
def leave (access : SharedAccess) : Plain Unit := fun log => (.ok (), access.trace + log)

/-- The new name of a member. -/
def memberName (r : Remapper) (k : MemberKey) : Plain String :=
  orFail .hierarchy (r.memberName k)

theorem tryCatch_apply {α : Type} (x : Plain α) (f : TransformError → Plain α)
    (before : Multiset SharedAccess) :
    (tryCatch x f : Plain α) before =
      match x before with
      | (.ok a, after) => (.ok a, after)
      | (.error e, after) => f e after := by
  simp only [tryCatchThe, MonadExcept.tryCatch, MonadExceptOf.tryCatch, ExceptT.tryCatch,
    ExceptT.mk, bind, StateT.bind]
  rcases x before with ⟨e | a, after⟩ <;> rfl

end Plain

namespace Task

variable {r : Remapper} {α : Type}

/-- The task settles with what the plain computation gives and leaves. -/
def Plainly (r : Remapper) (x : Task α) (y : Plain α) : Prop :=
  ∀ before, ∃ log, (y before).2 = log + before ∧ Work.Settles r x.run (y before).1 log

/-- Tasks are composed as plain computations are. -/
def plainly (r : Remapper) : Alike Task Plain where
  rel := Plainly r
  pure a before := ⟨0, (zero_add _).symm, .pure _⟩
  throw e before := ⟨0, (zero_add _).symm, .pure _⟩
  bind {α β x y f g} hx hf before := by
    obtain ⟨log, hlog, hsettles⟩ := hx before
    have hrun : (x >>= f).run = x.run >>= ExceptT.bindCont f := rfl
    rw [hrun, bind_stateful]
    rcases hy : y before with ⟨e | a, after⟩
    · rw [hy] at hlog hsettles
      exact ⟨log, hlog, add_zero log ▸ hsettles.bind (.pure _)⟩
    · rw [hy] at hlog hsettles
      obtain rfl := hlog
      obtain ⟨log', hlog', hsettles'⟩ := hf a (log + before)
      refine ⟨log + log', ?_, hsettles.bind hsettles'⟩
      rw [hlog', add_left_comm, add_assoc]

/-- A task whose failure is dealt with. -/
theorem Plainly.tryCatch {x : Task α} {y : Plain α} {f : TransformError → Task α}
    {g : TransformError → Plain α} (hx : Plainly r x y) (hf : ∀ e, Plainly r (f e) (g e)) :
    Plainly r (MonadExcept.tryCatch x f) (MonadExcept.tryCatch y g) := by
  intro before
  obtain ⟨log, hlog, hsettles⟩ := hx before
  rw [Plain.tryCatch_apply]
  rcases hy : y before with ⟨e | a, after⟩
  · rw [hy] at hlog hsettles
    obtain rfl := hlog
    obtain ⟨log', hlog', hsettles'⟩ := hf e (log + before)
    refine ⟨log + log', ?_, hsettles.bind hsettles'⟩
    rw [hlog', add_left_comm, add_assoc]
  · rw [hy] at hlog hsettles
    exact ⟨log, hlog, add_zero log ▸ hsettles.bind (.pure _)⟩

/-- An access that leaves something for good. -/
theorem plainly_leave (access : SharedAccess) (htrue : access.IsTrue r) {x : Task Unit}
    (hx : x.run = .step access fun _ => pure (.ok ())) : Plainly r x (Plain.leave access) := by
  intro before
  rw [hx]
  exact ⟨access.trace, rfl, htrue, 0, (add_zero _).symm, fun _ _ => .pure _⟩

/-- Tasks that leave nothing are composed as computations that only may fail. -/
def silently (r : Remapper) : Alike Task (ExceptT TransformError Id) where
  rel x y := Work.Settles r x.run y 0
  pure _ := .pure _
  throw _ := .pure _
  bind {α β x y f g} hx hf := by
    have hwork : (x >>= f).run = x.run >>= ExceptT.bindCont f := rfl
    have hplain : y >>= g = ExceptT.bindCont g y := rfl
    rw [hwork, hplain]
    refine hx.bind_silent ?_
    rcases y with e | a
    · exact .pure _
    · exact hf a

theorem silently_lift {x : Work α} {a : α} (h : Work.Settles r x a 0) :
    (silently r).rel (liftM x : Task α) (liftM (m := Id) a : ExceptT TransformError Id α) :=
  h.bind_silent (f := fun a => pure (Except.ok a)) (.pure _)

theorem plainly_of_silently {x : Task α} {y : Except TransformError α}
    (h : (silently r).rel x y) : Plainly r x (orFail id y) := by
  intro before
  rcases y with e | a
  · exact ⟨0, (zero_add _).symm, h⟩
  · exact ⟨0, (zero_add _).symm, h⟩

theorem plainly_memberName (k : MemberKey) :
    Plainly r (Task.memberName r k) (Plain.memberName r k) := by
  have hsilent : (silently r).rel (Task.memberName r k) ((r.memberName k).mapError .hierarchy) :=
    (Work.Settles.memberName k).bind_silent (.pure _)
  have hplain : Plain.memberName r k = orFail id ((r.memberName k).mapError .hierarchy) := by
    unfold Plain.memberName
    rcases r.memberName k <;> rfl
  exact hplain ▸ plainly_of_silently hsilent

end Task

/-! ## Repairs -/

namespace Repair

variable {r : Remapper}

/-- A repair settles with what it does on the plain class path. -/
def edits (r : Remapper) : Alike (RepairEditOver Work) RepairEdit where
  rel x y := ∀ c, Work.Settles r (x c) (y c) 0
  pure _ _ := .pure _
  throw _ _ := .pure _
  bind {α β x y f g} hx hf c := by
    have hwork : (x >>= f) c = x c >>= fun (outcome, c) => ExceptT.bindCont f outcome c := rfl
    have hplain : (y >>= g) c = ExceptT.bindCont g (y c).1 (y c).2 := rfl
    rw [hwork, hplain]
    refine (hx c).bind_silent ?_
    rcases y c with ⟨e | a, c'⟩
    · exact .pure _
    · exact hf a c'

theorem edits_unaided {α : Type} (x : RepairEdit α) :
    (edits r).rel (RepairEdit.unaided x) (RepairEdit.unaided (m := Id) x) :=
  fun _ => .pure _

theorem edits_get : (edits r).rel (get : RepairEditOver Work ClassFile) get :=
  fun _ => .pure _

theorem edits_ifChosen (chosen : Bool) {x : RepairEditOver Work Bool} {y : RepairEdit Bool}
    (h : (edits r).rel x y) :
    (edits r).rel (RepairEdit.ifChosen chosen x) (RepairEdit.ifChosen chosen y) := by
  cases chosen with
  | true => exact h
  | false => exact (edits r).pure false

theorem edits_lift {α : Type} {x : Work α} {a : α} (h : Work.Settles r x a 0) :
    (edits r).rel (liftM x : RepairEditOver Work α) (liftM (m := Id) a : RepairEdit α) := by
  intro c
  have hlift : (liftM x : RepairEditOver Work α) c =
    (x >>= fun a => pure (a, c)) >>= fun p => pure (Except.ok p.1, p.2) := rfl
  rw [hlift]
  exact (h.bind_silent (f := fun a => pure (a, c)) (.pure _)).bind_silent (.pure _)

theorem typeParameterFor_settles (name : String) (bound : Option String) :
    Work.Settles r (typeParameterFor (Work.shape r.classPath) name bound)
      (typeParameterFor (m := Id) r.classPath.find? name bound) 0 := by
  cases bound with
  | none => exact .pure _
  | some bound => exact (Work.Settles.shape r bound).bind_silent (.pure _)

theorem edits_repairRecordSignature :
    (edits r).rel (repairRecordSignature (Work.shape r.classPath))
      (repairRecordSignature (m := Id) r.classPath.find?) := by
  refine (edits r).bind edits_get fun c => (edits r).bind ((edits r).orFail _ _) fun bounds => ?_
  split
  · exact (edits r).pure _
  have hparams := (Work.Settles.comesTo r).mapM
    (fun b : String × Option String => typeParameterFor_settles b.1 b.2) bounds
  refine (edits r).bind (edits_lift hparams) fun typeParams => ?_
  refine (edits r).bind ((edits r).orFail _ _) fun interfaces => ?_
  exact (edits r).bind (edits_unaided _) fun _ => (edits r).pure _

theorem edits_repairRecord (parts : RecordParts) :
    (edits r).rel (repairRecord (Work.shape r.classPath) parts)
      (repairRecord (m := Id) r.classPath.find? parts) := by
  have hsignature : (edits r).rel (restoreSignature (Work.shape r.classPath))
      (restoreSignature (m := Id) r.classPath.find?) := by
    refine (edits r).bind edits_get fun c => (edits r).bind ((edits r).orFail _ _) fun _ => ?_
    split
    · exact edits_repairRecordSignature
    · exact (edits r).pure _
  refine (edits r).bind edits_get fun c => (edits r).bind ((edits r).orFail _ _) fun superName => ?_
  split
  · exact (edits r).pure _
  refine (edits r).bind (edits_ifChosen _ (edits_unaided _)) fun first => ?_
  exact (edits r).bind (edits_ifChosen _ hsignature) fun second => (edits r).pure _

theorem edits_applyWith (repair : Repair) :
    (edits r).rel (repair.applyWith (Work.shape r.classPath)) (repair.apply r.classPath) := by
  cases repair with
  | record parts => exact edits_repairRecord parts
  | identifiers scope => exact edits_unaided _
  | source naming => exact edits_unaided _

/-- So does the repair of a class of an archive. -/
theorem repairedWith?_settles (repair : Repair) (e : ClassEntry) :
    (Task.silently r).rel (repair.repairedWith? (Work.shape r.classPath) e)
      (repair.repaired? r.classPath e) := by
  refine (Task.silently r).bind ((Task.silently r).orFail _ _) fun c => ?_
  refine (Task.silently r).bind (Task.silently_lift (edits_applyWith repair c)) fun found => ?_
  rcases found with ⟨cause | _ | _, c⟩
  · exact (Task.silently r).throw cause
  · exact (Task.silently r).pure none
  · exact (Task.silently r).bind ((Task.silently r).orFail _ _) fun _ => (Task.silently r).pure _

end Repair

/-! ## The stages -/

namespace Chain

variable (chain : Chain)

/-- What members and classes are looked up in. -/
def remapper : Remapper :=
  ⟨chain.table.getD ⟨[]⟩, chain.classPath⟩

/-- What the renaming makes of a class, if there is a table. -/
def plainRename (e : ClassEntry) : Plain ClassEntry :=
  match chain.table with
  | none => pure e
  | some table =>
    tryCatch
      (e.renamed table (Plain.memberName ⟨table, chain.classPath⟩)
        (fun line => Plain.leave (.note line)) (Plain.leave .countRenamed))
      fun cause => throw (cause.within renamingName e.name)

/-- What a repair makes of a class. -/
def plainRepair (e : ClassEntry) (repair : Repair) : Plain ClassEntry := do
  let found ← tryCatch (orFail id (repair.repaired? chain.classPath e)) fun cause =>
    throw (cause.within repair.name e.name)
  match found with
  | none => return e
  | some repaired =>
    Plain.leave (.countRepaired repair)
    return repaired

/-- What all stages make of a class. -/
def plainClass (e : ClassEntry) : Plain ClassEntry := do
  chain.repairs.foldlM chain.plainRepair (← chain.plainRename e)

/-- What all stages make of an entry. -/
def plainEntry : Entry → Plain (Option Entry)
  | .ofClass c => do return some (.ofClass (← chain.plainClass c))
  | .manifest r => return some (.manifest r)
  | .resource r => return (chain.processResource r).map .resource

theorem renameClass_plainly (e : ClassEntry) :
    Task.Plainly chain.remapper (chain.renameClass e) (chain.plainRename e) := by
  unfold renameClass plainRename remapper
  rcases chain.table with _ | table
  · exact (Task.plainly _).pure e
  · refine Task.Plainly.tryCatch ?_ fun cause => (Task.plainly _).throw _
    refine Alike.renamed (R := Task.plainly _) Task.plainly_memberName table ?_ ?_ e
    · exact fun line => Task.plainly_leave (.note line) trivial rfl
    · exact Task.plainly_leave .countRenamed trivial rfl

theorem repairClass_plainly (e : ClassEntry) (repair : Repair) :
    Task.Plainly chain.remapper (chain.repairClass e repair) (chain.plainRepair e repair) := by
  refine (Task.plainly _).bind ?_ fun found => ?_
  · refine Task.Plainly.tryCatch ?_ fun cause => (Task.plainly _).throw _
    exact Task.plainly_of_silently (repair.repairedWith?_settles e)
  · rcases found with _ | repaired
    · exact (Task.plainly _).pure e
    · refine (Task.plainly _).bind ?_ fun _ => (Task.plainly _).pure repaired
      exact Task.plainly_leave (.countRepaired repair) trivial rfl

/-- The work on an entry settles with what the stages make of it. -/
theorem processEntry_plainly (e : Entry) :
    Task.Plainly chain.remapper (chain.processEntry e) (chain.plainEntry e) := by
  cases e with
  | manifest r => exact (Task.plainly _).pure _
  | resource r => exact (Task.plainly _).pure _
  | ofClass c =>
    refine (Task.plainly _).bind ?_ fun c => (Task.plainly _).pure _
    refine (Task.plainly _).bind (chain.renameClass_plainly c) fun c => ?_
    exact (Task.plainly _).foldlM chain.repairClass_plainly c chain.repairs

end Chain

end JarRemap
