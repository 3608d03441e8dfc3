import JarRemap.Proofs.Rename.Alike
import JarRemap.Proofs.Rename.Memory
import JarRemap.Run.Chain
import Mathlib.Algebra.BigOperators.Group.Multiset.Basic

/-!
# Work beside others

The work on a class asks for answers that others may or may not have kept, and what it keeps and
counts is there for others. As long as everybody keeps nothing but the truth, it makes no difference
to the work what is there already. `Work.Settles` says so for one piece of work: whatever true
answers it finds, it keeps only the truth, it ends with the same outcome, and it leaves the same
lines and counts, in whatever order.
-/

namespace JarRemap

open Remapper

/-! ## Accesses -/

/-- What has been gathered is right. -/
def RunState.Good (r : Remapper) (s : RunState) : Prop :=
  s.renames.Good r

/-- What an access may find where nothing but the truth is kept. -/
def SharedAccess.MayFind (r : Remapper) : (access : SharedAccess) → access.Answer → Prop
  | .knownShape name, known => ∀ found, known = some found → found = r.classPath.find? name
  | .knownMember k, known => ∀ found, known = some found → r.plainSearch k = .ok found
  | .keepShape .., _ | .keepMember .., _ | .note _, _ | .countRenamed, _ | .countRepaired _, _ =>
    True

/-- The access keeps nothing but the truth. -/
def SharedAccess.IsTrue (r : Remapper) : SharedAccess → Prop
  | .keepShape name found => found = r.classPath.find? name
  | .keepMember k found => r.plainSearch k = .ok found
  | .knownShape _ | .knownMember _ | .note _ | .countRenamed | .countRepaired _ => True

/-- What the access leaves, apart from answers. -/
def SharedAccess.trace : SharedAccess → Multiset SharedAccess
  | .note line => {.note line}
  | .countRenamed => {.countRenamed}
  | .countRepaired r => {.countRepaired r}
  | .knownShape _ | .keepShape .. | .knownMember _ | .keepMember .. => 0

/-- The lines and counts that have been gathered. -/
def RunState.tally (s : RunState) : Multiset SharedAccess :=
  ↑(s.renames.lines.map SharedAccess.note) +
    (Multiset.replicate s.renames.changed SharedAccess.countRenamed +
      ↑(s.made.map SharedAccess.countRepaired))

namespace RunState

variable {s s' : RunState}

@[simp] theorem tally_start : RunState.start.tally = 0 := rfl

theorem note_mem_tally {line : String} : .note line ∈ s.tally ↔ line ∈ s.renames.lines := by
  unfold tally
  simp [Multiset.mem_replicate]

theorem count_renamed_tally (s : RunState) :
    s.tally.count .countRenamed = s.renames.changed := by
  unfold tally
  simp [Multiset.count_add]

theorem count_repaired_tally (s : RunState) (r : Repair) :
    s.tally.count (.countRepaired r) = s.made.count r := by
  have hinj : Function.Injective SharedAccess.countRepaired :=
    fun _ _ h => SharedAccess.countRepaired.inj h
  unfold tally
  simp [Multiset.count_add, List.count_map_of_injective _ _ hinj, Multiset.count_replicate]

end RunState

/-- From right answers an access finds the truth, and one that keeps the truth leaves it. -/
theorem SharedAccess.perform_good {r : Remapper} {s : RunState} (hs : s.Good r)
    {access : SharedAccess} (h : access.IsTrue r) :
    access.MayFind r (access.perform s).1 ∧ (access.perform s).2.Good r := by
  cases access with
  | knownShape name => exact ⟨fun found hfound => hs.shapes_eq name found hfound, hs⟩
  | keepShape name found =>
    exact ⟨trivial, forall_lookup_cons hs.shapes_eq h, hs.members_eq⟩
  | knownMember k => exact ⟨fun found hfound => hs.members_eq k found hfound, hs⟩
  | keepMember k found =>
    exact ⟨trivial, hs.shapes_eq, forall_lookup_cons hs.members_eq h⟩
  | note line => exact ⟨trivial, hs⟩
  | countRenamed => exact ⟨trivial, hs⟩
  | countRepaired repair => exact ⟨trivial, hs⟩

theorem SharedAccess.perform_tally (access : SharedAccess) (s : RunState) :
    (access.perform s).2.tally = access.trace + s.tally := by
  cases access with
  | note line =>
    show (↑(SharedAccess.note line :: s.renames.lines.map SharedAccess.note) :
      Multiset SharedAccess) + _ = _
    rw [← Multiset.cons_coe, ← Multiset.singleton_add, add_assoc]
    rfl
  | countRenamed =>
    show _ + (Multiset.replicate (s.renames.changed + 1) SharedAccess.countRenamed + _) = _
    rw [Multiset.replicate_succ, ← Multiset.singleton_add, add_assoc, add_left_comm]
    rfl
  | countRepaired r =>
    show _ + (_ + (↑(SharedAccess.countRepaired r :: s.made.map SharedAccess.countRepaired) :
      Multiset SharedAccess)) = _
    rw [← Multiset.cons_coe, ← Multiset.singleton_add, add_left_comm (Multiset.replicate _ _),
      add_left_comm]
    rfl
  | _ => exact (zero_add _).symm

/-! ## Work -/

namespace Work

variable {r : Remapper} {α β : Type}

/-- Whatever it finds, the work ends with the outcome `a` and leaves the lines and counts `log`, and
it keeps nothing but the truth, provided that all it finds is true. -/
def Settles (r : Remapper) : Work α → α → Multiset SharedAccess → Prop
  | .done b, a, log => b = a ∧ log = 0
  | .step access next, a, log => access.IsTrue r ∧ ∃ rest, log = access.trace + rest ∧
      ∀ answer, access.MayFind r answer → Settles r (next answer) a rest

namespace Settles

theorem pure (a : α) : Settles r (Pure.pure a) a 0 :=
  ⟨rfl, rfl⟩

theorem bind {x : Work α} {f : α → Work β} {a : α} {b : β} {log log' : Multiset SharedAccess}
    (hx : Settles r x a log) (hf : Settles r (f a) b log') :
    Settles r (x >>= f) b (log + log') := by
  induction x generalizing log with
  | done c =>
    obtain ⟨rfl, rfl⟩ := hx
    rw [zero_add]
    exact hf
  | step access next ih =>
    obtain ⟨htrue, rest, rfl, hnext⟩ := hx
    refine ⟨htrue, rest + log', add_assoc _ _ _, fun answer hanswer => ?_⟩
    exact ih answer (hnext answer hanswer)

/-- Work behind work that leaves nothing. -/
theorem bind_silent {x : Work α} {f : α → Work β} {a : α} {b : β} {log : Multiset SharedAccess}
    (hx : Settles r x a 0) (hf : Settles r (f a) b log) : Settles r (x >>= f) b log :=
  zero_add log ▸ hx.bind hf

/-- An access about answers, and what follows whatever it finds. -/
theorem access_bind (access : SharedAccess) (htrue : access.IsTrue r) (hsilent : access.trace = 0)
    {f : access.Answer → Work β} {b : β} {log : Multiset SharedAccess}
    (hf : ∀ answer, access.MayFind r answer → Settles r (f answer) b log) :
    Settles r (Work.access access >>= f) b log :=
  ⟨htrue, log, by rw [hsilent, zero_add], hf⟩

/-- Work that leaves nothing comes to its outcome. -/
def comesTo (r : Remapper) : ComesTo Work where
  rel x a := Settles r x a 0
  pure := .pure
  bind := .bind_silent

/-- The shape of a class is found, kept or not. -/
theorem shape (r : Remapper) (name : String) :
    Settles r (Work.shape r.classPath name) (r.classPath.find? name) 0 := by
  refine access_bind (.knownShape name) trivial rfl fun known hknown => ?_
  rcases known with _ | known
  · exact access_bind (.keepShape name _) rfl rfl fun _ _ => .pure _
  · obtain rfl := hknown known rfl
    exact .pure _

/-- So is the new name of a member. -/
theorem memberName (k : MemberKey) : Settles r (Work.memberName r k) (r.memberName k) 0 := by
  unfold Work.memberName recallMemberWith MemberKey.nameWith Remapper.memberName
  rw [← plainSearch]
  split
  · exact .pure _
  refine access_bind (.knownMember k) trivial rfl fun known hknown => ?_
  rcases known with _ | known
  · -- A search that fails is not kept, and one that ends is kept with its answer.
    refine (search_comesTo (comesTo r) r (Work.shape r.classPath) (shape r) k).bind_silent ?_
    rcases hfound : r.plainSearch k with e | found
    · exact .pure _
    · exact access_bind (.keepMember k found) hfound rfl fun _ _ => .pure _
  · rw [hknown known rfl]
    exact .pure _

end Settles

end Work

end JarRemap
