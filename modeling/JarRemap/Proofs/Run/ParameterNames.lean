import JarRemap.Proofs.Run.Plain
import JarRemap.Proofs.SideBySide
import Mathlib.Data.List.Sort
import Mathlib.Data.String.Basic

/-!
# The names of parameters without code

An abstract or native method with parameters has a line in the resource that a renaming generates
(`IsParameterLine`). What the stages make of a class notes exactly the lines of its methods
(`Chain.plainEntry_notes`), and the resource holds the noted lines in strict order.
-/

namespace JarRemap

open Remapper

/-! ## Lines in order -/

/-- Of a row in order, one of each run of equal texts is left. -/
theorem eraseReps_loop (a : String) (l done : List String) (h : (a :: l).Pairwise (· ≤ ·)) :
    ∃ rest, List.eraseRepsBy.loop (· == ·) a l done = done.reverse ++ a :: rest ∧
      (a :: rest).Pairwise (· < ·) ∧ ∀ x, x ∈ a :: rest ↔ x ∈ a :: l := by
  induction l generalizing a done with
  | nil => exact ⟨[], List.reverse_cons, List.pairwise_singleton _ _, fun _ => Iff.rfl⟩
  | cons b l ih =>
    obtain ⟨hhead, htail⟩ := List.pairwise_cons.1 h
    have hab : a ≤ b := hhead b List.mem_cons_self
    by_cases heq : a = b
    · subst heq
      obtain ⟨rest, hloop, hsorted, hmem⟩ := ih a done htail
      refine ⟨rest, ?_, hsorted, fun x => ?_⟩
      · rw [List.eraseRepsBy.loop, BEq.rfl]
        exact hloop
      · rw [hmem x, List.mem_cons, List.mem_cons (a := x), List.mem_cons, ← or_assoc, or_self]
    · obtain ⟨rest, hloop, hsorted, hmem⟩ := ih b (a :: done) htail
      refine ⟨b :: rest, ?_, ?_, fun x => ?_⟩
      · rw [List.eraseRepsBy.loop, beq_false_of_ne heq]
        rw [hloop, List.reverse_cons, List.append_assoc, List.singleton_append]
      · refine List.pairwise_cons.2 ⟨fun x hx => ?_, hsorted⟩
        rcases List.mem_cons.1 hx with rfl | hx
        · exact lt_of_le_of_ne hab heq
        · exact lt_of_le_of_lt hab ((List.pairwise_cons.1 hsorted).1 x hx)
      · rw [List.mem_cons, hmem x, ← List.mem_cons]

/-- The lines are in strict order, and none is lost. -/
theorem sortedLines_spec (lines : List String) :
    (sortedLines lines).Pairwise (· < ·) ∧ ∀ line, line ∈ sortedLines lines ↔ line ∈ lines := by
  unfold sortedLines
  have hsorted : (lines.mergeSort fun a b => !decide (b < a)).Pairwise (· ≤ ·) := by
    have hle (a b : String) : (!decide (b < a)) = true ↔ a ≤ b := by
      rw [Bool.not_eq_true', decide_eq_false_iff_not, String.not_lt]
    have h := @List.pairwise_mergeSort String (fun a b => !decide (b < a)) ?_ ?_ lines
    · exact h.imp fun hab => (hle _ _).1 hab
    · intro a b c hab hbc
      exact (hle a c).2 (((hle a b).1 hab).trans ((hle b c).1 hbc))
    · intro a b
      rw [Bool.or_eq_true, hle, hle]
      exact le_total a b
  have hmem (line : String) : line ∈ (lines.mergeSort fun a b => !decide (b < a)) ↔ line ∈ lines :=
    List.mem_mergeSort
  rcases hl : lines.mergeSort fun a b => !decide (b < a) with _ | ⟨a, l⟩
  · rw [hl] at hmem
    exact ⟨List.Pairwise.nil, hmem⟩
  · rw [hl] at hmem hsorted
    obtain ⟨rest, hloop, hstrict, hsame⟩ := eraseReps_loop a l [] hsorted
    have herase : (a :: l).eraseReps = a :: rest := hloop
    rw [herase]
    exact ⟨hstrict, fun line => (hsame line).trans (hmem line)⟩

/-- So only which lines there are decides on the outcome. -/
theorem sortedLines_congr {lines lines' : List String} (h : ∀ line, line ∈ lines ↔ line ∈ lines') :
    sortedLines lines = sortedLines lines' := by
  obtain ⟨hsorted, hmem⟩ := sortedLines_spec lines
  obtain ⟨hsorted', hmem'⟩ := sortedLines_spec lines'
  refine hsorted.eq_of_mem_iff hsorted' fun line => ?_
  rw [hmem, hmem', h]

/-! ## The line of a method -/

/-- The method has no code, but parameters. -/
def Member.HasBareParameters (pool : ConstantPool) (method : Member) : Prop :=
  (method.access.contains .abstractFlag ∨ method.access.contains .nativeFlag) ∧
    ∃ descriptor type, pool.text method.descriptor = .ok descriptor ∧
      MethodDescriptor.parse descriptor = .ok type ∧ type.params ≠ []

/-- What the line of a method says: the new names of its class and the method, the new descriptor,
and for the slot of each parameter the name in the table, or one that is made from the slot. -/
def IsParameterLine (r : Remapper) (owner : String) (pool : ConstantPool) (method : Member)
    (line : String) : Prop :=
  ∃ name descriptor type newName newDescriptor,
    pool.text method.name = .ok name ∧ pool.text method.descriptor = .ok descriptor ∧
    MethodDescriptor.parse descriptor = .ok type ∧
    r.memberName { kind := .method, owner, name, descriptor } = .ok newName ∧
    renameDescriptor r.table.newClassName descriptor = .ok newDescriptor ∧
    line = " ".intercalate (r.table.newClassName owner :: newName :: newDescriptor ::
      (type.paramSlotIndices (method.access.contains .staticFlag)).map fun slot =>
        (r.table.parameterName? owner name descriptor slot).getD s!"var{slot}")

/-- A single flag is set or not. -/
theorem AccessFlags.and_twoPow (bits : UInt16) (i : Nat) :
    bits &&& ⟨BitVec.twoPow 16 i⟩ = ⟨BitVec.twoPow 16 i⟩ ∨ bits &&& ⟨BitVec.twoPow 16 i⟩ = 0 := by
  rw [← UInt16.toBitVec_inj, ← UInt16.toBitVec_inj, UInt16.toBitVec_and, BitVec.and_twoPow]
  split
  · exact .inl rfl
  · exact .inr rfl

theorem AccessFlags.intersects_union (flags : AccessFlags) :
    flags.intersects ⟨abstractFlag.bits ||| nativeFlag.bits⟩ = true ↔
      flags.contains .abstractFlag = true ∨ flags.contains .nativeFlag = true := by
  have hunion : flags.bits &&& (abstractFlag.bits ||| nativeFlag.bits) =
      (flags.bits &&& abstractFlag.bits) ||| (flags.bits &&& nativeFlag.bits) := by
    rw [← UInt16.toBitVec_inj]
    exact BitVec.and_or_distrib_left
  have habstract : flags.bits &&& abstractFlag.bits = abstractFlag.bits ∨
      flags.bits &&& abstractFlag.bits = 0 := and_twoPow flags.bits 10
  have hnative : flags.bits &&& nativeFlag.bits = nativeFlag.bits ∨
      flags.bits &&& nativeFlag.bits = 0 := and_twoPow flags.bits 8
  unfold intersects contains
  rw [hunion]
  rcases habstract with ha | ha <;> rcases hnative with hn | hn <;> rw [ha, hn] <;> decide

/-- The name of a member, or why there is none. -/
def Remapper.nameOrFail (r : Remapper) (k : MemberKey) : Except TransformError String :=
  orFail .hierarchy (r.memberName k)

/-- A method gets a line exactly if it has no code, but parameters, and it gets the line for it. -/
theorem parameterLine?_ok {r : Remapper} {owner : String} {pool : ConstantPool} {method : Member}
    {found : Option String}
    (h : parameterLine? r.table r.nameOrFail owner pool method = .ok found) :
    (method.HasBareParameters pool ↔ ∃ line, found = some line) ∧
      ∀ line, found = some line → IsParameterLine r owner pool method line := by
  unfold parameterLine? at h
  by_cases hflags :
      method.access.intersects
        ⟨AccessFlags.abstractFlag.bits ||| AccessFlags.nativeFlag.bits⟩ = true
  case neg =>
    rw [Bool.not_eq_true] at hflags
    rw [hflags] at h
    obtain rfl : none = found := Except.ok.inj h
    refine ⟨iff_of_false (fun hbare => ?_) (fun ⟨_, hline⟩ => nomatch hline), nofun⟩
    have hset := (AccessFlags.intersects_union _).2 hbare.1
    rw [hflags] at hset
    exact Bool.false_ne_true hset
  rw [hflags] at h
  obtain ⟨name, hname, h⟩ := except_bind_ok_iff.1 h
  obtain ⟨descriptor, hdescriptor, h⟩ := except_bind_ok_iff.1 h
  obtain ⟨type, htype, h⟩ := except_bind_ok_iff.1 h
  rw [orFail_ok_iff] at hname hdescriptor htype
  by_cases hparams : type.params = []
  · rw [hparams] at h
    obtain rfl : none = found := Except.ok.inj h
    refine ⟨iff_of_false ?_ (fun ⟨_, hline⟩ => nomatch hline), nofun⟩
    rintro ⟨-, descriptor', type', hdescriptor', htype', hparams'⟩
    obtain rfl := Except.ok.inj (hdescriptor.symm.trans hdescriptor')
    obtain rfl := Except.ok.inj (htype.symm.trans htype')
    exact hparams' hparams
  rw [if_neg (by rwa [List.isEmpty_iff])] at h
  obtain ⟨newName, hnewName, h⟩ := except_bind_ok_iff.1 h
  obtain ⟨newDescriptor, hnewDescriptor, h⟩ := except_bind_ok_iff.1 h
  unfold nameOrFail at hnewName
  rw [orFail_ok_iff] at hnewName hnewDescriptor
  obtain rfl := Except.ok.inj h
  refine ⟨iff_of_true ⟨(AccessFlags.intersects_union _).1 hflags, ?_⟩ ⟨_, rfl⟩, ?_⟩
  · exact ⟨descriptor, type, hdescriptor, htype, hparams⟩
  · intro line hline
    obtain rfl := Option.some.inj hline
    exact ⟨name, descriptor, type, newName, newDescriptor, hname, hdescriptor, htype, hnewName,
      hnewDescriptor, rfl⟩

/-- There is at most one line for a method. -/
theorem IsParameterLine.unique {r : Remapper} {owner : String} {pool : ConstantPool}
    {method : Member} {line line' : String} (h : IsParameterLine r owner pool method line)
    (h' : IsParameterLine r owner pool method line') : line = line' := by
  obtain ⟨name, descriptor, type, newName, newDescriptor, hname, hdescriptor, htype, hnewName,
    hnewDescriptor, rfl⟩ := h
  obtain ⟨name', descriptor', type', newName', newDescriptor', hname', hdescriptor', htype',
    hnewName', hnewDescriptor', rfl⟩ := h'
  obtain rfl := Except.ok.inj (hname.symm.trans hname')
  obtain rfl := Except.ok.inj (hdescriptor.symm.trans hdescriptor')
  obtain rfl := Except.ok.inj (htype.symm.trans htype')
  obtain rfl := Except.ok.inj (hnewName.symm.trans hnewName')
  obtain rfl := Except.ok.inj (hnewDescriptor.symm.trans hnewDescriptor')
  rfl

/-! ## What the stages note -/

namespace Plain

variable {α β : Type}

/-- Plain computations that leave nothing are composed as those that only may fail. -/
def quiet : Alike Plain (Except TransformError) where
  rel x y := ∀ before, x before = (y, before)
  pure _ _ := rfl
  throw _ _ := rfl
  bind {α β x y f g} hx hf before := by
    have hplain : (x >>= f) before = ExceptT.bindCont f (x before).1 (x before).2 := rfl
    rw [hplain, hx before]
    rcases y with e | a
    · rfl
    · exact hf a before

theorem quiet_memberName (r : Remapper) (k : MemberKey) :
    quiet.rel (Plain.memberName r k) (r.nameOrFail k) :=
  quiet.orFail _ _

variable {before after : Multiset SharedAccess}

/-- A failure that is passed on in other words is none that is dealt with. -/
theorem tryCatch_ok {x : Plain α} {wrap : TransformError → TransformError} {a : α}
    (h : (tryCatch x fun e => throw (wrap e) : Plain α) before = (.ok a, after)) :
    x before = (.ok a, after) := by
  rw [tryCatch_apply] at h
  rcases hx : x before with ⟨e | b, between⟩
  · rw [hx] at h
    exact nomatch congrArg Prod.fst h
  · rw [hx] at h
    exact h

end Plain

/-- What becomes of the noted lines when methods of a class are read. -/
structure NotesLines (r : Remapper) (owner : String) (pool : ConstantPool) (methods : List Member)
    (before after : Multiset SharedAccess) : Prop where
  named : ∀ method ∈ methods, method.HasBareParameters pool →
    ∃ line, IsParameterLine r owner pool method line
  mem_iff : ∀ line, SharedAccess.note line ∈ after ↔
    (∃ method ∈ methods, method.HasBareParameters pool ∧
      IsParameterLine r owner pool method line) ∨ SharedAccess.note line ∈ before

/-- Notes the line of a method, if it needs one. -/
def Plain.noteMethod (r : Remapper) (owner : String) (pool : ConstantPool) (method : Member) :
    Plain Unit := do
  match ← parameterLine? r.table (Plain.memberName r) owner pool method with
  | some line => Plain.leave (.note line)
  | none => return ()

namespace NotesLines

variable {r : Remapper} {owner : String} {pool : ConstantPool} {methods : List Member}
  {before after : Multiset SharedAccess}

theorem nil : NotesLines r owner pool [] before before := by
  refine ⟨(fun method hmem => nomatch hmem), fun line => ⟨.inr, ?_⟩⟩
  rintro (⟨method, hmem, -⟩ | hbefore)
  · cases hmem
  · exact hbefore

theorem of_method {method : Member}
    (h : Plain.noteMethod r owner pool method before = (.ok (), after)) :
    NotesLines r owner pool [method] before after := by
  obtain ⟨found, between, hfound, h⟩ := bind_stateful_ok_iff.1 h
  have hquiet := Alike.parameterLine? (R := Plain.quiet) (Plain.quiet_memberName r) r.table owner
    pool method before
  rw [hquiet] at hfound
  obtain rfl : before = between := congrArg Prod.snd hfound
  obtain ⟨hbare, hline⟩ := parameterLine?_ok (congrArg Prod.fst hfound)
  rcases found with _ | line
  · obtain rfl : before = after := congrArg Prod.snd h
    have hnone : ¬ method.HasBareParameters pool := fun hmethod => by
      obtain ⟨_, hsome⟩ := hbare.1 hmethod
      cases hsome
    refine ⟨fun m hm hmethod => ?_, fun line => ⟨.inr, ?_⟩⟩
    · obtain rfl := List.mem_singleton.1 hm
      exact absurd hmethod hnone
    · rintro (⟨m, hm, hmethod, -⟩ | hbefore)
      · obtain rfl := List.mem_singleton.1 hm
        exact absurd hmethod hnone
      · exact hbefore
  · obtain rfl : {.note line} + before = after := congrArg Prod.snd h
    have hmethod : method.HasBareParameters pool := hbare.2 ⟨line, rfl⟩
    have hown := hline line rfl
    refine ⟨fun m hm _ => ?_, fun line' => ?_⟩
    · obtain rfl := List.mem_singleton.1 hm
      exact ⟨line, hown⟩
    · rw [Multiset.mem_add, Multiset.mem_singleton, SharedAccess.note.injEq]
      refine or_congr_left ⟨?_, ?_⟩
      · rintro rfl
        exact ⟨method, List.mem_cons_self, hmethod, hown⟩
      · rintro ⟨m, hm, -, hline'⟩
        obtain rfl := List.mem_singleton.1 hm
        exact hline'.unique hown

theorem append {methods' : List Member} {between : Multiset SharedAccess}
    (h : NotesLines r owner pool methods before between)
    (h' : NotesLines r owner pool methods' between after) :
    NotesLines r owner pool (methods ++ methods') before after := by
  refine ⟨fun method hmem hmethod => ?_, fun line => ?_⟩
  · rcases List.mem_append.1 hmem with hmem | hmem
    · exact h.named method hmem hmethod
    · exact h'.named method hmem hmethod
  · rw [h'.mem_iff, h.mem_iff, ← or_assoc]
    refine or_congr_left ⟨?_, ?_⟩
    · rintro (⟨method, hmem, hline⟩ | ⟨method, hmem, hline⟩)
      · exact ⟨method, List.mem_append_right _ hmem, hline⟩
      · exact ⟨method, List.mem_append_left _ hmem, hline⟩
    · rintro ⟨method, hmem, hline⟩
      rcases List.mem_append.1 hmem with hmem | hmem
      · exact .inr ⟨method, hmem, hline⟩
      · exact .inl ⟨method, hmem, hline⟩

theorem of_forM (h : methods.forM (Plain.noteMethod r owner pool) before = (.ok (), after)) :
    NotesLines r owner pool methods before after := by
  induction methods generalizing before with
  | nil =>
    obtain rfl : before = after := congrArg Prod.snd h
    exact .nil
  | cons method methods ih =>
    obtain ⟨⟨⟩, between, hmethod, h⟩ := bind_stateful_ok_iff.1 h
    exact (of_method hmethod).append (ih h)

end NotesLines

theorem NotesLines.of_rename? {r : Remapper} {e : ClassEntry} {made : Option ClassEntry}
    {before after : Multiset SharedAccess}
    (h : e.rename? r.table (Plain.memberName r) (fun line => Plain.leave (.note line)) before =
      (.ok made, after)) :
    ∃ file owner, ClassFile.parse e.data = .ok file ∧ file.name = .ok owner ∧
      NotesLines r owner file.pool file.methods before after := by
  obtain ⟨file, start, hread, hnamed⟩ := bind_stateful_ok_iff.1 h
  obtain ⟨hfile, rfl⟩ := orFail_stateful_ok_iff.1 hread
  obtain ⟨owner, start, hread', hnoted⟩ := bind_stateful_ok_iff.1 hnamed
  obtain ⟨howner, rfl⟩ := orFail_stateful_ok_iff.1 hread'
  obtain ⟨⟨⟩, noted, hlines, hrenamed⟩ := bind_stateful_ok_iff.1 hnoted
  obtain ⟨renamed, last, hrename, hmade⟩ := bind_stateful_ok_iff.1 hrenamed
  have hquiet := Alike.rename (R := Plain.quiet) (Plain.quiet_memberName r) r.table owner
    file noted
  obtain rfl : last = noted := congrArg Prod.snd (hrename.symm.trans hquiet)
  obtain rfl : after = last := by
    split at hmade <;> exact (congrArg Prod.snd hmade).symm
  exact ⟨file, owner, hfile, howner, .of_forM hlines⟩

/-! ## Entries -/

/-- The entry is a class with this method, which has no code, but parameters. -/
def Entry.HasBareMethod (e : Entry) (owner : String) (file : ClassFile) (method : Member) : Prop :=
  ∃ c, e = .ofClass c ∧ ClassFile.parse c.data = .ok file ∧ file.name = .ok owner ∧
    method ∈ file.methods ∧ method.HasBareParameters file.pool

namespace Chain

variable (chain : Chain)

/-- The line belongs to a method in the entry, and there is a table. -/
def IsLineIn (e : Entry) (line : String) : Prop :=
  ∃ table, chain.table = some table ∧ ∃ owner file method, e.HasBareMethod owner file method ∧
    IsParameterLine ⟨table, chain.classPath⟩ owner file.pool method line

/-- What the stages note of an entry: the lines of its methods, and each of them has one. -/
structure NotesEntry (e : Entry) (before after : Multiset SharedAccess) : Prop where
  mem_iff : ∀ line, .note line ∈ after ↔ chain.IsLineIn e line ∨ .note line ∈ before
  named : ∀ table, chain.table = some table → ∀ owner file method,
    e.HasBareMethod owner file method →
      ∃ line, IsParameterLine ⟨table, chain.classPath⟩ owner file.pool method line

variable {chain} {before after : Multiset SharedAccess}

theorem plainRepair_notes {e made : ClassEntry} {repair : Repair}
    (h : chain.plainRepair e repair before = (.ok made, after)) (line : String) :
    .note line ∈ after ↔ .note line ∈ before := by
  obtain ⟨found, between, hfound, h⟩ := bind_stateful_ok_iff.1 h
  obtain ⟨-, rfl⟩ := orFail_stateful_ok_iff.1 (Plain.tryCatch_ok hfound)
  rcases found with _ | repaired
  · obtain rfl : between = after := congrArg Prod.snd h
    exact Iff.rfl
  · obtain rfl : {.countRepaired repair} + between = after := congrArg Prod.snd h
    rw [Multiset.mem_add, Multiset.mem_singleton, or_iff_right (fun hsame => nomatch hsame)]

theorem plainRepairs_notes {e made : ClassEntry} {repairs : List Repair}
    (h : repairs.foldlM chain.plainRepair e before = (.ok made, after)) (line : String) :
    .note line ∈ after ↔ .note line ∈ before := by
  induction repairs generalizing e before with
  | nil =>
    obtain rfl : before = after := congrArg Prod.snd h
    exact Iff.rfl
  | cons repair repairs ih =>
    obtain ⟨repaired, between, hrepaired, h⟩ := bind_stateful_ok_iff.1 h
    exact (ih h).trans (plainRepair_notes hrepaired line)

theorem plainClass_notes {c made : ClassEntry}
    (h : chain.plainClass c before = (.ok made, after)) :
    chain.NotesEntry (.ofClass c) before after := by
  obtain ⟨renamed, between, hrenamed, hrepaired⟩ := bind_stateful_ok_iff.1 h
  have hrepairs := plainRepairs_notes hrepaired
  rcases htable : chain.table with _ | table
  · unfold plainRename at hrenamed
    rw [htable] at hrenamed
    obtain rfl : before = between := congrArg Prod.snd hrenamed
    refine ⟨fun line => (hrepairs line).trans ⟨.inr, ?_⟩, fun table hsome => ?_⟩
    · rintro (⟨table, hsome, -⟩ | hbefore)
      · exact nomatch htable.symm.trans hsome
      · exact hbefore
    · exact nomatch htable.symm.trans hsome
  · unfold plainRename at hrenamed
    rw [htable] at hrenamed
    obtain ⟨found, noted, hfound, hcounted⟩ := bind_stateful_ok_iff.1 (Plain.tryCatch_ok hrenamed)
    obtain ⟨file, owner, hfile, howner, hnotes⟩ :=
      NotesLines.of_rename? (r := ⟨table, chain.classPath⟩) hfound
    have hcount (line : String) : .note line ∈ between ↔ .note line ∈ noted := by
      rcases found with _ | renamed
      · obtain rfl : noted = between := congrArg Prod.snd hcounted
        exact Iff.rfl
      · obtain rfl : {.countRenamed} + noted = between := congrArg Prod.snd hcounted
        rw [Multiset.mem_add, Multiset.mem_singleton, or_iff_right (fun hsame => nomatch hsame)]
    refine ⟨fun line => ?_, ?_⟩
    · rw [hrepairs, hcount, hnotes.mem_iff]
      refine or_congr_left ⟨?_, ?_⟩
      · rintro ⟨method, hmem, hbare, hline⟩
        exact ⟨table, htable, owner, file, method, ⟨c, rfl, hfile, howner, hmem, hbare⟩, hline⟩
      · rintro ⟨table', htable', owner', file', method,
          ⟨c', hc, hfile', howner', hmem, hbare⟩, hline⟩
        obtain rfl := Option.some.inj (htable.symm.trans htable')
        obtain rfl := Entry.ofClass.inj hc
        obtain rfl := Except.ok.inj (hfile.symm.trans hfile')
        obtain rfl := Except.ok.inj (howner.symm.trans howner')
        exact ⟨method, hmem, hbare, hline⟩
    · rintro table' htable' owner' file' method ⟨c', hc, hfile', howner', hmem, hbare⟩
      obtain rfl := Option.some.inj (htable.symm.trans htable')
      obtain rfl := Entry.ofClass.inj hc
      obtain rfl := Except.ok.inj (hfile.symm.trans hfile')
      obtain rfl := Except.ok.inj (howner.symm.trans howner')
      exact hnotes.named method hmem hbare

theorem plainEntry_notes {e : Entry} {made : Option Entry}
    (h : chain.plainEntry e before = (.ok made, after)) :
    chain.NotesEntry e before after := by
  have hother (hsame : before = after) (hno : ∀ c, e ≠ .ofClass c) :
      chain.NotesEntry e before after := by
    obtain rfl := hsame
    refine ⟨fun line => ⟨.inr, ?_⟩, ?_⟩
    · rintro (⟨_, _, _, _, _, ⟨c, hc, -⟩, -⟩ | hbefore)
      · exact absurd hc (hno c)
      · exact hbefore
    · rintro _ _ _ _ _ ⟨c, hc, -⟩
      exact absurd hc (hno c)
  cases e with
  | manifest r => exact hother (congrArg Prod.snd h) nofun
  | resource r => exact hother (congrArg Prod.snd h) nofun
  | ofClass c =>
    obtain ⟨processed, between, hprocessed, hdone⟩ := bind_stateful_ok_iff.1 h
    obtain rfl : between = after := congrArg Prod.snd hdone
    exact plainClass_notes hprocessed

/-- Where there is a table, no resource of an earlier run passes. -/
theorem plainEntry_resource {e : Entry} {r : ResourceEntry}
    (h : chain.plainEntry e before = (.ok (some (.resource r)), after))
    (htable : chain.table.isSome) : r.path ≠ parameterNamesPath := by
  cases e with
  | manifest r' => exact nomatch congrArg Prod.fst h
  | ofClass c =>
    obtain ⟨processed, between, -, hdone⟩ := bind_stateful_ok_iff.1 h
    exact nomatch congrArg Prod.fst hdone
  | resource r' =>
    have hmade : (chain.processResource r').map Entry.resource = some (.resource r) :=
      Except.ok.inj (congrArg Prod.fst h)
    unfold processResource renameResource at hmade
    rw [if_pos htable] at hmade
    split at hmade
    · exact nomatch hmade
    · obtain rfl := Entry.resource.inj (Option.some.inj hmade)
      assumption

end Chain

end JarRemap
