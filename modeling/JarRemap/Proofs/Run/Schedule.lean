import JarRemap.Proofs.Run.ParameterNames
import Mathlib.Data.Set.List
import Mathlib.Logic.Hydra
import Mathlib.Tactic.Abel

/-!
# Schedules

Workers take the entries of an archive through the chain side by side. A moment of a run is what is
left to do for each entry, and what has been gathered by then. Whoever is next does one access to
what is shared; nothing else is said about the order. A run is over when every entry is done, and it
may also be given up as soon as one of them has failed.

What is left to do always settles with what the stages make of each entry, whatever has been done by
then (`Moment.OnCourse`). So no schedule is endless, none gets stuck, and all agree on whether the
run fails and on what it gives otherwise (`Chain.schedules_agree`).
-/

namespace JarRemap

/-- What is left to do for an entry. -/
abbrev EntryWork := Work (Except TransformError (Option Entry))

/-- A moment of a run. -/
structure Moment where
  left : List EntryWork
  shared : RunState

namespace Moment

/-- One worker does its next access. -/
inductive Step : Moment → Moment → Prop where
  | access (before after : List EntryWork) (op : SharedAccess) (next : op.Answer → EntryWork)
      (shared : RunState) :
      Step ⟨before ++ .step op next :: after, shared⟩
        ⟨before ++ next (op.perform shared).1 :: after, (op.perform shared).2⟩

/-- Some accesses are done, one after the other. -/
def Steps : Moment → Moment → Prop :=
  Relation.ReflTransGen Step

/-- The run may end at this moment, with an error or with what has become of the entries. -/
inductive Ends : Moment → Except TransformError (List (Option Entry) × RunState) → Prop where
  | failed (left : List EntryWork) (cause : TransformError) (shared : RunState)
      (h : .done (.error cause) ∈ left) : Ends ⟨left, shared⟩ (.error cause)
  | finished (processed : List (Option Entry)) (shared : RunState) :
      Ends ⟨processed.map fun e => .done (.ok e), shared⟩ (.ok (processed, shared))

end Moment

namespace Chain

/-- The moment before the first access. -/
def start (chain : Chain) (entries : List Entry) : Moment :=
  ⟨entries.map fun e => (chain.processEntry e).run, .start⟩

/-- Some schedule takes the entries to this result. -/
def MayReturn (chain : Chain) (entries : List Entry)
    (result : Except TransformError (List Entry × RunReport)) : Prop :=
  ∃ m outcome, Moment.Steps (chain.start entries) m ∧ m.Ends outcome ∧
    result = outcome.map fun (processed, s) => chain.conclude entries processed s

end Chain

/-! ## No schedule is endless or gets stuck -/

/-- The work goes on with this after its next access. -/
inductive Work.Next {α : Type} : Work α → Work α → Prop where
  | answer (op : SharedAccess) (next : op.Answer → Work α) (answer : op.Answer) :
      Next (next answer) (.step op next)

theorem Work.next_wellFounded (α : Type) : WellFounded (Work.Next (α := α)) := by
  refine ⟨fun w => ?_⟩
  induction w with
  | done a => exact ⟨_, fun w h => nomatch h⟩
  | step op next ih =>
    refine ⟨_, fun w h => ?_⟩
    cases h with
    | answer op next answer => exact ih answer

/-- Among all that is left, a step replaces one work by what is left of it. -/
theorem Moment.step_wellFounded : WellFounded (fun m' m : Moment => m.Step m') := by
  refine Subrelation.wf (fun {m' m} h => ?_)
    (InvImage.wf (fun m : Moment => (m.left : Multiset EntryWork))
      (Work.next_wellFounded _).cutExpand)
  cases h with
  | access before after op next shared =>
    refine ⟨{next (op.perform shared).1}, .step op next, ?_, ?_⟩
    · intro w hw
      obtain rfl := Multiset.mem_singleton.1 hw
      exact .answer op next _
    · show (↑(before ++ _ :: after) : Multiset EntryWork) + _ = ↑(before ++ _ :: after) + _
      simp only [← Multiset.coe_add, ← Multiset.cons_coe, ← Multiset.singleton_add]
      abel

/-- As long as something is left to do, it can be done. -/
theorem Moment.step_or_ends (m : Moment) : (∃ m', m.Step m') ∨ ∃ outcome, m.Ends outcome := by
  obtain ⟨left, shared⟩ := m
  by_cases hleft : ∃ op next, .step op next ∈ left
  · obtain ⟨op, next, hmem⟩ := hleft
    obtain ⟨before, after, rfl⟩ := List.append_of_mem hmem
    exact .inl ⟨_, .access before after op next shared⟩
  by_cases hfailed : ∃ cause, .done (.error cause) ∈ left
  · obtain ⟨cause, hmem⟩ := hfailed
    exact .inr ⟨_, .failed left cause shared hmem⟩
  have hdone : left ∈ Set.range (List.map fun e : Option Entry => (.done (.ok e) : EntryWork)) := by
    rw [Set.range_list_map]
    intro w hw
    rcases w with ⟨cause | e⟩ | ⟨op, next⟩
    · exact absurd ⟨cause, hw⟩ hfailed
    · exact ⟨e, rfl⟩
    · exact absurd ⟨op, next, hw⟩ hleft
  obtain ⟨processed, rfl⟩ := hdone
  exact .inr ⟨_, .finished processed shared⟩

/-! ## All schedules agree -/

/-- Works settle side by side, each with its own outcome. -/
inductive SettleAll (r : Remapper) :
    List EntryWork → List (Except TransformError (Option Entry)) → Multiset SharedAccess → Prop
  | nil : SettleAll r [] [] 0
  | cons {w : EntryWork} {outcome : Except TransformError (Option Entry)} {ws : List EntryWork}
      {outcomes : List (Except TransformError (Option Entry))} {log logs : Multiset SharedAccess}
      (head : w.Settles r outcome log) (tail : SettleAll r ws outcomes logs) :
      SettleAll r (w :: ws) (outcome :: outcomes) (log + logs)

namespace SettleAll

variable {r : Remapper} {ws : List EntryWork}
  {outcomes : List (Except TransformError (Option Entry))} {log : Multiset SharedAccess}

/-- An access of one of several works is like that of a single one. -/
theorem access {before after : List EntryWork} {op : SharedAccess} {next : op.Answer → EntryWork}
    (h : SettleAll r (before ++ .step op next :: after) outcomes log) :
    op.IsTrue r ∧ ∃ rest, log = op.trace + rest ∧ ∀ answer, op.MayFind r answer →
      SettleAll r (before ++ next answer :: after) outcomes rest := by
  induction before generalizing outcomes log with
  | nil =>
    cases h with
    | cons head tail =>
      obtain ⟨htrue, rest, rfl, hnext⟩ := head
      refine ⟨htrue, rest + _, add_assoc _ _ _, fun answer hanswer => ?_⟩
      exact .cons (hnext answer hanswer) tail
  | cons w before ih =>
    cases h with
    | @cons _ _ _ _ own others head tail =>
      obtain ⟨htrue, rest, rfl, hnext⟩ := ih tail
      refine ⟨htrue, own + rest, add_left_comm _ _ _, fun answer hanswer => ?_⟩
      exact .cons head (hnext answer hanswer)

/-- Work that is done has come to its outcome. -/
theorem outcome_mem (h : SettleAll r ws outcomes log)
    {outcome : Except TransformError (Option Entry)} (hmem : .done outcome ∈ ws) :
    outcome ∈ outcomes := by
  induction h with
  | nil => cases hmem
  | cons head tail ih =>
    rcases List.mem_cons.1 hmem with rfl | hmem
    · rw [head.1]
      exact List.mem_cons_self
    · exact List.mem_cons_of_mem _ (ih hmem)

/-- Where all is done, nothing more is left. -/
theorem of_done {processed : List (Option Entry)}
    (h : SettleAll r (processed.map fun e => .done (.ok e)) outcomes log) :
    outcomes = processed.map .ok ∧ log = 0 := by
  induction processed generalizing outcomes log with
  | nil =>
    cases h
    exact ⟨rfl, rfl⟩
  | cons e processed ih =>
    cases h with
    | cons head tail =>
      obtain ⟨rfl, rfl⟩ := head
      obtain ⟨rfl, rfl⟩ := ih tail
      exact ⟨rfl, rfl⟩

end SettleAll

/-- At any moment of a run the answers that are kept are true, and what is left settles with the
outcomes, and leaves what is missing of all lines and counts. -/
structure Moment.OnCourse (r : Remapper) (outcomes : List (Except TransformError (Option Entry)))
    (total : Multiset SharedAccess) (m : Moment) : Prop where
  good : m.shared.Good r
  left : ∃ log, SettleAll r m.left outcomes log ∧ log + m.shared.tally = total

namespace Moment.OnCourse

variable {r : Remapper} {outcomes : List (Except TransformError (Option Entry))}
  {total : Multiset SharedAccess} {m m' : Moment}

theorem step (h : m.OnCourse r outcomes total) (hstep : m.Step m') :
    m'.OnCourse r outcomes total := by
  cases hstep with
  | access before after op next shared =>
    obtain ⟨log, hlog, htotal⟩ := h.left
    obtain ⟨htrue, rest, rfl, hnext⟩ := hlog.access
    obtain ⟨hfound, hgood⟩ := SharedAccess.perform_good h.good htrue
    refine ⟨hgood, rest, hnext _ hfound, ?_⟩
    show rest + (op.perform shared).2.tally = total
    rw [op.perform_tally, add_left_comm, ← add_assoc]
    exact htotal

theorem steps (h : m.OnCourse r outcomes total) (hsteps : m.Steps m') :
    m'.OnCourse r outcomes total := by
  induction hsteps with
  | refl => exact h
  | tail _ hstep ih => exact ih.step hstep

/-- A run that fails comes from an entry that does. -/
theorem error_mem (h : m.OnCourse r outcomes total) {cause : TransformError}
    (hends : m.Ends (.error cause)) : .error cause ∈ outcomes := by
  cases hends with
  | failed left cause shared hmem =>
    obtain ⟨log, hlog, -⟩ := h.left
    exact hlog.outcome_mem hmem

/-- A run that does not fail gives the outcomes and has gathered everything. -/
theorem finished (h : m.OnCourse r outcomes total) {processed : List (Option Entry)} {s : RunState}
    (hends : m.Ends (.ok (processed, s))) :
    outcomes = processed.map .ok ∧ s.tally = total := by
  cases hends with
  | finished processed shared =>
    obtain ⟨log, hlog, htotal⟩ := h.left
    obtain ⟨rfl, rfl⟩ := hlog.of_done
    exact ⟨rfl, (zero_add _).symm.trans htotal⟩

end Moment.OnCourse

/-! ## One after the other -/

/-- Work with nobody beside is a schedule, too. -/
theorem Moment.steps_run (before after : List EntryWork) (w : EntryWork) (s : RunState) :
    Moment.Steps ⟨before ++ w :: after, s⟩
      ⟨before ++ .done (Program.run SharedAccess.perform w s).1 :: after,
        (Program.run SharedAccess.perform w s).2⟩ := by
  induction w generalizing s with
  | done outcome => exact .refl
  | step op next ih => exact .head (.access before after op next s) (ih _ _)

namespace Chain

variable {chain : Chain}

/-- The outcomes of the entries of an archive. -/
def plainOutcomes (chain : Chain) (entries : List Entry) :
    List (Except TransformError (Option Entry)) :=
  entries.map fun e => (chain.plainEntry e 0).1

/-- All lines and counts of an archive. -/
def plainTally (chain : Chain) (entries : List Entry) : Multiset SharedAccess :=
  (entries.map fun e => (chain.plainEntry e 0).2).sum

theorem start_onCourse (entries : List Entry) :
    (chain.start entries).OnCourse chain.remapper (chain.plainOutcomes entries)
      (chain.plainTally entries) := by
  refine ⟨⟨nofun, nofun⟩, chain.plainTally entries, ?_, add_zero _⟩
  induction entries with
  | nil => exact .nil
  | cons e entries ih =>
    obtain ⟨log, hlog, hsettles⟩ := chain.processEntry_plainly e 0
    rw [add_zero] at hlog
    show SettleAll _ _ _ ((chain.plainEntry e 0).2 + _)
    rw [hlog]
    exact .cons hsettles ih

/-- What entries come to one after the other, behind those that are done already. -/
theorem perform_steps {entries : List Entry} (first : List (Option Entry)) {s s' : RunState}
    {outcome : Except TransformError (List (Option Entry))}
    (h : (entries.mapM fun e => (chain.processEntry e).perform) s = (outcome, s')) :
    ∃ m, Moment.Steps
        ⟨(first.map fun e => .done (.ok e)) ++ entries.map fun e => (chain.processEntry e).run, s⟩
        m ∧
      m.Ends (outcome.map fun processed => (first ++ processed, s')) := by
  induction entries generalizing first s s' outcome with
  | nil =>
    obtain ⟨rfl, rfl⟩ := Prod.mk.inj h
    rw [List.map_nil, List.append_nil]
    refine ⟨_, .refl, ?_⟩
    show Moment.Ends _ (.ok (first ++ [], s))
    rw [List.append_nil]
    exact .finished first s
  | cons e entries ih =>
    have hsteps := Moment.steps_run (first.map fun e => .done (.ok e))
      (entries.map fun e => (chain.processEntry e).run) (chain.processEntry e).run s
    have hperform : (chain.processEntry e).perform s =
      Program.run SharedAccess.perform (chain.processEntry e).run s := rfl
    rw [List.mapM_cons, bind_stateful, hperform] at h
    rcases hrun : Program.run SharedAccess.perform (chain.processEntry e).run s with
      ⟨cause | made, between⟩
    · rw [hrun] at hsteps h
      obtain ⟨rfl, rfl⟩ := Prod.mk.inj h
      exact ⟨_, hsteps, .failed _ cause _ (List.mem_append_right _ List.mem_cons_self)⟩
    · rw [hrun] at hsteps h
      replace h : ((entries.mapM fun e => (chain.processEntry e).perform) >>= fun rest =>
        pure (made :: rest) : ExceptT TransformError (StateM RunState) _) between =
          (outcome, s') := h
      rw [bind_stateful] at h
      rcases hrest : (entries.mapM fun e => (chain.processEntry e).perform) between with
        ⟨outcome', last⟩
      obtain ⟨m, hm, hends⟩ := ih (first ++ [made]) hrest
      rw [List.map_append, List.append_assoc] at hm
      refine ⟨m, hsteps.trans hm, ?_⟩
      rw [hrest] at h
      rcases outcome' with cause | processed
      · obtain ⟨rfl, rfl⟩ := Prod.mk.inj h
        exact hends
      · obtain ⟨rfl, rfl⟩ := Prod.mk.inj h
        replace hends : m.Ends (.ok (first ++ [made] ++ processed, last)) := hends
        rw [List.append_assoc] at hends
        exact hends

/-- To take the entries one after the other is one of the schedules. -/
theorem process_mayReturn (chain : Chain) (entries : List Entry) :
    chain.MayReturn entries (chain.process entries) := by
  rcases h : (entries.mapM fun e => (chain.processEntry e).perform) .start with ⟨outcome, s⟩
  obtain ⟨m, hsteps, hends⟩ := perform_steps [] h
  refine ⟨m, _, hsteps, hends, ?_⟩
  unfold process
  rw [h]
  rcases outcome with cause | processed
  · rfl
  · rfl

/-! ## The result -/

/-- Of what has been gathered, the result depends on the lines and counts only. -/
theorem conclude_congr {entries : List Entry} {processed : List (Option Entry)} {s s' : RunState}
    (h : s.tally = s'.tally) :
    chain.conclude entries processed s = chain.conclude entries processed s' := by
  have hlines (line : String) : line ∈ s.renames.lines ↔ line ∈ s'.renames.lines := by
    rw [← RunState.note_mem_tally, h, RunState.note_mem_tally]
  have hempty : s.renames.lines.isEmpty = s'.renames.lines.isEmpty := by
    rw [Bool.eq_iff_iff, List.isEmpty_iff, List.isEmpty_iff, List.eq_nil_iff_forall_not_mem,
      List.eq_nil_iff_forall_not_mem]
    exact forall_congr' fun line => not_congr (hlines line)
  have hextras : s.renames.extras = s'.renames.extras := by
    unfold RenamingState.extras
    rw [hempty, sortedLines_congr hlines]
  have hrenamed : s.renames.changed = s'.renames.changed := by
    rw [← s.count_renamed_tally, h, s'.count_renamed_tally]
  have hrepaired (repair : Repair) : s.made.count repair = s'.made.count repair := by
    rw [← s.count_repaired_tally, h, s'.count_repaired_tally]
  unfold conclude changes
  rw [hextras, hrenamed]
  simp only [hrepaired]

/-- Once some schedule succeeds, every entry is as the stages make it, and the lines and counts are
what they leave of all entries. -/
theorem mayReturn_ok {entries : List Entry} {returned : List Entry × RunReport}
    (h : chain.MayReturn entries (.ok returned)) :
    ∃ processed s, returned = chain.conclude entries processed s ∧
      chain.plainOutcomes entries = processed.map .ok ∧ s.tally = chain.plainTally entries := by
  obtain ⟨m, outcome, hsteps, hends, hresult⟩ := h
  rcases outcome with cause | ⟨processed, s⟩
  · cases hresult
  · obtain rfl := Except.ok.inj hresult
    exact ⟨processed, s, rfl, ((start_onCourse entries).steps hsteps).finished hends⟩

/-- A schedule that fails comes from an entry that does. -/
theorem mayReturn_error {entries : List Entry} {cause : TransformError}
    (h : chain.MayReturn entries (.error cause)) : .error cause ∈ chain.plainOutcomes entries := by
  obtain ⟨m, outcome, hsteps, hends, hresult⟩ := h
  rcases outcome with cause' | ended
  · obtain rfl := Except.error.inj hresult
    exact ((start_onCourse entries).steps hsteps).error_mem hends
  · cases hresult

/-- If some schedule succeeds, all do, and with the same result. -/
theorem mayReturn_unique {entries : List Entry} {returned : List Entry × RunReport}
    {result : Except TransformError (List Entry × RunReport)}
    (h : chain.MayReturn entries (.ok returned)) (h' : chain.MayReturn entries result) :
    result = .ok returned := by
  obtain ⟨processed, s, rfl, houtcomes, htally⟩ := mayReturn_ok h
  rcases result with cause | returned'
  · -- No entry fails, so no schedule can be given up.
    have hmem := mayReturn_error h'
    rw [houtcomes] at hmem
    obtain ⟨e, -, he⟩ := List.mem_map.1 hmem
    cases he
  · obtain ⟨processed', s', rfl, houtcomes', htally'⟩ := mayReturn_ok h'
    obtain rfl : processed' = processed :=
      List.map_injective_iff.2 (fun _ _ => Except.ok.inj) (houtcomes'.symm.trans houtcomes)
    rw [conclude_congr (htally'.trans htally.symm)]

/-! ## The generated resource -/

/-- The lines of the resource are in strict order, and they are those of the abstract and native
methods with parameters, each of which has one. Without a table there are none. -/
structure ParameterLines (chain : Chain) (entries : List Entry) (lines : List String) : Prop where
  sorted : lines.Pairwise (· < ·)
  mem_iff : ∀ line, line ∈ lines ↔ ∃ table, chain.table = some table ∧ ∃ e ∈ entries,
    ∃ owner file method, e.HasBareMethod owner file method ∧
      IsParameterLine ⟨table, chain.classPath⟩ owner file.pool method line
  named : ∀ table, chain.table = some table → ∀ e ∈ entries, ∀ owner file method,
    e.HasBareMethod owner file method →
      ∃ line, IsParameterLine ⟨table, chain.classPath⟩ owner file.pool method line
  ne_nil_iff : lines ≠ [] ↔ chain.table.isSome ∧
    ∃ e ∈ entries, ∃ owner file method, e.HasBareMethod owner file method

/-- The entries that are generated for these lines. -/
def generated (lines : List String) : List Entry :=
  if lines = [] then []
  else
    [.resource { path := parameterNamesPath, data := ("\n".intercalate lines).toUTF8.toList,
                 time := .stable }]

theorem extras_eq (s : RenamingState) : s.extras = generated (sortedLines s.lines) := by
  have hnil : s.lines.isEmpty = true ↔ sortedLines s.lines = [] := by
    rw [List.isEmpty_iff, List.eq_nil_iff_forall_not_mem, List.eq_nil_iff_forall_not_mem]
    exact forall_congr' fun line => not_congr ((sortedLines_spec s.lines).2 line).symm
  unfold RenamingState.extras generated
  by_cases hlines : s.lines.isEmpty = true
  · rw [if_pos hlines, if_pos (hnil.1 hlines)]
  · rw [if_neg hlines, if_neg fun h => hlines (hnil.2 h)]

variable {entries : List Entry} {processed : List (Option Entry)}

/-- Where no entry fails, the stages have made of each what they make of it, and noted its lines. -/
theorem plainEntry_of_outcomes (h : chain.plainOutcomes entries = processed.map .ok) :
    ∀ e ∈ entries, ∃ made, chain.plainEntry e 0 = (.ok made, (chain.plainEntry e 0).2) := by
  intro e he
  have hmem : (chain.plainEntry e 0).1 ∈ processed.map Except.ok :=
    h ▸ List.mem_map_of_mem he
  obtain ⟨made, -, hmade⟩ := List.mem_map.1 hmem
  exact ⟨made, Prod.ext hmade.symm rfl⟩

theorem note_mem_plainTally (h : chain.plainOutcomes entries = processed.map .ok) (line : String) :
    .note line ∈ chain.plainTally entries ↔ ∃ e ∈ entries, chain.IsLineIn e line := by
  have hentry := plainEntry_of_outcomes h
  unfold plainTally
  clear h
  induction entries with
  | nil => exact iff_of_false (Multiset.notMem_zero _) fun ⟨_, hmem, _⟩ => nomatch hmem
  | cons e entries ih =>
    obtain ⟨made, hmade⟩ := hentry e List.mem_cons_self
    rw [List.map_cons, List.sum_cons, Multiset.mem_add, (plainEntry_notes hmade).mem_iff,
      or_iff_left (Multiset.notMem_zero _), List.exists_mem_cons_iff]
    exact or_congr_right (ih fun e he => hentry e (List.mem_cons_of_mem _ he))

theorem parameterLines {s : RunState} (h : chain.plainOutcomes entries = processed.map .ok)
    (htally : s.tally = chain.plainTally entries) :
    chain.ParameterLines entries (sortedLines s.renames.lines) := by
  have hnamed : ∀ table, chain.table = some table → ∀ e ∈ entries, ∀ owner file method,
      e.HasBareMethod owner file method →
        ∃ line, IsParameterLine ⟨table, chain.classPath⟩ owner file.pool method line := by
    intro table htable e he
    obtain ⟨made, hmade⟩ := plainEntry_of_outcomes h e he
    exact (plainEntry_notes hmade).named table htable
  have hmem (line : String) : line ∈ sortedLines s.renames.lines ↔
      ∃ table, chain.table = some table ∧ ∃ e ∈ entries, ∃ owner file method,
        e.HasBareMethod owner file method ∧
          IsParameterLine ⟨table, chain.classPath⟩ owner file.pool method line := by
    rw [(sortedLines_spec _).2, ← RunState.note_mem_tally, htally, note_mem_plainTally h]
    constructor
    · rintro ⟨e, he, table, htable, hline⟩
      exact ⟨table, htable, e, he, hline⟩
    · rintro ⟨table, htable, e, he, hline⟩
      exact ⟨e, he, table, htable, hline⟩
  refine ⟨(sortedLines_spec _).1, hmem, hnamed, ?_⟩
  constructor
  · intro hne
    obtain ⟨line, hline⟩ := List.exists_mem_of_ne_nil _ hne
    obtain ⟨table, htable, e, he, owner, file, method, hmethod, -⟩ := (hmem line).1 hline
    exact ⟨htable ▸ rfl, e, he, owner, file, method, hmethod⟩
  · rintro ⟨htable, e, he, owner, file, method, hmethod⟩
    obtain ⟨table, htable⟩ := Option.isSome_iff_exists.1 htable
    obtain ⟨line, hline⟩ := hnamed table htable e he owner file method hmethod
    refine List.ne_nil_of_mem ((hmem line).2 ?_)
    exact ⟨table, htable, e, he, owner, file, method, hmethod, hline⟩

/-- An entry of the result is what the stages make of one of the archive, unless it is generated. -/
theorem origin_of_mem_output {output : List Entry} {report : RunReport} {e' : Entry}
    (h : chain.process entries = .ok (output, report)) (he' : e' ∈ output) :
    (∃ e ∈ entries, (chain.plainEntry e 0).1 = .ok (some e')) ∨
      chain.table.isSome ∧ ∃ r, e' = .resource r := by
  obtain ⟨processed, s, hconclude, houtcomes, htally⟩ :=
    mayReturn_ok (h ▸ chain.process_mayReturn entries)
  obtain ⟨rfl, -⟩ := Prod.mk.inj hconclude
  rcases List.mem_append.1 he' with hmade | hextra
  · obtain ⟨made, hmade, hsome⟩ := List.mem_filterMap.1 hmade
    obtain rfl : made = some e' := hsome
    have hmem : .ok (some e') ∈ chain.plainOutcomes entries :=
      houtcomes ▸ List.mem_map_of_mem hmade
    exact .inl (List.mem_map.1 hmem)
  · rw [extras_eq, generated] at hextra
    split at hextra
    case isTrue => cases hextra
    case isFalse hne =>
      exact .inr ⟨((parameterLines houtcomes htally).ne_nil_iff.1 hne).1, _,
        List.mem_singleton.1 hextra⟩

/-- No schedule is endless, and none gets stuck. Either all schedules fail, or all give the same
entries with the same report. Then the resource of the parameter names stands at the end if there is
a line for it, and nowhere else if there is a table. -/
theorem schedules_agree (chain : Chain) (entries : List Entry) :
    WellFounded (fun m' m : Moment => m.Step m') ∧
    (∀ m, Moment.Steps (chain.start entries) m →
      (∃ m', m.Step m') ∨ ∃ outcome, m.Ends outcome) ∧
    chain.MayReturn entries (chain.process entries) ∧
    ((∀ result, chain.MayReturn entries result → ∃ cause, result = .error cause) ∨
      ∃ output report kept lines,
        (∀ result, chain.MayReturn entries result ↔ result = .ok (output, report)) ∧
        output = kept ++ generated lines ∧
        report.extras = (generated lines).map Entry.path ∧
        (chain.table.isSome → ∀ r, .resource r ∈ kept → r.path ≠ parameterNamesPath) ∧
        chain.ParameterLines entries lines) := by
  refine ⟨Moment.step_wellFounded, fun m _ => m.step_or_ends, chain.process_mayReturn entries, ?_⟩
  rcases hprocess : chain.process entries with cause | ⟨output, report⟩
  · refine .inl fun result hresult => ?_
    rcases result with cause' | returned
    · exact ⟨cause', rfl⟩
    · have hsame := mayReturn_unique hresult (chain.process_mayReturn entries)
      exact nomatch hprocess.symm.trans hsame
  · have hreturned := hprocess ▸ chain.process_mayReturn entries
    obtain ⟨processed, s, hconclude, houtcomes, htally⟩ := mayReturn_ok hreturned
    obtain ⟨houtput, hreport⟩ := Prod.mk.inj hconclude
    refine .inr ⟨output, report, processed.filterMap id, sortedLines s.renames.lines,
      fun result => ?_, ?_, ?_, fun htable r hr => ?_, parameterLines houtcomes htally⟩
    · refine ⟨fun hresult => mayReturn_unique hreturned hresult, ?_⟩
      rintro rfl
      exact hreturned
    · rw [← extras_eq, houtput]
    · rw [← extras_eq, hreport]
    · have hmem : .ok (some (.resource r)) ∈ chain.plainOutcomes entries := by
        obtain ⟨made, hmade, hr⟩ := List.mem_filterMap.1 hr
        obtain rfl : made = some (.resource r) := hr
        exact houtcomes ▸ List.mem_map_of_mem hmade
      obtain ⟨e, -, he⟩ := List.mem_map.1 hmem
      exact plainEntry_resource (Prod.ext he rfl) htable

end Chain

end JarRemap
