import JarRemap.Proofs.Hierarchy.Ancestors
import JarRemap.Proofs.Hierarchy.Course
import Mathlib.Data.List.Nodup

/-!
# Walks are depth-first

Where every class is stored under its own name, a walk meets the ancestors of its start in
depth-first order: the next one is the first supertype, not yet met, of the class that was met last
among those that have such a supertype (`Walk.next?`). It meets all of them, each once, unless one
that can be reached is its own ancestor, and then it says so (`Walk.Tour`).

What has been met is of two kinds. Classes on the branch are being explored, and each is above those
below it. The others are finished: their supertypes are finished, too, and none is its own ancestor
(`Walk.Searching`).
-/

namespace JarRemap

namespace Walk

/-- Whether a class can be found and was not met. -/
def isFresh (find : String → Option ClassShape) (met : List String) (name : String) : Bool :=
  (find name).isSome && !met.contains name

/-- The class that a depth-first search comes to next when it has met some classes. -/
def next? (find : String → Option ClassShape) (met : List String) : Option String :=
  met.reverse.findSome? fun name => (find name).bind fun c => c.parents.find? (isFresh find met)

/-- A depth-first search from a class, which shows some ancestors and ends in some way. -/
structure Tour (find : String → Option ClassShape) (start : String) (shown : List ClassShape)
    (ending : Except HierarchyError Unit) : Prop where
  /-- Only ancestors are shown. -/
  ancestor : ∀ c ∈ shown, find c.name = some c ∧ Ancestor find start c.name
  /-- None is shown twice, and the start is not shown. -/
  nodup : (start :: shown.map ClassShape.name).Nodup
  depthFirst : ∀ before c after, shown = before ++ c :: after →
    next? find (start :: before.map ClassShape.name) = some c.name
  /-- Either nothing that can be reached is its own ancestor, and every ancestor is shown, or
  something is, and the search says so. -/
  ends :
    (ending = .ok () ∧ (∀ p, Relation.ReflTransGen (Extends find) start p → ¬ Ancestor find p p) ∧
      ∀ p c, Ancestor find start p → find p = some c → c ∈ shown) ∨
    ∃ p, ending = .error (.cycle p) ∧ Relation.ReflTransGen (Extends find) start p ∧
      Ancestor find p p

theorem isFresh_iff {find : String → Option ClassShape} {met : List String} {name : String} :
    isFresh find met name = true ↔ (find name).isSome = true ∧ name ∉ met := by
  unfold isFresh
  rw [Bool.and_eq_true, Bool.not_eq_true', List.contains_eq_mem, decide_eq_false_iff_not]

/-! ## The branch -/

/-- The branch of the innermost frame. -/
def branchOf : List Frame → List String
  | [] => []
  | f :: _ => f.branch

/-- The frames of a search that has met some classes. Each belongs to a class on whose behalf some
supertypes were passed and others wait. -/
inductive Stacked (find : String → Option ClassShape) (start : String) (met : List String) :
    List Frame → Prop where
  | nil : Stacked find start met []
  | cons {name : String} {c : ClassShape} {waiting : List String} {frames : List Frame}
      (passed before after : List String) (rest : Stacked find start met frames)
      (hfind : find name = some c)
      (hparents : c.parents = passed ++ waiting)
      (hpassed : ∀ q ∈ passed, (find q).isSome → q ∈ met ∧ q ∉ name :: branchOf frames)
      (habove : ∀ b ∈ branchOf frames, Ancestor find b name)
      (hstart : start ∈ name :: branchOf frames)
      (hmet : met = before ++ name :: after)
      (hafter : ∀ q ∈ after, q ∉ name :: branchOf frames) :
      Stacked find start met (⟨name :: branchOf frames, waiting⟩ :: frames)

variable {find : String → Option ClassShape} {names unmet met branch waiting : List String}
  {start parent : String} {frames : List Frame}

namespace Stacked

/-- Something else is met that is not on the branch. -/
theorem meet {p : String} (h : Stacked find start met frames) (hp : p ∉ branchOf frames) :
    Stacked find start (met ++ [p]) frames := by
  induction h with
  | nil => exact .nil
  | @cons name c waiting frames passed before after rest hfind hparents hpassed habove hstart hmet
      hafter ih =>
    have hrest : p ∉ branchOf frames := fun hmem => hp (List.mem_cons_of_mem _ hmem)
    refine .cons passed before (after ++ [p]) (ih hrest) hfind hparents ?_ habove hstart ?_ ?_
    · intro q hq hsome
      obtain ⟨hqmet, hqbranch⟩ := hpassed q hq hsome
      exact ⟨List.mem_append_left _ hqmet, hqbranch⟩
    · rw [hmet, List.append_assoc, List.cons_append]
    · intro q hq
      rcases List.mem_append.1 hq with hq | hq
      · exact hafter q hq
      · exact List.mem_singleton.1 hq ▸ hp

/-- What waits is above the whole branch. -/
theorem above (h : Stacked find start met (⟨branch, parent :: waiting⟩ :: frames)) :
    start ∈ branch ∧ ∀ b ∈ branch, Ancestor find b parent := by
  cases h with
  | @cons name c _ _ passed before after rest hfind hparents hpassed habove hstart hmet hafter =>
  have hextends : Extends find name parent :=
    ⟨c, hfind, hparents ▸ List.mem_append_right _ List.mem_cons_self⟩
  refine ⟨hstart, fun b hb => ?_⟩
  rcases List.mem_cons.1 hb with rfl | hb
  · exact .single hextends
  · exact .tail (habove b hb) hextends

/-- The first one that waits is passed. -/
theorem advance (h : Stacked find start met (⟨branch, parent :: waiting⟩ :: frames))
    (hparent : (find parent).isSome → parent ∈ met ∧ parent ∉ branch) :
    Stacked find start met (⟨branch, waiting⟩ :: frames) := by
  cases h with
  | cons passed before after rest hfind hparents hpassed habove hstart hmet hafter =>
  refine .cons (passed ++ [parent]) before after rest hfind ?_ (fun q hq hsome => ?_) habove hstart
    hmet hafter
  · rw [hparents, List.append_assoc, List.singleton_append]
  · rcases List.mem_append.1 hq with hq | hq
    · exact hpassed q hq hsome
    · obtain rfl := List.mem_singleton.1 hq
      exact hparent hsome

/-- A depth-first search comes to a supertype that waits as soon as those before it were passed. -/
theorem next?_eq (h : Stacked find start met (⟨branch, parent :: waiting⟩ :: frames))
    (hfind : (find parent).isSome) (hparent : parent ∉ met)
    (hfinished : ∀ p ∈ met, p ∉ branch → ∀ q, Extends find p q → (find q).isSome → q ∈ met) :
    next? find met = some parent := by
  cases h with
  | @cons name c _ _ passed before after rest hc hparents hpassed habove hstart hmet hafter =>
  have hown : (find name).bind (fun c => c.parents.find? (isFresh find met)) = some parent := by
    have hnone : passed.find? (isFresh find met) = none := by
      refine List.find?_eq_none.2 fun q hq hfresh => ?_
      obtain ⟨hsome, hnot⟩ := isFresh_iff.1 hfresh
      exact hnot (hpassed q hq hsome).1
    rw [hc, Option.bind_some, hparents, List.find?_append, hnone, Option.none_or,
      List.find?_cons_of_pos (isFresh_iff.2 ⟨hfind, hparent⟩)]
  have hlater : ∀ q ∈ after.reverse,
      (find q).bind (fun c => c.parents.find? (isFresh find met)) = none := by
    intro q hq
    rw [List.mem_reverse] at hq
    have hqmet : q ∈ met := hmet ▸ List.mem_append_right _ (List.mem_cons_of_mem _ hq)
    refine Option.bind_eq_none_iff.2 fun d hd => List.find?_eq_none.2 fun p hp hfresh => ?_
    obtain ⟨hsome, hnot⟩ := isFresh_iff.1 hfresh
    exact hnot (hfinished q hqmet (hafter q hq) p ⟨d, hd, hp⟩ hsome)
  have hreverse : met.reverse = after.reverse ++ name :: before.reverse := by
    rw [hmet, List.reverse_append, List.reverse_cons, List.append_assoc, List.singleton_append]
  unfold next?
  rw [hreverse, List.findSome?_append, List.findSome?_eq_none_iff.2 hlater, Option.none_or,
    List.findSome?_cons, hown]

end Stacked

/-! ## The search -/

/-- A search from a class that has met some classes so far. -/
structure Searching (find : String → Option ClassShape) (start : String) (met : List String)
    (frames : List Frame) (unmet : List String) : Prop where
  stacked : Stacked find start met frames
  nodup : met.Nodup
  start_mem : start ∈ met
  reached : ∀ p ∈ met, p = start ∨ Ancestor find start p
  mem_iff : ∀ p, Ancestor find start p → (find p).isSome → (p ∈ met ↔ p = start ∨ p ∉ unmet)
  /-- What is not on the branch any more has only such supertypes. -/
  finished : ∀ p ∈ met, p ∉ branchOf frames → ∀ q, Extends find p q → (find q).isSome →
    q ∈ met ∧ q ∉ branchOf frames
  sound : ∀ p ∈ met, p ∉ branchOf frames → ¬ Ancestor find p p

namespace Searching

/-- All that can be reached from what is finished is finished. -/
theorem finished_of_reaches (h : Searching find start met frames unmet) {p q : String}
    (hp : p ∈ met) (hbranch : p ∉ branchOf frames)
    (hpq : Relation.ReflTransGen (Extends find) p q) (hq : (find q).isSome) :
    q ∈ met ∧ q ∉ branchOf frames := by
  induction hpq with
  | refl => exact ⟨hp, hbranch⟩
  | tail _ hnext ih =>
    obtain ⟨hmet, hout⟩ := ih hnext.isSome
    exact h.finished _ hmet hout _ hnext hq

theorem initial {c : ClassShape} (hstored : Stored find names start) (hc : find start = some c) :
    Searching find start [start] [.enter [] c] names where
  stacked := by
    unfold Frame.enter
    rw [hstored.name_eq start c .refl hc]
    exact .cons [] [] [] .nil hc rfl nofun nofun List.mem_cons_self rfl nofun
  nodup := List.pairwise_singleton _ start
  start_mem := List.mem_cons_self
  reached p hp := .inl (List.mem_singleton.1 hp)
  mem_iff p hp hsome := by
    obtain ⟨d, hd⟩ := Option.isSome_iff_exists.1 hsome
    rw [List.mem_singleton]
    exact (or_iff_left fun hnot => hnot (hstored.mem_names p d hp hd)).symm
  finished p hp hbranch := by
    obtain rfl := List.mem_singleton.1 hp
    exact absurd (hstored.name_eq p c .refl hc ▸ List.mem_cons_self) hbranch
  sound p hp hbranch := by
    obtain rfl := List.mem_singleton.1 hp
    exact absurd (hstored.name_eq p c .refl hc ▸ List.mem_cons_self) hbranch

variable {c : ClassShape}

/-- The innermost class has no supertypes left and is finished. -/
theorem leave (h : Searching find start met (⟨branch, []⟩ :: frames) unmet) :
    Searching find start met frames unmet := by
  cases h.stacked with
  | @cons name _ _ _ passed before after rest hfind hparents hpassed habove hstart hmet hafter =>
  have hparents_finished : ∀ q, Extends find name q → (find q).isSome →
      q ∈ met ∧ q ∉ name :: branchOf frames := by
    rintro q ⟨c', hc', hq⟩ hsome
    obtain rfl := Option.some.inj (hfind.symm.trans hc')
    rw [hparents, List.append_nil] at hq
    exact hpassed q hq hsome
  have hlast : ∀ p ∈ met, p ∉ branchOf frames → p = name ∨ p ∉ name :: branchOf frames := by
    intro p _ hbranch
    by_cases hname : p = name
    · exact .inl hname
    · exact .inr fun hmem => (List.mem_cons.1 hmem).elim hname hbranch
  refine ⟨rest, h.nodup, h.start_mem, h.reached, h.mem_iff, fun p hp hbranch q hpq hq => ?_,
    fun p hp hbranch hloop => ?_⟩
  · have hdone : q ∈ met ∧ q ∉ name :: branchOf frames := by
      rcases hlast p hp hbranch with rfl | hout
      · exact hparents_finished q hpq hq
      · exact h.finished p hp hout q hpq hq
    exact ⟨hdone.1, fun hmem => hdone.2 (List.mem_cons_of_mem _ hmem)⟩
  · rcases hlast p hp hbranch with rfl | hout
    · -- A way back to the class would lead through finished classes only.
      obtain ⟨q, hfirst, hback⟩ := Relation.TransGen.head'_iff.1 hloop
      have hsome : (find p).isSome := hloop.isSome
      have hq : (find q).isSome := by
        rcases Relation.ReflTransGen.cases_head hback with rfl | ⟨r, hnext, -⟩
        · exact hsome
        · exact hnext.isSome
      obtain ⟨hqmet, hqout⟩ := hparents_finished q hfirst hq
      exact (h.finished_of_reaches hqmet hqout hback hsome).2 List.mem_cons_self
    · exact h.sound p hp hout hloop

/-- A supertype that is not on the branch is passed if it is not found or was met before. -/
theorem pass {unmet' : List String}
    (h : Searching find start met (⟨branch, parent :: waiting⟩ :: frames) unmet)
    (hbranch : parent ∉ branch) (hparent : (find parent).isSome → parent ∉ unmet)
    (hunmet : ∀ p, (find p).isSome → (p ∈ unmet' ↔ p ∈ unmet)) :
    Searching find start met (⟨branch, waiting⟩ :: frames) unmet' where
  stacked := by
    obtain ⟨hstart, habove⟩ := h.stacked.above
    exact h.stacked.advance fun hsome =>
      ⟨(h.mem_iff parent (habove start hstart) hsome).2 (.inr (hparent hsome)), hbranch⟩
  nodup := h.nodup
  start_mem := h.start_mem
  reached := h.reached
  mem_iff p hp hsome := by rw [h.mem_iff p hp hsome, hunmet p hsome]
  finished := h.finished
  sound := h.sound

/-- A supertype that is still unmet has not been met. -/
theorem fresh (h : Searching find start met (⟨branch, parent :: waiting⟩ :: frames) unmet)
    (hbranch : parent ∉ branch) (hunmet : parent ∈ unmet) (hsome : (find parent).isSome) :
    parent ∉ met := by
  obtain ⟨hstart, habove⟩ := h.stacked.above
  rw [h.mem_iff parent (habove start hstart) hsome]
  rintro (rfl | hout)
  · exact hbranch hstart
  · exact hout hunmet

/-- A supertype that was not met before is entered. -/
theorem enter (h : Searching find start met (⟨branch, parent :: waiting⟩ :: frames) unmet)
    (hbranch : parent ∉ branch) (hunmet : parent ∈ unmet) (hfind : find parent = some c)
    (hname : c.name = parent) :
    Searching find start (met ++ [parent]) (.enter branch c :: ⟨branch, waiting⟩ :: frames)
      (unmet.filter (· != parent)) := by
  have hsome : (find parent).isSome := hfind ▸ rfl
  have hnot := h.fresh hbranch hunmet hsome
  obtain ⟨hstart, habove⟩ := h.stacked.above
  have hold : ∀ p ∈ met ++ [parent], p ∉ parent :: branch → p ∈ met ∧ p ∉ branch := by
    intro p hp hout
    have hne : p ≠ parent := fun heq => hout (heq ▸ List.mem_cons_self)
    refine ⟨(List.mem_append.1 hp).resolve_right fun hp => hne (List.mem_singleton.1 hp), ?_⟩
    exact fun hmem => hout (List.mem_cons_of_mem _ hmem)
  unfold Frame.enter
  rw [hname]
  refine ⟨?_, ?_, List.mem_append_left _ h.start_mem, ?_, fun p hp hfound => ?_, ?_, ?_⟩
  · have hlower : Stacked find start (met ++ [parent]) (⟨branch, waiting⟩ :: frames) :=
      (h.stacked.meet hbranch).advance fun _ =>
        ⟨List.mem_append_right _ List.mem_cons_self, hbranch⟩
    exact .cons [] met [] hlower hfind rfl nofun habove (List.mem_cons_of_mem _ hstart) rfl nofun
  · exact List.nodup_append_comm.1 (List.nodup_cons.2 ⟨hnot, h.nodup⟩)
  · intro p hp
    rcases List.mem_append.1 hp with hp | hp
    · exact h.reached p hp
    · exact .inr (List.mem_singleton.1 hp ▸ habove start hstart)
  · rw [List.mem_append, h.mem_iff p hp hfound, List.mem_singleton, List.mem_filter, bne_iff_ne,
      or_assoc]
    refine or_congr_right ?_
    rw [not_and_or, not_not]
  · intro p hp hout q hpq hq
    obtain ⟨hpmet, hpout⟩ := hold p hp hout
    obtain ⟨hqmet, hqout⟩ := h.finished p hpmet hpout q hpq hq
    refine ⟨List.mem_append_left _ hqmet, fun hmem => ?_⟩
    rcases List.mem_cons.1 hmem with rfl | hmem
    · exact hnot hqmet
    · exact hqout hmem
  · intro p hp hout
    obtain ⟨hpmet, hpout⟩ := hold p hp hout
    exact h.sound p hpmet hpout

/-- A supertype that is on the branch is its own ancestor. -/
theorem cycle (h : Searching find start met (⟨branch, parent :: waiting⟩ :: frames) unmet)
    (hbranch : parent ∈ branch) :
    Relation.ReflTransGen (Extends find) start parent ∧ Ancestor find parent parent := by
  obtain ⟨hstart, habove⟩ := h.stacked.above
  exact ⟨(habove start hstart).to_reflTransGen, habove parent hbranch⟩

/-- Once nothing waits, all that can be reached was met, and nothing is its own ancestor. -/
theorem complete (h : Searching find start met [] unmet) {p : String}
    (hp : Relation.ReflTransGen (Extends find) start p) :
    ((find p).isSome → p ∈ met) ∧ ¬ Ancestor find p p := by
  have hmet (hsome : (find p).isSome) : p ∈ met :=
    (h.finished_of_reaches h.start_mem List.not_mem_nil hp hsome).1
  refine ⟨hmet, fun hloop => ?_⟩
  exact h.sound p (hmet hloop.isSome) List.not_mem_nil hloop

end Searching

/-! ## A whole walk -/

/-- What is left of a tour when a search has met some classes. -/
structure TourFrom (find : String → Option ClassShape) (start : String) (met : List String)
    (shown : List ClassShape) (ending : Except HierarchyError Unit) : Prop where
  ancestor : ∀ c ∈ shown, find c.name = some c ∧ Ancestor find start c.name
  nodup : (met ++ shown.map ClassShape.name).Nodup
  depthFirst : ∀ before c after, shown = before ++ c :: after →
    next? find (met ++ before.map ClassShape.name) = some c.name
  ends :
    (ending = .ok () ∧ ∀ p, Relation.ReflTransGen (Extends find) start p →
      ((find p).isSome → p ∈ met ++ shown.map ClassShape.name) ∧ ¬ Ancestor find p p) ∨
    ∃ p, ending = .error (.cycle p) ∧ Relation.ReflTransGen (Extends find) start p ∧
      Ancestor find p p

/-- A search that has ended is a tour. -/
theorem TourFrom.ended {ending : Except HierarchyError Unit} (hnodup : met.Nodup)
    (hends : (ending = .ok () ∧ ∀ p, Relation.ReflTransGen (Extends find) start p →
        ((find p).isSome → p ∈ met) ∧ ¬ Ancestor find p p) ∨
      ∃ p, ending = .error (.cycle p) ∧ Relation.ReflTransGen (Extends find) start p ∧
        Ancestor find p p) : TourFrom find start met [] ending where
  ancestor _ hc := nomatch hc
  nodup := (List.append_nil met).symm ▸ hnodup
  depthFirst before c after h :=
    (List.append_ne_nil_of_right_ne_nil before (List.cons_ne_nil c after) h.symm).elim
  ends := (List.append_nil met).symm ▸ hends

/-- A search goes on as a depth-first search does. -/
theorem Searching.tour (hstored : Stored find names start)
    {shown : List ClassShape} {ending : Except HierarchyError Unit}
    (hcourse : Course (fun name => .ok (find name)) frames unmet shown ending)
    (h : Searching find start met frames unmet) : TourFrom find start met shown ending := by
  -- What a search has met grows with every class that it enters.
  induction hcourse generalizing met with
  | done unmet => exact .ended h.nodup (.inl ⟨rfl, fun p hp => h.complete hp⟩)
  | leave rest ih => exact ih h.leave
  | cycle hbranch => exact .ended h.nodup (.inr ⟨_, rfl, h.cycle hbranch⟩)
  | unread hbranch hfind => cases hfind
  | again hbranch hmet hfind rest ih =>
    exact ih (h.pass hbranch (fun _ => hmet) fun _ _ => Iff.rfl)
  | @missing branch parent waiting frames unmet shown ending hbranch hunmet hfind rest ih =>
    have hnone : ¬ (find parent).isSome := fun hsome => by
      rw [Except.ok.inj hfind] at hsome
      exact Bool.false_ne_true hsome
    refine ih (h.pass hbranch (fun hsome => absurd hsome hnone) fun p hp => ?_)
    rw [List.mem_filter, bne_iff_ne]
    exact and_iff_left fun heq => hnone (heq ▸ hp)
  | @enter branch parent waiting frames unmet c shown ending hbranch hunmet hfind rest ih =>
    have hc : find parent = some c := Except.ok.inj hfind
    have hsome : (find parent).isSome := hc ▸ rfl
    obtain ⟨hstart, habove⟩ := h.stacked.above
    obtain rfl : c.name = parent :=
      hstored.name_eq _ c (habove start hstart).to_reflTransGen hc
    have htour := ih (h.enter hbranch hunmet hc rfl)
    have hmet : met ++ [c.name] ++ shown.map ClassShape.name =
        met ++ (c :: shown).map ClassShape.name :=
      List.append_assoc _ _ _
    refine ⟨?_, hmet ▸ htour.nodup, ?_, hmet ▸ htour.ends⟩
    · intro d hd
      rcases List.mem_cons.1 hd with rfl | hd
      · exact ⟨hc, habove start hstart⟩
      · exact htour.ancestor d hd
    · intro before d after hshown
      rcases before with _ | ⟨b, before⟩
      · obtain ⟨rfl, -⟩ := List.cons.inj hshown
        rw [List.map_nil, List.append_nil]
        exact h.stacked.next?_eq hsome (h.fresh hbranch hunmet hsome)
          fun p hp hout q hpq hq => (h.finished p hp hout q hpq hq).1
      · obtain ⟨rfl, hrest⟩ := List.cons.inj hshown
        have hnext := htour.depthFirst before d after hrest
        rwa [List.append_assoc] at hnext

/-- The course of a visit to the ancestors of a class is a tour. -/
theorem CourseFrom.tour (hstored : Stored find names start) {shown : List ClassShape}
    {ending : Except HierarchyError Unit}
    (h : CourseFrom (fun name => .ok (find name)) names start shown ending) :
    Tour find start shown ending := by
  cases h with
  | unread hfind => cases hfind
  | missing hfind =>
    have hnone : ∀ p, ¬ Ancestor find start p := by
      intro p hp
      have hsome := hp.isSome
      rw [Except.ok.inj hfind] at hsome
      exact Bool.false_ne_true hsome
    refine ⟨nofun, List.pairwise_singleton _ start, fun before c after hshown => ?_,
      .inl ⟨rfl, fun p hp hloop => ?_, fun p c hp => absurd hp (hnone p)⟩⟩
    · exact (List.append_ne_nil_of_right_ne_nil before (List.cons_ne_nil c after) hshown.symm).elim
    · exact hnone p (Relation.TransGen.trans_right hp hloop)
  | entered hfind course =>
    obtain ⟨hancestor, hnodup, hdepthFirst, hends⟩ :=
      Searching.tour hstored course (.initial hstored (Except.ok.inj hfind))
    refine ⟨hancestor, hnodup, hdepthFirst, hends.imp_left fun ⟨hending, hall⟩ => ?_⟩
    refine ⟨hending, fun p hp => (hall p hp).2, fun p c hp hc => ?_⟩
    have hmem := (hall p hp.to_reflTransGen).1 (hc ▸ rfl)
    rcases List.mem_cons.1 hmem with rfl | hmem
    · exact absurd hp (hall p .refl).2
    · obtain ⟨d, hd, rfl⟩ := List.mem_map.1 hmem
      obtain rfl := Option.some.inj ((hancestor d hd).1.symm.trans hc)
      exact hd

/-- The walk ends well: with an answer of an ancestor, or else without one because no ancestor has
one. -/
def EndsWell {α : Type} (find : String → Option ClassShape) (visit : ClassShape → Option α)
    (start : String) (result : Except HierarchyError (Option α)) : Prop :=
  (∃ a, result = .ok (some a) ∧ ∃ p c, Ancestor find start p ∧ find p = some c ∧ visit c = some a) ∨
  (result = .ok none ∧ ∀ p c, Ancestor find start p → find p = some c → visit c = none)

/-- Without a cycle a visit to the ancestors of a class ends well. -/
theorem ancestors_endsWell {α : Type} {visit : ClassShape → Option α}
    (hup : Upright find names start) :
    EndsWell find visit start
      (Id.run
        (ancestors (fun name => pure (find name)) names (fun c => pure (visit c)) start)) := by
  obtain ⟨shown, ending, hcourse⟩ := exists_courseFrom (fun name => .ok (find name)) names start
  have htour := hcourse.tour hup.stored
  obtain ⟨rfl, hall⟩ : ending = .ok () ∧
      ∀ p c, Ancestor find start p → find p = some c → c ∈ shown := by
    rcases htour.ends with ⟨hending, -, hall⟩ | ⟨p, -, hp, hloop⟩
    · exact ⟨hending, hall⟩
    · exact absurd hloop (hup.acyclic p hp)
  rw [(Told.plain find fun c => (pure (visit c) : Id (Option α))).ancestors hcourse,
    firstAnswer_pure, Id.run_pure]
  rcases hfound : shown.findSome? visit with _ | a
  · exact .inr ⟨rfl, fun p c hp hc => List.findSome?_eq_none_iff.1 hfound c (hall p c hp hc)⟩
  · obtain ⟨c, hc, ha⟩ := List.exists_of_findSome?_eq_some hfound
    obtain ⟨hfind, hancestor⟩ := htour.ancestor c hc
    exact .inl ⟨a, rfl, c.name, c, hancestor, hfind, ha⟩

end Walk

/-- On classes that are stored under their own names, a walk ends. The classes that it may show make
up a depth-first search, and it shows them to its visit, whatever that does, up to the first answer,
which is that of the walk. If there is none, the walk ends without one or with a cycle, as the
search does. All this is so as well with a memory of any answers of the class path. -/
theorem ClassPath.ancestors_tour (path : ClassPath)
    (hstored : ∀ p c, path.find? p = some c → c.name = p) (start : String) :
    ∃ shown ending, Walk.Tour path.find? start shown ending ∧
      ∀ (m : Type → Type) [Monad m] [LawfulMonad m] (α : Type)
        (visit : ClassShape → m (Option α)),
        Walk.ancestors (fun name => pure (path.find? name)) path.names visit start =
          Walk.firstAnswer visit ending shown ∧
        ∀ shapes, path.Remembers shapes →
          Prod.fst <$> StateT.run (Walk.ancestors
            (fun name => (modifyGet (path.recall name).run : StateT ShapeMemory m _)) path.names
            (fun c => StateT.lift (visit c)) start) shapes =
          Walk.firstAnswer visit ending shown := by
  obtain ⟨shown, ending, hcourse⟩ :=
    Walk.exists_courseFrom (fun name => .ok (path.find? name)) path.names start
  have hwell : Walk.Stored path.find? path.names start :=
    ⟨fun p c _ hc => hstored p c hc, fun p c _ hc => (mem_names_of_find? hc).2⟩
  refine ⟨shown, ending, hcourse.tour hwell, ?_⟩
  intro m _ _ α visit
  exact ⟨(Walk.Told.plain path.find? visit).ancestors hcourse,
    (Walk.Told.recalled path visit).ancestors hcourse⟩

/-- A class with a name and a superclass of one letter each. -/
def letterClass (name superName : UInt8) : Bytes :=
  [0xca, 0xfe, 0xba, 0xbe, 0, 0, 0, 61, 0, 5, 1, 0, 1, name, 7, 0, 1, 1, 0, 1, superName, 7, 0, 3,
   0, 0x21, 0, 2, 0, 4, 0, 0, 0, 0, 0, 0, 0, 0]

/-- Two classes that extend each other. -/
def loopPath : ClassPath :=
  ⟨[[("A", letterClass 0x41 0x42), ("B", letterClass 0x42 0x41)]]⟩

theorem ClassPath.ancestors_tour_loopPath :
    ∃ shown p, Walk.Tour loopPath.find? "A" shown (.error (.cycle p)) ∧
      Walk.ancestors (m := Id) loopPath.find? loopPath.names (fun _ => none) "A" =
        Walk.firstAnswer (m := Id) (fun _ => (none : Option Unit)) (.error (.cycle p)) shown := by
  have hstored : ∀ p c, loopPath.find? p = some c → c.name = p := by
    have hall : ∀ p ∈ loopPath.names, ∀ c ∈ loopPath.find? p, c.name = p := by decide +kernel
    exact fun p c hc => hall p (ClassPath.mem_names_of_find? hc).2 c hc
  have hup : Walk.Extends loopPath.find? "A" "B" :=
    ⟨⟨"A", ⟨0x21⟩, some "B", [], [], []⟩, by decide +kernel, by decide⟩
  have hdown : Walk.Extends loopPath.find? "B" "A" :=
    ⟨⟨"B", ⟨0x21⟩, some "A", [], [], []⟩, by decide +kernel, by decide⟩
  obtain ⟨shown, ending, htour, hruns⟩ := ClassPath.ancestors_tour loopPath hstored "A"
  rcases htour.ends with ⟨-, hacyclic, -⟩ | ⟨p, rfl, -⟩
  · exact absurd (.tail (.single hup) hdown) (hacyclic "A" .refl)
  · exact ⟨shown, p, htour, (hruns Id Unit fun _ => none).1⟩

end JarRemap
