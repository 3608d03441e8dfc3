import JarRemap.Proofs.Codec.Reader
import JarRemap.Proofs.Hierarchy.Course
import JarRemap.Proofs.SideBySide
import JarRemap.Rename.Renaming

/-!
# Renaming with a memory

The remapper remembers shapes and members. A memory is *good* if it holds nothing but what the class
path and the table say; then asking it gives what `Remapper.memberName` says and leaves it good.
`Renaming.Ensures` states what a computation of the renaming gives when it succeeds, from any good
state; a renaming that starts without a memory is in a good state after any number of classes.
-/

namespace JarRemap

/-! ## Wrapped failures -/

section

variable {ε α σ : Type} {wrap : ε → TransformError} {x : Except ε α} {a : α}

theorem orFail_ok_iff : (orFail wrap x : Except TransformError α) = .ok a ↔ x = .ok a := by
  rcases x with e | b
  · exact iff_of_false (fun h => nomatch h) fun h => nomatch h
  · show Except.ok b = Except.ok a ↔ Except.ok b = Except.ok a
    rw [Except.ok.injEq, Except.ok.injEq]

theorem orFail_stateful_ok_iff {s s' : σ} :
    (orFail wrap x : ExceptT TransformError (StateM σ) α) s = (.ok a, s') ↔
      x = .ok a ∧ s' = s := by
  rcases x with e | b
  · exact iff_of_false (fun h => nomatch congrArg Prod.fst h) fun h => nomatch h.1
  · show ((.ok b, s) : Except TransformError α × σ) = (.ok a, s') ↔ _
    rw [Prod.mk.injEq, Except.ok.injEq, Except.ok.injEq, eq_comm (a := s)]

end

namespace Remapper

variable {r : Remapper}

/-! ## Good memories -/

/-- The new name that the owner of a member or an ancestor of it gives, without a memory. -/
def plainSearch (r : Remapper) (k : MemberKey) : Except HierarchyError (Option String) :=
  Id.run (r.search (fun name => pure (r.classPath.find? name)) k)

/-- The memory holds nothing but right answers. -/
structure Memory.Good (r : Remapper) (memory : Memory) : Prop where
  shapes_eq : ∀ name found, memory.shapes.lookup name = some found →
    found = r.classPath.find? name
  members_eq : ∀ k found, memory.members.lookup k = some found → r.plainSearch k = .ok found

theorem good_empty : Memory.Good r .empty :=
  ⟨fun _ _ h => (Option.some_ne_none _ h.symm).elim,
    fun _ _ h => (Option.some_ne_none _ h.symm).elim⟩

theorem recallShape_answers (r : Remapper) (name : String) :
    Answers (Memory.Good r) (r.recallShape name) (r.classPath.find? name) := by
  intro memory hgood
  obtain ⟨hfound, hkept⟩ := r.classPath.recall_answers name memory.shapes hgood.shapes_eq
  exact ⟨hfound, hkept, hgood.members_eq⟩

/-- A search that is told the shapes of the class path comes to what the plain one does. -/
theorem search_comesTo {m : Type → Type} [Monad m] (C : ComesTo m) (r : Remapper)
    (find : String → m (Option ClassShape))
    (hfind : ∀ name, C.rel (find name) (r.classPath.find? name)) (k : MemberKey) :
    C.rel (r.search find k) (r.plainSearch k) := by
  rw [plainSearch, search, search, RenameTable.search, RenameTable.search]
  rcases r.table.memberName? k with _ | mapped
  · exact Walk.ancestors_comesTo C hfind (fun _ => C.pure _) _ _
  · exact C.pure _

theorem search_answers (r : Remapper) (k : MemberKey) :
    Answers (Memory.Good r) (r.search r.recallShape k) (r.plainSearch k) :=
  search_comesTo (Answers.comesTo (Memory.Good r)) r r.recallShape (recallShape_answers r) k

/-- A name is told as it was found out, if what is known and what is kept are right. -/
theorem nameWith_answers {σ : Type} {good : σ → Prop}
    {known? : MemberKey → StateM σ (Option (Option String))}
    {keep : MemberKey → Option String → StateM σ Unit}
    {search : MemberKey → StateM σ (Except HierarchyError (Option String))} {k : MemberKey}
    {found : Except HierarchyError (Option String)}
    (hknown : ∀ s, good s → good (known? k s).2 ∧ ∀ v, (known? k s).1 = some v → found = .ok v)
    (hsearch : Answers good (search k) found)
    (hkeep : ∀ v, found = .ok v → Answers good (keep k v) ()) :
    Answers good (k.nameWith known? keep search)
      (if k.isFixed then .ok k.name else found.map (·.getD k.name)) := by
  unfold MemberKey.nameWith
  by_cases hfixed : k.isFixed = true
  · rw [if_pos hfixed, if_pos hfixed]
    exact .pure _
  rw [if_neg hfixed, if_neg hfixed]
  intro s hs
  obtain ⟨hs', hvalue⟩ := hknown s hs
  rw [bind_run]
  rcases hv : (known? k s).1 with _ | v
  · -- A search that fails is not kept, and one that ends is kept with its answer.
    refine hsearch.bind ?_ _ hs'
    rcases found with e | v
    · exact .pure _
    · exact (hkeep v rfl).bind (.pure _)
  · rw [hvalue v hv]
    exact ⟨rfl, hs'⟩

/-- Asking a good memory for a member gives its new name. -/
theorem recallMember_answers (r : Remapper) (k : MemberKey) :
    Answers (Memory.Good r) (r.recallMember k) (r.memberName k) := by
  refine nameWith_answers (fun memory hgood => ⟨hgood, hgood.members_eq k⟩) (search_answers r k)
    fun found hfound memory hgood => ⟨rfl, hgood.shapes_eq, ?_⟩
  exact forall_lookup_cons hgood.members_eq hfound

end Remapper

/-! ## Computations of a renaming -/

/-- What the remapper remembers is right. -/
def RenamingState.Good (r : Remapper) (s : RenamingState) : Prop :=
  s.memory.Good r

namespace Renaming

variable {r : Remapper} {α β : Type}

/-- In a good state a member is named as the plain remapper names it. -/
theorem memberName_good (k : MemberKey) {s : RenamingState} (hs : s.Good r) :
    (Renaming.memberName r k s).2.Good r ∧
      (Renaming.memberName r k s).1 = (r.memberName k).mapError .hierarchy := by
  obtain ⟨hanswer, hgood⟩ := r.recallMember_answers k s.memory hs
  have hrun : (Renaming.memberName r k s).1 =
      (r.recallMember k s.memory).1.mapError .hierarchy := rfl
  rw [hrun, hanswer]
  exact ⟨hgood, rfl⟩

/-- From a good state the computation comes to a good state, and if it succeeds, `post` holds of
what it gives. -/
def Ensures (r : Remapper) (x : Renaming α) (post : α → Prop) : Prop :=
  ∀ s, s.Good r → (x s).2.Good r ∧ ∀ a, (x s).1 = .ok a → post a

namespace Ensures

theorem pure {a : α} {post : α → Prop} (h : post a) : Ensures r (Pure.pure a) post :=
  fun _ hs => ⟨hs, fun _ ha => Except.ok.inj ha ▸ h⟩

theorem throw {e : TransformError} {post : α → Prop} :
    Ensures r (MonadExcept.throw e : Renaming α) post :=
  fun _ hs => ⟨hs, fun _ ha => by cases ha⟩

theorem bind {x : Renaming α} {f : α → Renaming β} {post : α → Prop} {post' : β → Prop}
    (hx : Ensures r x post) (hf : ∀ a, post a → Ensures r (f a) post') :
    Ensures r (x >>= f) post' := by
  intro s hs
  obtain ⟨hs', ha⟩ := hx s hs
  rw [bind_stateful]
  rcases hxs : x s with ⟨e | a, s'⟩
  · rw [hxs] at hs'
    exact ⟨hs', fun _ hb => by cases hb⟩
  · rw [hxs] at hs' ha
    exact hf a (ha a rfl) s' hs'

theorem mono {x : Renaming α} {post post' : α → Prop} (hx : Ensures r x post)
    (h : ∀ a, post a → post' a) : Ensures r x post' :=
  fun s hs => ⟨(hx s hs).1, fun a ha => h a ((hx s hs).2 a ha)⟩

theorem all {ι : Type} [Inhabited ι] {x : Renaming α} {post : ι → α → Prop}
    (hx : ∀ i, Ensures r x (post i)) : Ensures r x fun a => ∀ i, post i a :=
  fun s hs => ⟨(hx default s hs).1, fun a ha i => (hx i s hs).2 a ha⟩

theorem orFail {ε : Type} (wrap : ε → TransformError) (x : Except ε α) :
    Ensures r (JarRemap.orFail wrap x) fun a => x = .ok a := by
  cases x with
  | error e => exact .throw
  | ok a => exact .pure rfl

theorem modify {f : RenamingState → RenamingState} (hf : ∀ s, s.Good r → (f s).Good r) :
    Ensures r (MonadState.modifyGet fun s => ((), f s)) fun _ => True :=
  fun s hs => ⟨hf s hs, fun _ _ => trivial⟩

theorem memberName (k : MemberKey) :
    Ensures r (Renaming.memberName r k) fun name => r.memberName k = .ok name := by
  intro s hs
  obtain ⟨hgood, hanswer⟩ := memberName_good k hs
  refine ⟨hgood, fun name hname => ?_⟩
  rw [hanswer] at hname
  exact mapError_ok_iff.1 hname

theorem note (line : String) : Ensures r (Renaming.note line) fun _ => True :=
  .modify fun _ hs => hs

end Ensures

end Renaming

end JarRemap
