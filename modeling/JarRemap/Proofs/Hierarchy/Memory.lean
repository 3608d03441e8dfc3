import JarRemap.Hierarchy.ClassPath
import Mathlib.Data.List.Basic

/-!
# Computations that come to answers

What asks questions does not depend on where the answers come from: if a memory gives the same
answers as the class path, and stays good by being asked, what asks the memory comes to the same end
as what asks the class path.
-/

namespace JarRemap

/-- A sense in which computations come to what they give, whatever else they do: plain ones do, and
so does a computation behind another one. -/
structure ComesTo (m : Type → Type) [Monad m] where
  rel : ∀ {α : Type}, m α → α → Prop
  pure : ∀ {α : Type} (a : α), rel (Pure.pure a) a
  bind : ∀ {α β : Type} {x : m α} {f : α → m β} {a : α} {b : β}, rel x a → rel (f a) b →
    rel (x >>= f) b

/-- A computation for every element of a list comes to the list of what they give. -/
theorem ComesTo.mapM {m : Type → Type} [Monad m] (C : ComesTo m) {α β : Type} {f : α → m β}
    {g : α → Id β} (h : ∀ a, C.rel (f a) (g a).run) (l : List α) :
    C.rel (l.mapM f) (l.mapM g).run := by
  have hloop (done : List β) : C.rel (List.mapM.loop f l done) (List.mapM.loop g l done).run := by
    induction l generalizing done with
    | nil => exact C.pure _
    | cons a l ih => exact C.bind (h a) (ih _)
  exact hloop []

/-- Computations without side effects come to what they are. -/
def ComesTo.plain : ComesTo Id where
  rel x a := x.run = a
  pure _ := rfl
  bind hx hf := by
    subst hx
    exact hf

theorem bind_run {σ α β : Type} (x : StateM σ α) (f : α → StateM σ β) (s : σ) :
    (x >>= f) s = f (x s).1 (x s).2 := rfl

/-- Started in any good state, the computation gives `a` and leaves a good state. -/
def Answers {σ α : Type} (good : σ → Prop) (x : StateM σ α) (a : α) : Prop :=
  ∀ s, good s → (x s).1 = a ∧ good (x s).2

namespace Answers

variable {σ α β : Type} {good : σ → Prop}

theorem pure (a : α) : Answers good (Pure.pure a : StateM σ α) a :=
  fun _ hs => ⟨rfl, hs⟩

theorem bind {x : StateM σ α} {f : α → StateM σ β} {a : α} {b : β} (hx : Answers good x a)
    (hf : Answers good (f a) b) : Answers good (x >>= f) b := by
  intro s hs
  obtain ⟨ha, hs'⟩ := hx s hs
  rw [bind_run, ha]
  exact hf _ hs'

/-- With a good memory, computations come to their answers. -/
def comesTo (good : σ → Prop) : ComesTo (StateM σ) where
  rel := Answers good
  pure := .pure
  bind := .bind

/-- An answer that is kept comes to what it came to when it was found out. -/
theorem memoized {κ : Type} {known? : κ → StateM σ (Option α)} {keep : κ → α → StateM σ Unit}
    {look : κ → StateM σ α} {question : κ} {a : α}
    (hknown : ∀ s, good s → good (known? question s).2 ∧
      ∀ v, (known? question s).1 = some v → v = a)
    (hlook : Answers good (look question) a) (hkeep : Answers good (keep question a) ()) :
    Answers good (JarRemap.memoized known? keep look question) a := by
  intro s hs
  obtain ⟨hs', hvalue⟩ := hknown s hs
  rw [JarRemap.memoized, bind_run]
  rcases hv : (known? question s).1 with _ | v
  · exact (hlook.bind (hkeep.bind (.pure a))) _ hs'
  · exact ⟨hvalue v hv, hs'⟩

/-- Calls that come to their answers one by one do so one after the other. -/
theorem mapM {ask : α → StateM σ β} {answer : α → β}
    (h : ∀ a, Answers good (ask a) (answer a)) (questions : List α) :
    Answers good (questions.mapM ask) (questions.map answer) := by
  have hall := (Answers.comesTo good).mapM (g := fun a => (Pure.pure (answer a) : Id β)) h questions
  rwa [List.mapM_pure] at hall

end Answers

/-! ## Remembered shapes -/

/-- Answers stay right by keeping a right one. -/
theorem forall_lookup_cons {α β : Type} [BEq α] [LawfulBEq α] {right : α → β → Prop}
    {known : List (α × β)} (hknown : ∀ a b, known.lookup a = some b → right a b) {a : α} {b : β}
    (h : right a b) : ∀ a' b', ((a, b) :: known).lookup a' = some b' → right a' b' := by
  intro a' b' hlookup
  rw [List.lookup_cons] at hlookup
  split at hlookup
  · rename_i heq
    obtain rfl := beq_iff_eq.1 heq
    exact Option.some.inj hlookup ▸ h
  · exact hknown a' b' hlookup

namespace ClassPath

/-- The memory holds nothing but what the class path says. -/
def Remembers (path : ClassPath) (shapes : ShapeMemory) : Prop :=
  ∀ name found, shapes.lookup name = some found → found = path.find? name

/-- Such a memory tells the shape of a class, and stays what it is by being asked. -/
theorem recall_answers (path : ClassPath) (name : String) :
    Answers path.Remembers (path.recall name) (path.find? name) := by
  refine .memoized (fun shapes hgood => ⟨hgood, fun found hfound => hgood name found hfound⟩)
    (.pure _) fun shapes hgood => ⟨rfl, ?_⟩
  exact forall_lookup_cons hgood rfl

end ClassPath

end JarRemap
