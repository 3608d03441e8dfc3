import JarRemap.Host.Basic

/-!
# Computations that keep a state

What a computation gives that may fail and keeps a state, told from what its parts give.
-/

namespace JarRemap

variable {ε δ σ α β γ : Type} {s s' : σ}

/-- A step that keeps its state beside its outcome, and the steps behind it. -/
theorem bind_stateful (x : ExceptT ε (StateM σ) α) (f : α → ExceptT ε (StateM σ) β) (s : σ) :
    (x >>= f) s =
      match x s with
      | (.ok a, s') => f a s'
      | (.error e, s') => (.error e, s') := by
  show (ExceptT.bindCont f (x s).1 (x s).2 : Except ε β × σ) = _
  rcases x s with ⟨_ | _, _⟩ <;> rfl

theorem bind_stateful_ok_iff {x : ExceptT ε (StateM σ) α} {f : α → ExceptT ε (StateM σ) β} {b : β} :
    (x >>= f) s = (.ok b, s') ↔ ∃ a m, x s = (.ok a, m) ∧ f a m = (.ok b, s') := by
  rw [bind_stateful]
  rcases x s with ⟨e | a, m⟩
  · refine ⟨fun h => ?_, fun ⟨_, _, h, _⟩ => ?_⟩ <;> cases h
  · refine ⟨fun h => ⟨a, m, rfl, h⟩, ?_⟩
    rintro ⟨_, _, ⟨⟩, h⟩
    exact h

theorem pure_stateful_ok_iff {a b : α} :
    (pure a : ExceptT ε (StateM σ) α) s = (.ok b, s') ↔ a = b ∧ s' = s := by
  show ((.ok a, s) : Except ε α × σ) = (.ok b, s') ↔ _
  rw [Prod.mk.injEq, Except.ok.injEq, eq_comm (a := s)]

/-- What goes on behind a check. -/
theorem check_stateful_ok_iff {p : Prop} [Decidable p] {e : ε} {next : γ → ExceptT ε (StateM σ) β}
    {x : ExceptT ε (StateM σ) β} {b : β} :
    (if p then throw e >>= next else x) s = (.ok b, s') ↔ ¬p ∧ x s = (.ok b, s') := by
  by_cases hp : p
  · rw [if_pos hp]
    exact iff_of_false (fun h => by cases h) fun h => h.1 hp
  · rw [if_neg hp]
    exact (and_iff_right hp).symm

/-- A check behind which nothing comes. -/
theorem last_check_stateful_ok_iff {p : Prop} [Decidable p] {e : ε} {u : Unit} :
    (if p then throw e else pure () : ExceptT ε (StateM σ) Unit) s = (.ok u, s') ↔
      ¬p ∧ s' = s := by
  by_cases hp : p
  · rw [if_pos hp]
    exact iff_of_false (fun h => by cases h) fun h => h.1 hp
  · rw [if_neg hp, pure_stateful_ok_iff, and_iff_right hp]
    exact and_iff_right rfl

theorem adapt_stateful_ok_iff {x : ExceptT ε (StateM σ) α} {wrap : ε → δ} {a : α} :
    x.adapt wrap s = (.ok a, s') ↔ x s = (.ok a, s') := by
  show (((x s).1.mapError wrap, (x s).2) : Except δ α × σ) = _ ↔ ((x s).1, (x s).2) = _
  rcases (x s).1 with e | a
  · exact iff_of_false (fun h => by cases h) fun h => by cases h
  · constructor <;> rintro ⟨⟩ <;> rfl

theorem failWith_stateful_ok_iff {wrap : ε → δ} {outcome : Except ε α} {a : α} :
    (failWith wrap outcome : ExceptT δ (StateM σ) α) s = (.ok a, s') ↔
      outcome = .ok a ∧ s' = s := by
  rcases outcome with e | b
  · exact iff_of_false (fun h => by cases h) fun h => by cases h.1
  · rw [Except.ok.injEq]
    exact pure_stateful_ok_iff

/-- A step that cannot fail. -/
theorem lift_bind_stateful {y : StateM σ α} {f : α → ExceptT ε (StateM σ) β} {a : α} {m : σ}
    (h : y s = (a, m)) : ((liftM y : ExceptT ε (StateM σ) α) >>= f) s = f a m := by
  show f (y s).1 (y s).2 = _
  rw [h]

theorem lift_stateful_ok_iff {y : StateM σ α} {a : α} :
    (liftM y : ExceptT ε (StateM σ) α) s = (.ok a, s') ↔ y s = (a, s') := by
  show ((.ok (y s).1, (y s).2) : Except ε α × σ) = _ ↔ ((y s).1, (y s).2) = _
  constructor <;> rintro ⟨⟩ <;> rfl

end JarRemap
