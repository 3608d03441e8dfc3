import Mathlib.Data.List.Forall2

/-!
# Lists side by side

Lists whose elements correspond one by one, as those of a class and of the class it is renamed to
do.
-/

namespace JarRemap

variable {α β ε : Type} {rel : α → β → Prop} {l : List α} {l' : List β}

theorem except_bind_ok_iff {x : Except ε α} {f : α → Except ε β} {b : β} :
    x >>= f = .ok b ↔ ∃ a, x = .ok a ∧ f a = .ok b := by
  cases x <;> simp [bind, Except.bind]

theorem except_bind_error_iff {x : Except ε α} {f : α → Except ε β} {e : ε} :
    x >>= f = .error e ↔ x = .error e ∨ ∃ a, x = .ok a ∧ f a = .error e := by
  cases x <;> simp [bind, Except.bind]

theorem mapError_ok_iff {ε δ α : Type} {x : Except ε α} {f : ε → δ} {a : α} :
    x.mapError f = .ok a ↔ x = .ok a := by
  cases x <;> simp [Except.mapError]

theorem map_ok_iff {x : Except ε α} {f : α → β} {b : β} :
    x.map f = .ok b ↔ ∃ a, x = .ok a ∧ f a = b := by
  cases x <;> simp [Except.map]

theorem exists_bind_ok {x : Except ε α} {f : α → Except ε β} (hx : ∃ a, x = .ok a)
    (hf : ∀ a, ∃ b, f a = .ok b) : ∃ b, x >>= f = .ok b := by
  obtain ⟨a, rfl⟩ := hx
  exact hf a

theorem forall₂_of_mapM_ok {f : α → Except ε β} (h : l.mapM f = .ok l') :
    List.Forall₂ (fun a b => f a = .ok b) l l' := by
  induction l generalizing l' with
  | nil =>
    cases h
    exact .nil
  | cons a l ih =>
    rw [List.mapM_cons] at h
    rcases ha : f a with e | b
    · rw [ha] at h
      cases h
    · rcases hl : l.mapM f with e | bs
      · rw [ha, hl] at h
        cases h
      · rw [ha, hl] at h
        cases h
        exact .cons ha (ih hl)

theorem mapM_ok_of_forall₂ {f : α → Except ε β} (h : List.Forall₂ (fun a b => f a = .ok b) l l') :
    l.mapM f = .ok l' := by
  induction h with
  | nil => rfl
  | cons ha _ ih =>
    rw [List.mapM_cons, ha, ih]
    rfl

theorem mapM_ok_iff {f : α → Except ε β} :
    (∃ l', l.mapM f = .ok l') ↔ ∀ a ∈ l, ∃ b, f a = .ok b := by
  induction l with
  | nil => simp [pure, Except.pure]
  | cons a l ih =>
    rw [List.forall_mem_cons, ← ih, List.mapM_cons]
    rcases f a with e | b
    · simp [bind, Except.bind]
    · rcases l.mapM f with e | l' <;> simp [bind, Except.bind, pure, Except.pure]

theorem exists_right_of_mem (h : List.Forall₂ rel l l') {a : α} (ha : a ∈ l) :
    ∃ b ∈ l', rel a b := by
  induction h with
  | nil => cases ha
  | cons hab _ ih =>
    rcases List.mem_cons.1 ha with rfl | ha
    · exact ⟨_, List.mem_cons_self, hab⟩
    · obtain ⟨b, hb, hab⟩ := ih ha
      exact ⟨b, List.mem_cons_of_mem _ hb, hab⟩

theorem exists_left_of_mem (h : List.Forall₂ rel l l') {b : β} (hb : b ∈ l') :
    ∃ a ∈ l, rel a b := by
  obtain ⟨a, ha, hab⟩ := exists_right_of_mem h.flip hb
  exact ⟨a, ha, hab⟩

theorem forall_of_forall₂ {p : α → Prop} {q : β → Prop} (h : ∀ a b, rel a b → p a → q b)
    (hl : List.Forall₂ rel l l') (hp : ∀ a ∈ l, p a) : ∀ b ∈ l', q b := by
  intro b hb
  obtain ⟨a, ha, hab⟩ := exists_left_of_mem hl hb
  exact h a b hab (hp a ha)

theorem forall₂_trans {rel : α → α → Prop} (h : ∀ {a b c}, rel a b → rel b c → rel a c)
    {l l' l'' : List α} (hl : List.Forall₂ rel l l') (hl' : List.Forall₂ rel l' l'') :
    List.Forall₂ rel l l'' := by
  induction hl generalizing l'' with
  | nil => exact hl'
  | cons hab _ ih =>
    cases hl' with
    | cons hbc hrest => exact .cons (h hab hbc) (ih hrest)

/-- What is found on one side and on the other is at the same place. -/
theorem find?_of_forall₂ {p : α → Bool} {q : β → Bool} (h : ∀ a ∈ l, ∀ b, rel a b → q b = p a)
    (hl : List.Forall₂ rel l l') {a : α} (ha : l.find? p = some a) :
    ∃ b, rel a b ∧ l'.find? q = some b := by
  induction hl with
  | nil => cases ha
  | @cons c d l l' hcd _ ih =>
    rw [List.forall_mem_cons] at h
    have hsame := h.1 d hcd
    rcases hp : p c with _ | _
    · rw [List.find?_cons_of_neg (by rw [hp]; exact Bool.false_ne_true)] at ha
      rw [List.find?_cons_of_neg (by rw [hsame, hp]; exact Bool.false_ne_true)]
      exact ih h.2 ha
    · rw [List.find?_cons_of_pos hp] at ha
      rw [List.find?_cons_of_pos (hsame.trans hp)]
      obtain rfl := Option.some.inj ha
      exact ⟨d, hcd, rfl⟩

/-- What a computation over one list gives, it gives over the other. -/
theorem foldlM_of_forall₂ {σ : Type} {f : σ → α → Except ε σ} {g : σ → β → Except ε σ}
    (h : ∀ a b, rel a b → ∀ s s', f s a = .ok s' → g s b = .ok s') (hl : List.Forall₂ rel l l')
    {s s' : σ} (hs : l.foldlM f s = .ok s') : l'.foldlM g s = .ok s' := by
  induction hl generalizing s with
  | nil => exact hs
  | cons hab _ ih =>
    rw [List.foldlM_cons] at hs ⊢
    obtain ⟨s₁, hfirst, hrest⟩ := except_bind_ok_iff.1 hs
    exact except_bind_ok_iff.2 ⟨s₁, h _ _ hab _ _ hfirst, ih hrest⟩

theorem foldlM_mono {σ : Type} {f g : σ → α → Except ε σ}
    (h : ∀ a s s', f s a = .ok s' → g s a = .ok s') {s s' : σ} (hs : l.foldlM f s = .ok s') :
    l.foldlM g s = .ok s' := by
  refine foldlM_of_forall₂ (fun a b hab => ?_) (List.forall₂_same.2 fun a _ => Eq.refl a) hs
  subst hab
  exact h a

theorem map_eq_of_forall₂ {γ : Type} {f : α → γ} {g : β → γ} (h : ∀ a b, rel a b → g b = f a)
    (hl : List.Forall₂ rel l l') : l'.map g = l.map f := by
  induction hl with
  | nil => rfl
  | cons hab _ ih => rw [List.map_cons, List.map_cons, h _ _ hab, ih]

/-- Where one list corresponds to another, their images do exactly if each element passes. -/
theorem forall₂_map_iff {rel' : α → β → Prop} {g : α → α} {g' : β → β} {p : α → Prop}
    (h : ∀ a b, rel a b → (rel' (g a) (g' b) ↔ p a)) (hl : List.Forall₂ rel l l') :
    List.Forall₂ rel' (l.map g) (l'.map g') ↔ ∀ a ∈ l, p a := by
  induction hl with
  | nil => simp
  | cons hab _ ih => rw [List.map_cons, List.map_cons, List.forall₂_cons, h _ _ hab, ih,
      List.forall_mem_cons]

end JarRemap
