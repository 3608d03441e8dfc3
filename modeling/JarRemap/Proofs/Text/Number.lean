import JarRemap.Text.Number
import JarRemap.Text.Split
import Mathlib.Data.List.Basic

/-!
# How numbers are spelled

Many texts are read as the same number: a plus sign may stand before the digits, and zeros may stand
before the first digit that counts (`Text.unsigned?_eq_some_iff`). A number is written with neither
of them (`Text.isOddlySpelled_iff`).
-/

namespace JarRemap.Text

/-- The number is spelled with a plus sign, or with a zero before other digits. -/
def IsOddlySpelled (s : String) : Prop :=
  beginsWith '+' s = true ∨ beginsWith '0' s = true ∧ s ≠ "0"

/-! ## Digits -/

theorem isDigit_iff {c : Char} : c.isDigit = true ↔ 48 ≤ c.toNat ∧ c.toNat ≤ 57 := by
  simp [Char.isDigit, UInt32.le_iff_toNat_le]

theorem digit?_of_isDigit {c : Char} (h : c.isDigit = true) :
    digit? c = some (c.toNat - '0'.toNat) := by
  unfold Char.isDigit at h
  exact if_pos h

theorem isDigit_of_digit? {c : Char} {n : ℕ} (h : digit? c = some n) : c.isDigit = true := by
  rw [digit?] at h
  split at h
  case isTrue hrange => exact hrange
  case isFalse => cases h

theorem digitChar_sub {c : Char} (h : c.isDigit = true) :
    Nat.digitChar (c.toNat - '0'.toNat) = c := by
  have hzero : '0'.toNat = 48 := rfl
  obtain ⟨hge, hle⟩ := isDigit_iff.1 h
  rw [← Char.toNat_inj, Nat.toNat_digitChar_of_lt_ten (by omega)]
  omega

/-! ## Reading digits -/

/-- Digits are read as the number that they spell, and nothing else is. -/
theorem digits?_eq_some_iff {s : List Char} {n : ℕ} :
    digits? s = some n ↔ (∀ c ∈ s, c.isDigit = true) ∧ Nat.ofDigitChars 10 s 0 = n := by
  have hafter : ∀ m, s.foldlM (fun n c => (digit? c).map (10 * n + ·)) m = some n ↔
      (∀ c ∈ s, c.isDigit = true) ∧ Nat.ofDigitChars 10 s m = n := by
    induction s with
    | nil => simp [Nat.ofDigitChars_nil]
    | cons c s ih =>
      intro m
      rw [List.foldlM_cons, List.forall_mem_cons, Nat.ofDigitChars_cons]
      rcases hdigit : digit? c with _ | d
      · refine iff_of_false (by simp) fun h => ?_
        cases hdigit.symm.trans (digit?_of_isDigit h.1.1)
      · have hc := isDigit_of_digit? hdigit
        obtain rfl := Option.some.inj (hdigit.symm.trans (digit?_of_isDigit hc))
        rw [and_iff_right hc]
        exact ih _
  exact hafter 0

/-- A number is read from digits, before which one plus sign may stand. -/
theorem unsigned?_eq_some_iff {bound n : ℕ} {s : List Char} :
    unsigned? bound s = some n ↔
      ∃ body, (s = body ∨ s = '+' :: body) ∧ body ≠ [] ∧ (∀ c ∈ body, c.isDigit = true) ∧
        Nat.ofDigitChars 10 body 0 = n ∧ n < bound := by
  have hbody : ∀ body : List Char,
      (if body.isEmpty then none else (digits? body).filter (· < bound)) = some n ↔
        body ≠ [] ∧ (∀ c ∈ body, c.isDigit = true) ∧ Nat.ofDigitChars 10 body 0 = n ∧
          n < bound := by
    intro body
    cases body with
    | nil => simp
    | cons c body =>
      simp only [List.isEmpty_cons, Bool.false_eq_true, if_false, Option.filter_eq_some_iff,
        digits?_eq_some_iff, decide_eq_true_eq, and_assoc]
      exact (and_iff_right (List.cons_ne_nil c body)).symm
  by_cases hplus : ∃ rest, s = '+' :: rest
  · obtain ⟨rest, rfl⟩ := hplus
    rw [unsigned?, hbody]
    constructor
    · exact fun h => ⟨rest, .inr rfl, h⟩
    · rintro ⟨body, rfl | heq, h⟩
      · exact absurd (h.2.1 '+' List.mem_cons_self) (by decide)
      · rwa [(List.cons.inj heq).2]
  · rw [unsigned?, hbody]
    · constructor
      · exact fun h => ⟨s, .inl rfl, h⟩
      · rintro ⟨body, rfl | rfl, h⟩
        · exact h
        · exact absurd ⟨body, rfl⟩ hplus
    · exact fun rest heq => hplus ⟨rest, heq⟩

theorem lt_of_unsigned? {bound n : ℕ} {s : List Char} (h : unsigned? bound s = some n) :
    n < bound := by
  obtain ⟨_, -, -, -, -, hlt⟩ := unsigned?_eq_some_iff.1 h
  exact hlt

/-- The digits of a number spell it. -/
theorem unsigned?_toDigits {bound n : ℕ} (h : n < bound) :
    unsigned? bound (Nat.toDigits 10 n) = some n := by
  refine unsigned?_eq_some_iff.2 ⟨_, .inl rfl, Nat.toDigits_ne_nil, fun c hc => ?_, ?_, h⟩
  · exact Nat.isDigit_of_mem_toDigits (by omega) (by omega) hc
  · exact Nat.ofDigitChars_toDigits (by omega) (by omega)

/-! ## The digits that are written -/

/-- Digits behind those of a number other than zero. -/
theorem toDigits_ofDigitChars {s : List Char} (hs : ∀ c ∈ s, c.isDigit = true) {n : ℕ}
    (hn : 0 < n) : Nat.toDigits 10 (Nat.ofDigitChars 10 s n) = Nat.toDigits 10 n ++ s := by
  induction s generalizing n with
  | nil => rw [Nat.ofDigitChars_nil, List.append_nil]
  | cons c s ih =>
    rw [List.forall_mem_cons] at hs
    have hlt : c.toNat - '0'.toNat < 10 := by
      have hzero : '0'.toNat = 48 := rfl
      have := (isDigit_iff.1 hs.1).2
      omega
    rw [Nat.ofDigitChars_cons, ih hs.2 (by omega), ← Nat.toDigits_append_toDigits (by omega) hn hlt,
      Nat.toDigits_of_lt_base hlt, digitChar_sub hs.1, List.append_assoc, List.singleton_append]

theorem head?_toDigits_ne {n : ℕ} (hn : 0 < n) : (Nat.toDigits 10 n).head? ≠ some '0' := by
  induction n using Nat.strongRecOn with
  | _ n ih =>
  rw [Nat.toDigits_eq_if (by omega)]
  by_cases hlt : n < 10
  · rw [if_pos hlt, List.head?_cons, Ne, Option.some.injEq, Nat.digitChar_eq_zero]
    omega
  · rw [if_neg hlt, List.head?_append_of_ne_nil _ Nat.toDigits_ne_nil]
    exact ih (n / 10) (by omega) (by omega)

/-- Of the digits that spell a number those are written that do not begin with a zero, but for zero
itself. -/
theorem eq_toDigits_iff {s : List Char} (hs : ∀ c ∈ s, c.isDigit = true) (hne : s ≠ []) :
    s = Nat.toDigits 10 (Nat.ofDigitChars 10 s 0) ↔ (s.head? = some '0' → s = ['0']) := by
  constructor
  · intro h hhead
    rcases Nat.eq_zero_or_pos (Nat.ofDigitChars 10 s 0) with hzero | hpos
    · rw [h, hzero, Nat.toDigits_zero]
    · rw [h] at hhead
      exact absurd hhead (head?_toDigits_ne hpos)
  · intro h
    obtain ⟨c, rest, rfl⟩ := List.exists_cons_of_ne_nil hne
    rw [List.forall_mem_cons] at hs
    by_cases hc : c = '0'
    · rw [h (by rw [hc]; rfl)]
      decide
    · have hzero : '0'.toNat = 48 := rfl
      obtain ⟨hge, hle⟩ := isDigit_iff.1 hs.1
      have hpos : c.toNat ≠ 48 := fun heq => hc (Char.toNat_inj.1 heq)
      rw [Nat.ofDigitChars_cons, Nat.mul_zero, Nat.zero_add, toDigits_ofDigitChars hs.2 (by omega),
        Nat.toDigits_of_lt_base (by omega), digitChar_sub hs.1, List.singleton_append]

/-- A number is oddly spelled exactly if it is not as it is written. -/
theorem isOddlySpelled_iff {bound n : ℕ} {s : String} (h : unsigned? bound s.toList = some n) :
    IsOddlySpelled s ↔ s ≠ toString n := by
  obtain ⟨body, hs, hne, hdigits, rfl, -⟩ := unsigned?_eq_some_iff.1 h
  have hwritten : ∀ m : ℕ, (toString m).toList = Nat.toDigits 10 m := fun _ => Nat.toList_repr
  rw [IsOddlySpelled, beginsWith, beginsWith, beq_iff_eq, beq_iff_eq, Ne, Ne, ← String.toList_inj,
    ← String.toList_inj, hwritten]
  rcases hs with hs | hs
  · have hplus : body.head? ≠ some '+' := fun hhead =>
      absurd (hdigits '+' (List.mem_of_head? hhead)) (by decide)
    rw [hs, eq_toDigits_iff hdigits hne, Classical.not_imp, or_iff_right hplus]
    rfl
  · refine iff_of_true (.inl (by rw [hs]; rfl)) fun heq => ?_
    rw [hs] at heq
    have hplus := Nat.isDigit_of_mem_toDigits (c := '+') (by omega) (by omega)
      (heq ▸ List.mem_cons_self)
    exact absurd hplus (by decide)

end JarRemap.Text
