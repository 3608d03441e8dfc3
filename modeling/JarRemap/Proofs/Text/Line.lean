import JarRemap.Text.Blank
import JarRemap.Text.Split
import Mathlib.Data.List.Basic

/-!
# Lines and words in text

Blanks separate words, so a blank between two texts keeps their words apart
(`Text.words_append_cons`). What is put together from words is taken apart into the same words, and
what is put together from lines into the same lines.
-/

namespace JarRemap.Text

/-! ## Words -/

/-- Some letters, and no blank. -/
def IsWord (w : List Char) : Prop :=
  w ≠ [] ∧ ∀ c ∈ w, isBlank c = false

theorem words_append_cons {b : Char} (hb : isBlank b = true) (s rest : List Char) :
    words (s ++ b :: rest) = words s ++ words rest := by
  rw [words, List.splitOnP_append_cons _ _ hb, List.filter_append, words, words]

theorem words_cons {b : Char} (hb : isBlank b = true) (rest : List Char) :
    words (b :: rest) = words rest :=
  words_append_cons hb [] rest

theorem words_of_isWord {w : List Char} (h : IsWord w) : words w = [w] := by
  rw [words, List.splitOnP_eq_singleton h.2]
  simp [h.1]

theorem words_replicate_append (n : ℕ) (s : List Char) :
    words (List.replicate n '\t' ++ s) = words s := by
  induction n with
  | zero => rfl
  | succ n ih => rw [List.replicate_succ, List.cons_append, words_cons (by decide), ih]

theorem intercalate_cons_cons (w w' : List Char) (ws : List (List Char)) :
    [' '].intercalate (w :: w' :: ws) = w ++ ' ' :: [' '].intercalate (w' :: ws) := by
  simp [List.intercalate]

/-- Words with a blank between them. -/
theorem words_intercalate {ws : List (List Char)} (h : ∀ w ∈ ws, IsWord w) :
    words ([' '].intercalate ws) = ws := by
  induction ws with
  | nil => rfl
  | cons w ws ih =>
    rw [List.forall_mem_cons] at h
    cases ws with
    | nil => simpa using words_of_isWord h.1
    | cons w' ws =>
      rw [intercalate_cons_cons, words_append_cons (by decide), ih h.2, words_of_isWord h.1]
      rfl

theorem mem_intercalate {ws : List (List Char)} {c : Char} (h : c ∈ [' '].intercalate ws) :
    c = ' ' ∨ ∃ w ∈ ws, c ∈ w := by
  induction ws with
  | nil => cases h
  | cons w ws ih =>
    cases ws with
    | nil => exact .inr ⟨w, by simp, by simpa using h⟩
    | cons w' ws =>
      rw [intercalate_cons_cons, List.mem_append, List.mem_cons] at h
      rcases h with h | h | h
      · exact .inr ⟨w, by simp, h⟩
      · exact .inl h
      · refine (ih h).imp_right ?_
        rintro ⟨v, hv, hc⟩
        exact ⟨v, List.mem_cons_of_mem _ hv, hc⟩

/-- Words with a blank between them end in a word. -/
theorem exists_intercalate_eq {ws : List (List Char)} (h : ws ≠ []) :
    ∃ front, ∃ w ∈ ws, [' '].intercalate ws = front ++ w := by
  induction ws with
  | nil => exact absurd rfl h
  | cons w ws ih =>
    cases ws with
    | nil => exact ⟨[], w, by simp, by simp⟩
    | cons w' ws =>
      obtain ⟨front, v, hv, heq⟩ := ih (by simp)
      exact ⟨w ++ ' ' :: front, v, List.mem_cons_of_mem _ hv, by
        rw [intercalate_cons_cons, heq]
        simp⟩

theorem mem_splitOnP {p : Char → Bool} {s part : List Char} (h : part ∈ s.splitOnP p) {c : Char}
    (hc : c ∈ part) : c ∈ s ∧ p c = false := by
  induction s generalizing part with
  | nil =>
    obtain rfl : part = [] := by simpa using h
    cases hc
  | cons d s ih =>
    rw [List.splitOnP_cons_eq_if_modifyHead] at h
    by_cases hd : p d = true
    · rw [if_pos hd] at h
      rcases List.mem_cons.1 h with rfl | h
      · cases hc
      · exact (ih h hc).imp_left (List.mem_cons_of_mem d)
    · rw [if_neg hd] at h
      obtain ⟨first, rest, hparts⟩ := List.exists_cons_of_ne_nil (List.splitOnP_ne_nil p s)
      rw [hparts] at h ih
      rcases List.mem_cons.1 h with rfl | h
      · rcases List.mem_cons.1 hc with rfl | hc
        · exact ⟨List.mem_cons_self, by simpa using hd⟩
        · exact (ih List.mem_cons_self hc).imp_left (List.mem_cons_of_mem d)
      · exact (ih (List.mem_cons_of_mem _ h) hc).imp_left (List.mem_cons_of_mem d)

/-- The words of a text are words, with letters of the text. -/
theorem isWord_of_mem_words {s w : List Char} (h : w ∈ words s) : IsWord w ∧ ∀ c ∈ w, c ∈ s := by
  obtain ⟨hmem, hne⟩ := List.mem_filter.1 h
  refine ⟨⟨by simpa using hne, fun c hc => (mem_splitOnP hmem hc).2⟩, fun c hc => ?_⟩
  exact (mem_splitOnP hmem hc).1

/-! ## Ends of lines -/

theorem trimEnd_append_word {w : List Char} (hw : IsWord w) (front : List Char) :
    trimEnd (front ++ w) = front ++ w := by
  obtain ⟨init, c, rfl⟩ := List.eq_nil_or_concat w |>.resolve_left hw.1
  have hblank := hw.2 c (by simp)
  simp [trimEnd, hblank]

theorem dropEnd?_append_word {w : List Char} (hw : IsWord w) (front : List Char) :
    dropEnd? ['\r'] (front ++ w) = none := by
  obtain ⟨init, c, rfl⟩ := List.eq_nil_or_concat w |>.resolve_left hw.1
  have hblank := hw.2 c (by simp)
  have hne : '\r' ≠ c := by
    rintro rfl
    exact absurd hblank (by decide)
  simp [dropEnd?, dropStart?, hne]

theorem mem_of_mem_trimEnd {s : List Char} {c : Char} (h : c ∈ trimEnd s) : c ∈ s := by
  rw [trimEnd, List.mem_reverse] at h
  exact List.mem_reverse.1 ((List.dropWhile_sublist isBlank).subset h)

/-- What stands before the first line feed is the first line. -/
theorem lines_append_cons {l : List Char} (h : '\n' ∉ l) (rest : List Char) :
    lines (l ++ '\n' :: rest) = (dropEnd? ['\r'] l).getD l :: lines rest := by
  have hfirst : l.splitOnP (· == '\n') = [l] := by
    refine List.splitOnP_eq_singleton fun c hc => beq_eq_false_iff_ne.2 ?_
    rintro rfl
    exact h hc
  have hcut : (l ++ '\n' :: rest).splitOn '\n' =
      l.splitOnP (· == '\n') ++ rest.splitOn '\n' :=
    List.splitOnP_append_cons l rest (beq_self_eq_true '\n')
  obtain ⟨front, last, hparts⟩ := List.eq_nil_or_concat (rest.splitOn '\n') |>.resolve_left
    (List.splitOnP_ne_nil _ rest)
  rw [List.concat_eq_append] at hparts
  rw [lines, lines, hcut, hfirst, hparts, ← List.append_assoc]
  simp only [List.getLast?_concat, List.dropLast_concat, List.singleton_append, List.map_cons]
  cases last <;> rfl

/-- Lines that are closed by line feeds and hold no other one. -/
theorem lines_flatMap {ls : List (List Char)}
    (h : ∀ l ∈ ls, '\n' ∉ l ∧ dropEnd? ['\r'] l = none) :
    lines (ls.flatMap fun l => l ++ ['\n']) = ls := by
  induction ls with
  | nil => rfl
  | cons l ls ih =>
    rw [List.forall_mem_cons] at h
    rw [List.flatMap_cons, List.append_assoc, List.singleton_append, lines_append_cons h.1.1,
      ih h.2, h.1.2]
    rfl

end JarRemap.Text
