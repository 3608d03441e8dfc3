import JarRemap.Text.Split
import Mathlib.Data.List.TakeWhile

/-!
# Cut texts put together again

A text is cut in one way: at its first or last occurrence of a character, or at a known beginning or
end. Each cut says exactly how the text is made of its parts.
-/

namespace JarRemap.Text

/-! ## At a character -/

theorem cutFirst?_eq_some_iff {c : Char} {s a b : List Char} :
    cutFirst? c s = some (a, b) ↔ s = a ++ c :: b ∧ c ∉ a := by
  rw [cutFirst?]
  constructor
  · intro h
    have happend := List.takeWhile_append_dropWhile (p := (· != c)) (l := s)
    split at h
    case h_1 => cases h
    case h_2 d after heq =>
      cases h
      have hd : d = c := by
        have hhead := List.head?_dropWhile_not (· != c) s
        rw [heq] at hhead
        simpa using hhead
      rw [heq, hd] at happend
      refine ⟨happend.symm, fun hmem => ?_⟩
      simpa using List.mem_takeWhile_imp hmem
  · rintro ⟨rfl, hnot⟩
    have hall : ∀ x ∈ a, (x != c) = true := by
      intro x hx
      rw [bne_iff_ne]
      rintro rfl
      exact hnot hx
    rw [List.dropWhile_append_of_pos hall, List.takeWhile_append_of_pos hall]
    simp

theorem cutLast?_eq_some_iff {c : Char} {s a b : List Char} :
    cutLast? c s = some (a, b) ↔ s = a ++ c :: b ∧ c ∉ b := by
  rw [cutLast?, Option.map_eq_some_iff]
  constructor
  · rintro ⟨⟨after, before⟩, hcut, heq⟩
    cases heq
    obtain ⟨hs, hnot⟩ := cutFirst?_eq_some_iff.1 hcut
    refine ⟨?_, by simpa using hnot⟩
    rw [← List.reverse_reverse s, hs]
    simp
  · rintro ⟨rfl, hnot⟩
    exact ⟨(b.reverse, a.reverse), cutFirst?_eq_some_iff.2 ⟨by simp, by simpa using hnot⟩, by simp⟩

theorem splitFirst?_eq_some_iff {c : Char} {s a b : String} :
    splitFirst? c s = some (a, b) ↔ s.toList = a.toList ++ c :: b.toList ∧ c ∉ a.toList := by
  rw [splitFirst?, Option.map_eq_some_iff]
  constructor
  · rintro ⟨⟨x, y⟩, hcut, heq⟩
    cases heq
    simpa using cutFirst?_eq_some_iff.1 hcut
  · intro h
    exact ⟨(a.toList, b.toList), cutFirst?_eq_some_iff.2 h, by simp⟩

theorem splitLast?_eq_some_iff {c : Char} {s a b : String} :
    splitLast? c s = some (a, b) ↔ s.toList = a.toList ++ c :: b.toList ∧ c ∉ b.toList := by
  rw [splitLast?, Option.map_eq_some_iff]
  constructor
  · rintro ⟨⟨x, y⟩, hcut, heq⟩
    cases heq
    simpa using cutLast?_eq_some_iff.1 hcut
  · intro h
    exact ⟨(a.toList, b.toList), cutLast?_eq_some_iff.2 h, by simp⟩

theorem splitLast?_eq_none_iff {c : Char} {s : String} :
    splitLast? c s = none ↔ c ∉ s.toList := by
  constructor
  · intro hnone hmem
    obtain ⟨b, a, hreverse, hnot⟩ := List.eq_append_cons_of_mem (List.mem_reverse.2 hmem)
    have hs : splitLast? c s = some (String.ofList a.reverse, String.ofList b.reverse) := by
      refine splitLast?_eq_some_iff.2 ⟨?_, by simpa using hnot⟩
      rw [← List.reverse_inj, hreverse]
      simp
    cases hnone.symm.trans hs
  · intro hnot
    rcases hcut : splitLast? c s with _ | ⟨a, b⟩
    · rfl
    · obtain ⟨hs, -⟩ := splitLast?_eq_some_iff.1 hcut
      exact absurd (by simp [hs]) hnot

/-- Texts put together are cut in the last one, or else in the first. -/
theorem splitLast?_append (c : Char) (front back : String) :
    splitLast? c (front ++ back) =
      ((splitLast? c back).map fun (a, b) => (front ++ a, b)).or
        ((splitLast? c front).map fun (a, b) => (a, b ++ back)) := by
  rcases hback : splitLast? c back with _ | ⟨a, b⟩
  · have hnot := splitLast?_eq_none_iff.1 hback
    rw [Option.map_none, Option.none_or]
    rcases hfront : splitLast? c front with _ | ⟨a, b⟩
    · rw [Option.map_none, splitLast?_eq_none_iff]
      simp [splitLast?_eq_none_iff.1 hfront, hnot]
    · obtain ⟨hs, hb⟩ := splitLast?_eq_some_iff.1 hfront
      exact splitLast?_eq_some_iff.2 ⟨by simp [hs], by simp [hb, hnot]⟩
  · obtain ⟨hs, hb⟩ := splitLast?_eq_some_iff.1 hback
    exact splitLast?_eq_some_iff.2 ⟨by simp [hs], hb⟩

/-! ## At a known beginning or end -/

/-- A beginning without a character ends before it. -/
theorem prefix_of_prefix_append_cons {c : Char} {start s rest : List Char}
    (h : start <+: s ++ c :: rest) (hc : c ∉ start) : start <+: s := by
  rcases List.prefix_or_prefix_of_prefix h (List.prefix_append s _) with hprefix | ⟨more, rfl⟩
  · exact hprefix
  · rw [List.prefix_append_right_inj] at h
    cases more with
    | nil => simp
    | cons d more =>
      obtain rfl : d = c := (List.cons_prefix_cons.1 h).1
      simp at hc

theorem dropStart?_eq_some_iff {start s rest : List Char} :
    dropStart? start s = some rest ↔ s = start ++ rest := by
  induction start generalizing s with
  | nil => simp [dropStart?, eq_comm]
  | cons c start ih =>
    cases s with
    | nil => simp [dropStart?]
    | cons d s =>
      rw [dropStart?]
      split
      case isTrue h => rw [ih, h, List.cons_append, List.cons.injEq, and_iff_right rfl]
      case isFalse h => simp [Ne.symm h]

theorem dropEnd?_eq_some_iff {ending s front : List Char} :
    dropEnd? ending s = some front ↔ s = front ++ ending := by
  rw [dropEnd?, Option.map_eq_some_iff]
  constructor
  · rintro ⟨rest, hrest, rfl⟩
    rw [← List.reverse_reverse s, dropStart?_eq_some_iff.1 hrest]
    simp
  · rintro rfl
    exact ⟨front.reverse, dropStart?_eq_some_iff.2 (by simp), by simp⟩

theorem afterStart?_eq_some_iff {start s rest : String} :
    afterStart? start s = some rest ↔ s = start ++ rest := by
  rw [afterStart?, Option.map_eq_some_iff]
  constructor
  · rintro ⟨l, hl, rfl⟩
    rw [← String.toList_inj, dropStart?_eq_some_iff.1 hl]
    simp
  · rintro rfl
    exact ⟨rest.toList, dropStart?_eq_some_iff.2 (by simp), String.ofList_toList⟩

theorem beforeEnd?_eq_some_iff {ending s front : String} :
    beforeEnd? ending s = some front ↔ s = front ++ ending := by
  rw [beforeEnd?, Option.map_eq_some_iff]
  constructor
  · rintro ⟨l, hl, rfl⟩
    rw [← String.toList_inj, dropEnd?_eq_some_iff.1 hl]
    simp
  · rintro rfl
    exact ⟨front.toList, dropEnd?_eq_some_iff.2 (by simp), String.ofList_toList⟩

end JarRemap.Text
