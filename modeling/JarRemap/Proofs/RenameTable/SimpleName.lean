import JarRemap.Proofs.RenameTable.ClassName
import JarRemap.Proofs.Text.Split
import JarRemap.Rename.Remapper

/-!
# Simple names of nested classes

The new simple name of a nested class is found in its full names alone, which do not tell where the
name of the class around it ends. It stays if the class only moves to another package with its name,
and else it is what follows the last `$` (`RenameTable.newSimpleName_follows`). So a nested class
that follows the class around it keeps its simple name if no `$` is part of that. With a `$` it does
so only if the class around it just moves, or if a slash is part of the simple name, too
(`RenameTable.newSimpleName_kept_iff`).
-/

namespace JarRemap

/-- The text does not begin with a digit. What stands behind the `$` in the name of a local class
does. -/
def StartsPlain (s : String) : Prop :=
  ∀ c ∈ s.toList.head?, Text.digit? c = none

instance (s : String) : Decidable (StartsPlain s) :=
  Option.decidableForallMem s.toList.head?

namespace RenameTable

variable {t : RenameTable} {name outer simple simple' : String}

/-! ## Ends of names -/

/-- The end from the last slash on does not depend on what stands before this. -/
theorem fromLastSlash?_append (front back : String) :
    fromLastSlash? (front ++ back) =
      (fromLastSlash? back).or ((fromLastSlash? front).map (· ++ back)) := by
  rw [fromLastSlash?, fromLastSlash?, fromLastSlash?, Text.splitLast?_append]
  rcases Text.splitLast? '/' back with _ | ⟨a, b⟩
  · rcases Text.splitLast? '/' front with _ | ⟨a, b⟩
    · rfl
    · simp [String.append_assoc]
  · rfl

theorem fromLastSlash?_eq_none (h : '/' ∉ name.toList) : fromLastSlash? name = none := by
  rw [fromLastSlash?, Text.splitLast?_eq_none_iff.2 h]
  rfl

theorem exists_fromLastSlash? (h : '/' ∈ name.toList) :
    ∃ last, fromLastSlash? name = some last := by
  rcases hsplit : Text.splitLast? '/' name with _ | ⟨front, back⟩
  · exact absurd h (Text.splitLast?_eq_none_iff.1 hsplit)
  · exact ⟨"/" ++ back, by rw [fromLastSlash?, hsplit]; rfl⟩

/-- What follows the last `$` of a name, or all of it, without the digits that this begins with. -/
def lastPart (name : String) : String :=
  String.ofList ((((Text.splitLast? '$' name).map Prod.snd).getD name).toList.dropWhile
    fun c => (Text.digit? c).isSome)

theorem lastPart_append (front back : String) :
    lastPart (front ++ "$" ++ back) = lastPart back := by
  have hfront : Text.splitLast? '$' (front ++ "$") = some (front, "") :=
    Text.splitLast?_eq_some_iff.2 ⟨by simp, by simp⟩
  rw [lastPart, lastPart, Text.splitLast?_append, hfront]
  rcases Text.splitLast? '$' back with _ | ⟨a, b⟩
  · simp
  · rfl

/-- A name is its own last part if no `$` is in it and it does not begin with a digit. -/
theorem lastPart_eq_self_iff : lastPart name = name ↔ '$' ∉ name.toList ∧ StartsPlain name := by
  rw [lastPart, ← String.toList_inj, String.toList_ofList]
  rcases hsplit : Text.splitLast? '$' name with _ | ⟨front, back⟩
  · have hcut : '$' ∉ name.toList := Text.splitLast?_eq_none_iff.1 hsplit
    rw [Option.map_none, Option.getD_none, List.dropWhile_eq_self_iff, StartsPlain,
      and_iff_right hcut]
    rcases name.toList with _ | ⟨c, rest⟩ <;> simp
  · -- What stands behind a `$` is shorter than the name.
    have hname : name.toList = front.toList ++ '$' :: back.toList :=
      (Text.splitLast?_eq_some_iff.1 hsplit).1
    rw [Option.map_some, Option.getD_some]
    constructor
    · intro h
      have hle := (back.toList.dropWhile_sublist fun c => (Text.digit? c).isSome).length_le
      rw [h, hname, List.length_append, List.length_cons] at hle
      omega
    · rintro ⟨hcut, -⟩
      exact absurd (by simp [hname]) hcut

/-! ## New simple names -/

/-- The class keeps its name, or moves to another package with it. -/
def OnlyMoves (t : RenameTable) (name : String) : Prop :=
  t.newClassName name = name ∨
    ∃ last, fromLastSlash? name = some last ∧ fromLastSlash? (t.newClassName name) = some last

theorem onlyMoves_iff :
    t.OnlyMoves name ↔ t.newClassName name = name ∨
      ((fromLastSlash? name).any fun last => fromLastSlash? (t.newClassName name) = some last) =
        true := by
  rw [OnlyMoves]
  cases fromLastSlash? name <;> simp

instance (t : RenameTable) (name : String) : Decidable (t.OnlyMoves name) :=
  decidable_of_iff _ onlyMoves_iff.symm

theorem newSimpleName_of_onlyMoves (h : t.OnlyMoves name) (simple : String) :
    t.newSimpleName name simple = simple := by
  rw [newSimpleName]
  rcases onlyMoves_iff.1 h with hsame | hlast
  · rw [if_pos hsame]
  · rw [if_pos hlast, ite_self]

/-- Otherwise the last part of the new name is what counts, whatever the old simple name is. -/
theorem newSimpleName_of_not_onlyMoves (h : ¬ t.OnlyMoves name)
    (hcut : '$' ∈ (t.newClassName name).toList) (simple : String) :
    t.newSimpleName name simple = lastPart (t.newClassName name) := by
  rw [onlyMoves_iff, not_or] at h
  rw [newSimpleName, if_neg h.1, if_neg h.2, lastPart]
  rcases hsplit : Text.splitLast? '$' (t.newClassName name) with _ | ⟨a, b⟩
  · exact absurd hcut (Text.splitLast?_eq_none_iff.1 hsplit)
  · rfl

/-- A nested class that follows the class around it only moves if this does, or if a slash in the
simple name hides all that stands before it. -/
theorem onlyMoves_nested_iff
    (hname : t.newClassName (outer ++ "$" ++ simple) = t.newClassName outer ++ "$" ++ simple) :
    t.OnlyMoves (outer ++ "$" ++ simple) ↔ t.OnlyMoves outer ∨ '/' ∈ simple.toList := by
  have hend : ∀ front, fromLastSlash? (front ++ "$" ++ simple) =
      (fromLastSlash? ("$" ++ simple)).or ((fromLastSlash? front).map (· ++ ("$" ++ simple))) := by
    intro front
    rw [String.append_assoc, fromLastSlash?_append]
  rw [OnlyMoves, hname, hend, hend]
  by_cases hslash : '/' ∈ simple.toList
  · obtain ⟨last, hlast⟩ : ∃ last, fromLastSlash? ("$" ++ simple) = some last :=
      exists_fromLastSlash? (by simpa using hslash)
    rw [hlast]
    exact iff_of_true (.inr ⟨last, rfl, rfl⟩) (.inr hslash)
  · rw [fromLastSlash?_eq_none (by simpa using hslash), Option.none_or, Option.none_or,
      or_iff_left hslash, OnlyMoves]
    refine or_congr ?_ ?_
    · rw [String.append_left_inj, String.append_left_inj]
    · constructor
      · rintro ⟨_, hold, hnew⟩
        obtain ⟨last, hlast, rfl⟩ := Option.map_eq_some_iff.1 hold
        obtain ⟨last', hlast', hsame⟩ := Option.map_eq_some_iff.1 hnew
        obtain rfl : last' = last := (String.append_left_inj _).1 hsame
        exact ⟨_, hlast, hlast'⟩
      · rintro ⟨last, hold, hnew⟩
        exact ⟨_, by rw [hold]; rfl, by rw [hnew]; rfl⟩

/-- The simple name of a nested class follows its full name. Let `simple'` be what the new full name
holds behind that of the class around it. If the class only moves, its simple name stays, and else
the last part of `simple'` is the new one. -/
theorem newSimpleName_follows
    (hname : t.newClassName (outer ++ "$" ++ simple) = t.newClassName outer ++ "$" ++ simple') :
    t.newSimpleName (outer ++ "$" ++ simple) simple =
      if t.OnlyMoves (outer ++ "$" ++ simple) then simple else lastPart simple' := by
  split
  case isTrue hmoves => exact newSimpleName_of_onlyMoves hmoves simple
  case isFalse hmoves =>
    rw [newSimpleName_of_not_onlyMoves hmoves (by simp [hname]), hname, lastPart_append]

/-- All of `simple'` is the new simple name only if nothing of it can be cut off, unless the class
only moves. -/
theorem newSimpleName_eq_iff
    (hname : t.newClassName (outer ++ "$" ++ simple) = t.newClassName outer ++ "$" ++ simple') :
    t.newSimpleName (outer ++ "$" ++ simple) simple = simple' ↔
      if t.OnlyMoves (outer ++ "$" ++ simple) then simple = simple'
      else '$' ∉ simple'.toList ∧ StartsPlain simple' := by
  rw [newSimpleName_follows hname]
  split
  case isTrue => rfl
  case isFalse => exact lastPart_eq_self_iff

/-- A nested class that follows the class around it keeps its simple name if nothing of that can be
cut off, if the class around it only moves, or if a slash is in its simple name, and not
otherwise. -/
theorem newSimpleName_kept_iff
    (hname : t.newClassName (outer ++ "$" ++ simple) = t.newClassName outer ++ "$" ++ simple) :
    t.newSimpleName (outer ++ "$" ++ simple) simple = simple ↔
      t.OnlyMoves outer ∨ '/' ∈ simple.toList ∨ '$' ∉ simple.toList ∧ StartsPlain simple := by
  rw [newSimpleName_eq_iff hname, ← or_assoc, ← onlyMoves_nested_iff hname]
  split
  case isTrue hmoves => simp [hmoves]
  case isFalse hmoves => simp [hmoves]

/-- So does every nested class without a row of its own, if its simple name is an ordinary one. -/
theorem newSimpleName_of_unlisted (hrow : t.className? (outer ++ "$" ++ simple) = none)
    (hcut : '$' ∉ simple.toList) (hplain : StartsPlain simple) :
    t.newSimpleName (outer ++ "$" ++ simple) simple = simple :=
  (newSimpleName_kept_iff (newClassName_nested hrow hcut)).2 (.inr (.inr ⟨hcut, hplain⟩))

/-- The row of `a` gives `a$x$y` the full name `b$x$y`, which ends in the simple name `x$y` as
before, but `y` becomes the simple name. -/
example :
    let t : RenameTable := ⟨[⟨"a", "b", [], []⟩]⟩
    t.newClassName "a$x$y" = "b$x$y" ∧ t.newSimpleName "a$x$y" "x$y" = "y" := by
  decide +kernel

end RenameTable

end JarRemap
