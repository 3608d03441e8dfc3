import JarRemap.Proofs.Text.Split
import JarRemap.RenameTable.Basic

/-!
# Class names under a table

The search for the closest class around a nested one goes through a name from its end. Here it is
put as a recursion on names: a name without a row of its own follows what stands before its last `$`
(`RenameTable.newClassName_nested`), and a name without a `$` stays. What is said of new names is
shown along this recursion (`RenameTable.newClassName_recursion`).
-/

namespace JarRemap

namespace RenameTable

variable {t : RenameTable}

/-! ## Places to cut at -/

theorem hasNameOfLength_of_className? {name new : String} (h : t.className? name = some new) :
    t.hasNameOfLength name.length = true := by
  obtain ⟨c, hc, -⟩ := Option.map_eq_some_iff.1 h
  have hname : c.oldName = name := by simpa using List.find?_some hc
  rw [hasNameOfLength, List.any_eq_true]
  exact ⟨c, List.mem_of_find?_eq_some hc, by simp [hname]⟩

/-- A character that is no place to cut at is passed. -/
theorem newNestedName?_pass {c : Char} (hc : c ≠ '$') (n : ℕ) (front back : List Char) :
    t.newNestedName? (n + 1) (c :: front) back = t.newNestedName? n front (c :: back) := by
  rw [newNestedName?]
  simp [hc]

/-- At a `$` the front is looked up. -/
theorem newNestedName?_cut (front back : List Char) :
    t.newNestedName? (front.length + 1) ('$' :: front) back =
      match t.className? (String.ofList front.reverse) with
      | some new => some (new ++ String.ofList ('$' :: back))
      | none => t.newNestedName? front.length front ('$' :: back) := by
  rw [newNestedName?]
  by_cases hlength : t.hasNameOfLength front.length = true
  · rw [hlength]
    rfl
  · have hnone : t.className? (String.ofList front.reverse) = none := by
      rcases hrow : t.className? (String.ofList front.reverse) with _ | new
      · rfl
      · have := hasNameOfLength_of_className? hrow
        rw [String.length_ofList, List.length_reverse] at this
        exact absurd this hlength
    simp only [hlength, hnone, Bool.and_false, Bool.false_eq_true, if_false]

/-- What stands behind is only appended. -/
theorem newNestedName?_append (front back rest : List Char) :
    t.newNestedName? front.length front (back ++ rest) =
      (t.newNestedName? front.length front back).map (· ++ String.ofList rest) := by
  induction front generalizing back with
  | nil => rfl
  | cons c front ih =>
    rw [List.length_cons]
    by_cases hc : c = '$'
    · subst hc
      rw [newNestedName?_cut, newNestedName?_cut]
      rcases t.className? (String.ofList front.reverse) with _ | new
      · exact ih ('$' :: back)
      · simp [String.append_assoc]
    · rw [newNestedName?_pass hc, newNestedName?_pass hc]
      exact ih (c :: back)

/-- Characters between the last `$` and the end are passed. -/
theorem newNestedName?_skip {front back : List Char} (hback : '$' ∉ back) :
    t.newNestedName? (back ++ front).length (back ++ front) [] =
      t.newNestedName? front.length front back.reverse := by
  have hskip : ∀ rest, t.newNestedName? (back ++ front).length (back ++ front) rest =
      t.newNestedName? front.length front (back.reverse ++ rest) := by
    induction back with
    | nil => exact fun _ => rfl
    | cons c back ih =>
      rw [List.mem_cons, not_or] at hback
      intro rest
      rw [List.cons_append, List.length_cons, newNestedName?_pass (Ne.symm hback.1), ih hback.2,
        List.reverse_cons, List.append_assoc]
      rfl
  rw [hskip, List.append_nil]

/-! ## The recursion -/

theorem newClassName_of_row {name new : String} (h : t.className? name = some new) :
    t.newClassName name = new := by
  rw [newClassName, h]

/-- Where every row keeps the name of its class, every name stays. -/
theorem newClassName_eq_self (h : ∀ name new, t.className? name = some new → new = name)
    (name : String) : t.newClassName name = name := by
  have hnested : ∀ (n : ℕ) (front back : List Char) (new : String),
      t.newNestedName? n front back = some new → new = String.ofList (front.reverse ++ back) := by
    intro n front
    induction front generalizing n with
    | nil =>
      intro back new hnew
      cases n <;> cases hnew
    | cons c front ih =>
      intro back new hnew
      cases n with
      | zero => cases hnew
      | succ n =>
        have hrest := ih n (c :: back) new
        rw [List.reverse_cons, List.append_assoc]
        rw [newNestedName?] at hnew
        split at hnew
        case isTrue hcut =>
          split at hnew
          case h_1 found hrow =>
            cases hnew
            obtain rfl : c = '$' := by simpa using (Bool.and_eq_true_iff.1 hcut).1
            rw [h _ _ hrow, ← String.ofList_append]
            rfl
          case h_2 => exact hrest hnew
        case isFalse => exact hrest hnew
  rw [newClassName]
  rcases hrow : t.className? name with _ | new
  · dsimp only
    rcases hnew : t.newNestedName? name.length name.toList.reverse [] with _ | new
    · rfl
    · rw [Option.getD_some, hnested _ _ _ _ hnew]
      simp
  · exact h name new hrow

/-- A name without a row and without a place to cut at stays. -/
theorem newClassName_plain {name : String} (hrow : t.className? name = none)
    (hplain : '$' ∉ name.toList) : t.newClassName name = name := by
  have hskip : t.newNestedName? (name.toList.reverse ++ []).length (name.toList.reverse ++ []) [] =
      t.newNestedName? 0 [] name.toList.reverse.reverse :=
    newNestedName?_skip (by simpa using hplain)
  rw [List.append_nil, List.length_reverse, String.length_toList] at hskip
  rw [newClassName, hrow, hskip]
  rfl

/-- A nested class without a row follows the class around it. -/
theorem newClassName_nested {front back : String}
    (hrow : t.className? (front ++ "$" ++ back) = none) (hback : '$' ∉ back.toList) :
    t.newClassName (front ++ "$" ++ back) = t.newClassName front ++ "$" ++ back := by
  have hreverse : (front ++ "$" ++ back).toList.reverse =
      back.toList.reverse ++ '$' :: front.toList.reverse := by
    simp
  have hrest : String.ofList ('$' :: back.toList) = "$" ++ back := by
    rw [← String.toList_inj]
    simp
  -- The search cuts at the last `$`; without a row there it goes on as for `front` alone.
  have hsearch : t.newNestedName? (front ++ "$" ++ back).length
      (front ++ "$" ++ back).toList.reverse [] =
      match t.className? front with
      | some new => some (new ++ ("$" ++ back))
      | none =>
        (t.newNestedName? front.length front.toList.reverse []).map (· ++ ("$" ++ back)) := by
    rw [← String.length_toList, ← List.length_reverse, hreverse,
      newNestedName?_skip (by simpa using hback), List.reverse_reverse, List.length_cons,
      newNestedName?_cut, List.reverse_reverse, String.ofList_toList, hrest]
    rcases t.className? front with _ | new
    · have happend := newNestedName?_append (t := t) front.toList.reverse [] ('$' :: back.toList)
      rw [List.nil_append, hrest, List.length_reverse, String.length_toList] at happend
      rw [List.length_reverse, String.length_toList]
      exact happend
    · rfl
  rw [newClassName, hrow, hsearch, newClassName]
  rcases t.className? front with _ | new
  · rcases t.newNestedName? front.length front.toList.reverse [] with _ | new
    · rfl
    · simp [String.append_assoc]
  · simp [String.append_assoc]

/-- Every name has a last place to cut at, or none. -/
theorem cut_cases (name : String) :
    '$' ∉ name.toList ∨ ∃ front back, name = front ++ "$" ++ back ∧ '$' ∉ back.toList := by
  rcases hcut : Text.splitLast? '$' name with _ | ⟨front, back⟩
  · exact .inl (Text.splitLast?_eq_none_iff.1 hcut)
  · obtain ⟨hname, hback⟩ := Text.splitLast?_eq_some_iff.1 hcut
    refine .inr ⟨front, back, ?_, hback⟩
    rw [← String.toList_inj, hname]
    simp

/-- What holds of names with a row and of those that stay holds of all, if a nested class without a
row has it from the class around it. -/
theorem newClassName_recursion {motive : String → String → Prop}
    (hrow : ∀ name new, t.className? name = some new → motive name new)
    (hplain : ∀ name, t.className? name = none → '$' ∉ name.toList → motive name name)
    (hnested : ∀ front back, t.className? (front ++ "$" ++ back) = none → '$' ∉ back.toList →
      motive front (t.newClassName front) →
      motive (front ++ "$" ++ back) (t.newClassName front ++ "$" ++ back)) (name : String) :
    motive name (t.newClassName name) := by
  induction hlength : name.length using Nat.strong_induction_on generalizing name with
  | _ n ih =>
    rcases hclass : t.className? name with _ | new
    · rcases cut_cases name with hcut | ⟨front, back, rfl, hback⟩
      · rw [newClassName_plain hclass hcut]
        exact hplain name hclass hcut
      · rw [newClassName_nested hclass hback]
        refine hnested front back hclass hback (ih front.length ?_ front rfl)
        rw [← hlength, String.length_append, String.length_append]
        exact Nat.lt_of_lt_of_le (Nat.lt_succ_self _) (Nat.le_add_right _ _)
    · rw [newClassName_of_row hclass]
      exact hrow name new hclass

end RenameTable

end JarRemap
