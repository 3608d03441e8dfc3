import JarRemap.Proofs.RenameTable.ClassName

/-!
# The row that decides on a class name

The search for the new name of a class goes from the class outwards. What it finds can be said
without the search: of the fronts of a name that end where the name ends or before a `$`, the
longest one that has a row is replaced by the new name in this row, and what stands behind it stays
(`RenameTable.longest_front_replaced`). No other row has a part in this, nor do rows for names that
the name only begins with.
-/

namespace JarRemap

/-- What can stand behind the name of a class in that of another: nothing, or a `$` and more. -/
def IsNestedPart (back : String) : Prop :=
  ∀ c ∈ back.toList.head?, c = '$'

instance (back : String) : Decidable (IsNestedPart back) :=
  Option.decidableForallMem back.toList.head?

/-- The name is that of the class `front`, or of one nested in it. -/
def IsFrontOf (front name : String) : Prop :=
  ∃ back, name = front ++ back ∧ IsNestedPart back

/-! ## Fronts of names -/

theorem isFrontOf_self (name : String) : IsFrontOf name name :=
  ⟨"", String.append_empty.symm, by simp [IsNestedPart]⟩

theorem IsNestedPart.append {back : String} (h : IsNestedPart back) (rest : String) :
    IsNestedPart (back ++ "$" ++ rest) := by
  unfold IsNestedPart at h ⊢
  rw [String.toList_append, String.toList_append, List.append_assoc]
  rcases hletters : back.toList with _ | ⟨c, after⟩
  · simp
  · rw [hletters] at h
    exact h

/-- Without a `$` the only front of a name is the name. -/
theorem IsFrontOf.eq_of_plain {front name : String} (h : IsFrontOf front name)
    (hplain : '$' ∉ name.toList) : front = name := by
  obtain ⟨back, rfl, hback⟩ := h
  rw [String.toList_append, List.mem_append, not_or] at hplain
  unfold IsNestedPart at hback
  rcases hletters : back.toList with _ | ⟨c, after⟩
  · rw [String.toList_eq_nil_iff.1 hletters, String.append_empty]
  · rw [hletters] at hback hplain
    obtain rfl := hback c rfl
    exact absurd List.mem_cons_self hplain.2

/-- A front of a nested class that is not all of its name is one of the class around it. -/
theorem IsFrontOf.of_nested {front outer simple : String}
    (h : IsFrontOf front (outer ++ "$" ++ simple)) (hne : front ≠ outer ++ "$" ++ simple)
    (hsimple : '$' ∉ simple.toList) : IsFrontOf front outer := by
  obtain ⟨back, hname, hback⟩ := h
  unfold IsNestedPart at hback
  rcases hletters : back.toList with _ | ⟨c, after⟩
  · rw [String.toList_eq_nil_iff.1 hletters, String.append_empty] at hname
    exact absurd hname.symm hne
  rw [hletters] at hback
  obtain rfl := hback c rfl
  have hlists : outer.toList ++ '$' :: simple.toList = front.toList ++ '$' :: after := by
    rw [← hletters, ← String.toList_append, ← hname]
    simp
  rcases List.append_eq_append_iff.1 hlists with ⟨mid, hfront, hrest⟩ | ⟨mid, houter, hrest⟩
  · -- Behind `outer` nothing but its own `$` is one, so `front` ends there.
    rcases mid with _ | ⟨d, mid⟩
    · rw [List.append_nil, String.toList_inj] at hfront
      exact hfront ▸ isFrontOf_self outer
    · refine absurd ?_ hsimple
      rw [(List.cons.inj hrest).2]
      exact List.mem_append_right _ List.mem_cons_self
  · refine ⟨String.ofList mid, ?_, ?_⟩
    · rw [← String.toList_inj, houter, String.toList_append, String.toList_ofList]
    · unfold IsNestedPart
      rw [String.toList_ofList]
      rcases mid with _ | ⟨d, mid⟩
      · simp
      · rintro c ⟨⟩
        exact (List.cons.inj hrest).1.symm

namespace RenameTable

variable {t t' : RenameTable} {name front back new : String}

/-! ## The closest row -/

/-- No class that the name leads through has a row. -/
def NoFront (t : RenameTable) (name : String) : Prop :=
  ∀ front, IsFrontOf front name → t.className? front = none

/-- The longest front of the name with a row is `front`, which has the new name `new`, and `back`
is what stands behind it. -/
structure ClosestRow (t : RenameTable) (name front new back : String) : Prop where
  name_eq : name = front ++ back
  nested : IsNestedPart back
  row : t.className? front = some new
  longest : ∀ other, IsFrontOf other name → front.length < other.length →
    t.className? other = none

theorem closestRow_of_row (h : t.className? name = some new) : t.ClosestRow name name new "" := by
  refine ⟨String.append_empty.symm, by simp [IsNestedPart], h, fun other hother hlength => ?_⟩
  obtain ⟨back, rfl, -⟩ := hother
  rw [String.length_append] at hlength
  omega

theorem noFront_of_plain (h : t.className? name = none) (hplain : '$' ∉ name.toList) :
    t.NoFront name :=
  fun _ hfront => hfront.eq_of_plain hplain ▸ h

variable {outer simple : String}

theorem ClosestRow.nest (h : t.ClosestRow outer front new back)
    (hnone : t.className? (outer ++ "$" ++ simple) = none) (hsimple : '$' ∉ simple.toList) :
    t.ClosestRow (outer ++ "$" ++ simple) front new (back ++ "$" ++ simple) := by
  refine ⟨?_, h.nested.append simple, h.row, fun other hother hlength => ?_⟩
  · rw [h.name_eq]
    simp only [String.append_assoc]
  · by_cases hself : other = outer ++ "$" ++ simple
    · rw [hself, hnone]
    · exact h.longest other (hother.of_nested hself hsimple) hlength

theorem NoFront.nest (h : t.NoFront outer)
    (hnone : t.className? (outer ++ "$" ++ simple) = none) (hsimple : '$' ∉ simple.toList) :
    t.NoFront (outer ++ "$" ++ simple) := by
  intro front hfront
  by_cases hself : front = outer ++ "$" ++ simple
  · rw [hself, hnone]
  · exact h front (hfront.of_nested hself hsimple)

/-- Some row decides, or none does and the name stays. -/
theorem closestRow_cases (t : RenameTable) (name : String) :
    (∃ front new back, t.ClosestRow name front new back ∧ t.newClassName name = new ++ back) ∨
      (t.NoFront name ∧ t.newClassName name = name) := by
  refine newClassName_recursion (motive := fun name newName =>
    (∃ front new back, t.ClosestRow name front new back ∧ newName = new ++ back) ∨
      (t.NoFront name ∧ newName = name)) ?_ ?_ ?_ name
  · exact fun name new hrow =>
      .inl ⟨name, new, "", closestRow_of_row hrow, String.append_empty.symm⟩
  · exact fun name hnone hplain => .inr ⟨noFront_of_plain hnone hplain, rfl⟩
  · rintro outer simple hnone hsimple (⟨front, new, back, hrow, hnew⟩ | ⟨hfront, hnew⟩)
    · refine .inl ⟨front, new, _, hrow.nest hnone hsimple, ?_⟩
      rw [hnew]
      simp only [String.append_assoc]
    · exact .inr ⟨hfront.nest hnone hsimple, by rw [hnew]⟩

/-- The longest front with a row is the only one of this length. -/
theorem ClosestRow.unique (h : t.ClosestRow name front new back) {front' new' back' : String}
    (h' : t.ClosestRow name front' new' back') : new ++ back = new' ++ back' := by
  have hle : ∀ {front new back front' new' back' : String}, t.ClosestRow name front new back →
      t.ClosestRow name front' new' back' → front'.length ≤ front.length := by
    intro front new back front' new' back' h h'
    by_contra hlt
    have hnone := h.longest front' ⟨back', h'.name_eq, h'.nested⟩ (by omega)
    cases hnone.symm.trans h'.row
  have hlength : front.toList.length = front'.toList.length := by
    rw [String.length_toList, String.length_toList]
    exact le_antisymm (hle h' h) (hle h h')
  have hsame := h.name_eq.symm.trans h'.name_eq
  rw [← String.toList_inj, String.toList_append, String.toList_append] at hsame
  obtain ⟨hfront, hback⟩ := List.append_inj hsame hlength
  obtain rfl := String.toList_inj.1 hfront
  obtain rfl := String.toList_inj.1 hback
  rw [Option.some.inj (h.row.symm.trans h'.row)]

/-- The row that decides says what the new name is. -/
theorem ClosestRow.newClassName_eq (h : t.ClosestRow name front new back) :
    t.newClassName name = new ++ back := by
  rcases t.closestRow_cases name with ⟨front', new', back', h', hnew⟩ | ⟨hnone, -⟩
  · rw [hnew, h.unique h']
  · cases (hnone front ⟨back, h.name_eq, h.nested⟩).symm.trans h.row

/-- A class name is renamed by the row of the longest of its fronts that has one, a front being all
of the name or what stands before a `$` in it: the front becomes the new name in the row, and what
stands behind it stays. Without such a row the name stays. So in any other table in which this front
has the same new name and no longer one has a row, the name becomes the same, whatever else the two
tables say. -/
theorem longest_front_replaced (t : RenameTable) (name : String) :
    (∃ front new back, t.ClosestRow name front new back ∧ t.newClassName name = new ++ back ∧
      ∀ t' : RenameTable, t'.className? front = t.className? front →
        (∀ other, IsFrontOf other name → front.length < other.length →
          t'.className? other = none) →
        t'.newClassName name = t.newClassName name) ∨
    (t.NoFront name ∧ t.newClassName name = name) := by
  refine (t.closestRow_cases name).imp_left ?_
  rintro ⟨front, new, back, hrow, hnew⟩
  refine ⟨front, new, back, hrow, hnew, fun t' hsame hlonger => ?_⟩
  have hrow' : t'.ClosestRow name front new back :=
    ⟨hrow.name_eq, hrow.nested, hsame.trans hrow.row, hlonger⟩
  rw [hrow'.newClassName_eq, hnew]

/-- A `$` at the end of a name or two in a row are places to cut at as any other. -/
example : (⟨[⟨"a$", "b", [], []⟩, ⟨"a", "c", [], []⟩]⟩ : RenameTable).newClassName "a$$x" =
    "b$x" := by
  decide +kernel

end RenameTable

end JarRemap
