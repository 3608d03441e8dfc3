import JarRemap.Proofs.Pool.Grow

/-!
# Replacing an entry

An entry is replaced in its slot by one of the same width, so the layout of the pool stays, and no
other slot changes.
-/

namespace JarRemap

namespace ConstantPool

theorem size_replace (pool : ConstantPool) (i : UInt16) (k : Constant) :
    (pool.replace i k).size = pool.size := by
  show (pool.slots.setIfInBounds i.toNat (some k)).size = pool.slots.size
  exact Array.size_setIfInBounds

theorem entry?_replace_self {pool : ConstantPool} {i : UInt16} {current k : Constant}
    (h : pool.entry? i = some current) : entry? (pool.replace i k) i = some k := by
  have hlt : i.toNat < pool.slots.size := lt_size_of_entry h
  show ((pool.slots.setIfInBounds i.toNat (some k))[i.toNat]?).join = some k
  rw [Array.getElem?_setIfInBounds_self_of_lt hlt]
  rfl

theorem entry?_replace_of_ne {pool : ConstantPool} {i j : UInt16} (k : Constant) (h : j ≠ i) :
    entry? (pool.replace i k) j = pool.entry? j := by
  have hne : i.toNat ≠ j.toNat := fun heq => h (UInt16.toNat_inj.1 heq).symm
  show ((pool.slots.setIfInBounds i.toNat (some k))[j.toNat]?).join = _
  rw [Array.getElem?_setIfInBounds_ne hne]
  rfl

/-- An entry that a slot holds begins in that slot. -/
theorem exists_of_getElem?_flatMap {entries : List Constant} {n : ℕ} {k : Constant}
    (h : (entries.flatMap slotsOf)[n]? = some (some k)) :
    ∃ front back, entries = front ++ k :: back ∧ n = (front.flatMap slotsOf).length := by
  induction entries generalizing n with
  | nil => cases h
  | cons j rest ih =>
    rw [List.flatMap_cons] at h
    by_cases hlt : n < (slotsOf j).length
    · rw [List.getElem?_append_left hlt] at h
      -- The second slot of a wide entry holds nothing, so this is the first one.
      rw [slotsOf] at h hlt
      split at h
      · rcases n with _ | _ | n
        · obtain rfl := Option.some.inj (Option.some.inj h)
          exact ⟨[], rest, rfl, rfl⟩
        · cases h
        · cases h
      · rcases n with _ | n
        · obtain rfl := Option.some.inj (Option.some.inj h)
          exact ⟨[], rest, rfl, rfl⟩
        · cases h
    · rw [List.getElem?_append_right (by omega)] at h
      obtain ⟨front, back, rfl, hn⟩ := ih h
      refine ⟨j :: front, back, rfl, ?_⟩
      rw [List.flatMap_cons, List.length_append]
      omega

theorem set_flatMap_slotsOf {current k : Constant} (hwide : current.isWide = k.isWide)
    (front back : List Constant) :
    ((front ++ current :: back).flatMap slotsOf).set (front.flatMap slotsOf).length (some k) =
      (front ++ k :: back).flatMap slotsOf := by
  rw [List.flatMap_append, List.flatMap_append, List.flatMap_cons, List.flatMap_cons,
    List.set_append_right _ _ le_rfl, Nat.sub_self, slotsOf, slotsOf, hwide]
  split <;> rfl

theorem Valid.replace {pool : ConstantPool} (h : pool.Valid) {i : UInt16} {current k : Constant}
    (hi : pool.entry? i = some current) (hwide : current.isWide = k.isWide) (hk : k.Storable) :
    (pool.replace i k).Valid := by
  obtain ⟨entries, hholds, hstorable⟩ := h
  rw [ entry?, ← Array.getElem?_toList, hholds, Option.join_eq_some_iff] at hi
  rcases hn : i.toNat with _ | n
  · rw [hn] at hi
    cases hi
  rw [hn, List.getElem?_cons_succ] at hi
  -- An entry of the same width takes the place of the one that begins in the slot.
  obtain ⟨front, back, rfl, hlength⟩ := exists_of_getElem?_flatMap hi
  refine ⟨front ++ k :: back, ?_, ?_⟩
  · show (pool.slots.setIfInBounds i.toNat (some k)).toList = _
    rw [Array.toList_setIfInBounds, hholds, hn, List.set_cons_succ, hlength,
      set_flatMap_slotsOf hwide]
  · intro j hj
    rcases List.mem_append.1 hj with hj | hj
    · exact hstorable j (List.mem_append_left _ hj)
    · rcases List.mem_cons.1 hj with rfl | hj
      · exact hk
      · exact hstorable j (List.mem_append_right _ (List.mem_cons_of_mem _ hj))

end ConstantPool

open ConstantPool

/-- A replacement that succeeds puts the entry into a slot that holds one of the same width. -/
theorem PoolEdit.set_ok {i : UInt16} {k : Constant} {pool pool' : ConstantPool}
    (h : PoolEdit.set i k pool = (.ok (), pool')) :
    pool' = pool.replace i k ∧ textRefusal? k = none ∧
      ∃ current, pool.entry? i = some current ∧ current.isWide = k.isWide := by
  rw [PoolEdit.set] at h
  rcases hrefusal : pool.setRefusal? i k with _ | e
  · simp only [hrefusal] at h
    cases h
    refine ⟨rfl, ?_⟩
    rw [setRefusal?] at hrefusal
    rcases htext : textRefusal? k with _ | e
    · simp only [htext] at hrefusal
      rcases hi : pool.entry? i with _ | current
      · simp [hi] at hrefusal
      · refine ⟨rfl, current, rfl, ?_⟩
        simpa [hi] using hrefusal
    · simp [htext] at hrefusal
  · simp only [hrefusal] at h
    cases h

theorem PoolEdit.set_error {i : UInt16} {k : Constant} {e : ClassError}
    {pool pool' : ConstantPool} (h : PoolEdit.set i k pool = (.error e, pool')) : pool' = pool := by
  rw [PoolEdit.set] at h
  split at h <;> cases h
  rfl

end JarRemap
