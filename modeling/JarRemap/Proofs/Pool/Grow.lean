import JarRemap.ConstantPool.Edit
import JarRemap.Proofs.Codec.Pool
import JarRemap.Proofs.Pool.Resolve

/-!
# Pools that grow

A pool is *valid* if it is laid out as a class file lays it out and can be written. Putting an entry
keeps a pool valid and keeps every entry that it has (`Grows`), whether the edit succeeds or not.
`PoolEdit.Adds` states this for a whole edit, together with what its result resolves to; edits are
composed with `Adds.bind`.
-/

namespace JarRemap

namespace ConstantPool

/-! ## Validity -/

/-- The pool is laid out as entries one after the other, and each of them can be written and read
back. -/
def Valid (pool : ConstantPool) : Prop :=
  ∃ entries, pool.Holds entries ∧ ∀ k ∈ entries, k.Storable

/-- The second pool has the entries of the first, and what it has beyond them is allowed. -/
structure Grows (allowed : Constant → Prop) (pool pool' : ConstantPool) : Prop where
  valid : pool'.Valid
  size_le : pool.size ≤ pool'.size
  size_le_max : pool'.size ≤ max pool.size maxSize
  kept : ∀ i k, pool.entry? i = some k → pool'.entry? i = some k
  added : ∀ i k, pool'.entry? i = some k →
    pool.entry? i = some k ∨ pool.size ≤ i.toNat ∧ allowed k

namespace Grows

variable {allowed : Constant → Prop} {pool pool' pool'' : ConstantPool}

protected theorem refl (h : pool.Valid) : Grows allowed pool pool :=
  ⟨h, le_rfl, le_max_left _ _, fun _ _ h => h, fun _ _ h => .inl h⟩

protected theorem trans (h : Grows allowed pool pool') (h' : Grows allowed pool' pool'') :
    Grows allowed pool pool'' := by
  refine ⟨h'.valid, h.size_le.trans h'.size_le, ?_, fun i k hk => h'.kept i k (h.kept i k hk), ?_⟩
  · exact h'.size_le_max.trans (max_le h.size_le_max (le_max_right _ _))
  intro i k hk
  rcases h'.added i k hk with hk | ⟨hle, hk⟩
  · exact h.added i k hk
  · exact .inr ⟨h.size_le.trans hle, hk⟩

/-- A pool within the limit of slots does not grow beyond it. -/
theorem le_maxSize (h : Grows allowed pool pool') (hsize : pool.size ≤ maxSize) :
    pool'.size ≤ maxSize :=
  h.size_le_max.trans (max_le hsize le_rfl)

theorem text (h : Grows allowed pool pool') {i : UInt16} {s : String} (hs : pool.text i = .ok s) :
    pool'.text i = .ok s :=
  text_ok_iff.2 (h.kept i _ (text_ok_iff.1 hs))

theorem className (h : Grows allowed pool pool') {i : UInt16} {s : String}
    (hs : pool.className i = .ok s) : pool'.className i = .ok s := by
  obtain ⟨name, hi, hname⟩ := className_ok_iff.1 hs
  exact className_ok_iff.2 ⟨name, h.kept i _ hi, h.text hname⟩

end Grows

/-! ## Appending -/

theorem lt_size_of_entry {pool : ConstantPool} {i : UInt16} {k : Constant}
    (h : pool.entry? i = some k) : i.toNat < pool.size := by
  by_contra hle
  rw [ entry?, Array.getElem?_eq_none (by simpa [size] using hle)] at h
  cases h

theorem valid_empty : empty.Valid :=
  ⟨[], rfl, by simp⟩

theorem slots_append (pool : ConstantPool) (k : Constant) :
    (pool.append k).slots = pool.slots ++ slotsOf k :=
  rfl

theorem size_append (pool : ConstantPool) (k : Constant) :
    (pool.append k).size = pool.size + k.width := by
  rw [size, slots_append, ← Array.length_toList, Array.toList_appendList, List.length_append,
    length_slotsOf, Array.length_toList, size]

theorem Valid.append {pool : ConstantPool} (h : pool.Valid) {k : Constant} (hk : k.Storable) :
    (pool.append k).Valid := by
  obtain ⟨entries, hholds, hstorable⟩ := h
  refine ⟨entries ++ [k], ?_, ?_⟩
  · rw [Holds, slots_append, Array.toList_appendList, hholds]
    simp
  · simpa [or_imp, forall_and] using ⟨hstorable, hk⟩

theorem entry?_append (pool : ConstantPool) (k : Constant) (i : UInt16) :
    entry? (pool.append k) i =
      if i.toNat < pool.size then pool.entry? i
      else if i.toNat = pool.size then some k else none := by
  rw [ entry?, entry?, slots_append, ← Array.getElem?_toList, ← Array.getElem?_toList,
    Array.toList_appendList, List.getElem?_append, Array.length_toList, size]
  by_cases hlt : i.toNat < pool.slots.size
  · rw [if_pos hlt, if_pos hlt]
  · rw [if_neg hlt, if_neg hlt]
    by_cases heq : i.toNat = pool.slots.size
    · rw [if_pos heq, heq, Nat.sub_self, slotsOf]
      split <;> rfl
    · rw [if_neg heq, slotsOf]
      obtain ⟨n, hn⟩ : ∃ n, i.toNat - pool.slots.size = n + 1 :=
        Nat.exists_eq_succ_of_ne_zero (by omega)
      rw [hn]
      split <;> cases n <;> simp

theorem Valid.grows_append {pool : ConstantPool} (h : pool.Valid) {k : Constant} (hk : k.Storable)
    (hsize : pool.size + k.width ≤ maxSize) {allowed : Constant → Prop} (hallowed : allowed k) :
    Grows allowed pool (pool.append k) := by
  refine ⟨h.append hk, ?_, ?_, fun i j hj => ?_, fun i j hj => ?_⟩
  · exact size_append pool k ▸ Nat.le_add_right _ _
  · exact size_append pool k ▸ hsize.trans (le_max_right _ _)
  · rw [entry?_append, if_pos (lt_size_of_entry hj), hj]
  · rw [entry?_append] at hj
    split at hj
    · exact .inl hj
    · split at hj
      · obtain rfl := Option.some.inj hj
        exact .inr ⟨by omega, hallowed⟩
      · cases hj

theorem entry?_append_size {pool : ConstantPool} {k : Constant}
    (hsize : pool.size + k.width ≤ maxSize) :
    entry? (pool.append k) (UInt16.ofNat pool.size) = some k := by
  have := width_pos k
  rw [maxSize] at hsize
  rw [entry?_append, Bytes.toNat_ofNat16 (by omega), if_neg (lt_irrefl _), if_pos rfl]

/-- An entry that is not refused for its length can be stored, unless it is bytes for a text. -/
theorem storable_of_textRefusal? {k : Constant} (h : textRefusal? k = none)
    (hraw : ∀ bytes, k ≠ .rawUtf8 bytes) : k.Storable := by
  cases k
  case utf8 s =>
    rw [textRefusal?] at h
    simp only [Constant.textSize?, Text.ModifiedUtf8.size_eq_length_encode] at h
    rw [Constant.Storable]
    by_contra hle
    rw [if_pos (by rw [maxTextSize]; omega)] at h
    cases h
  case rawUtf8 bytes => exact absurd rfl (hraw bytes)
  all_goals trivial

end ConstantPool

namespace PoolEdit

open ConstantPool

variable {α β : Type} {allowed : Constant → Prop} {pool : ConstantPool}

/-! ## Edits -/

/-- Started in `pool`, the edit only adds allowed entries, and `post` holds of what it gives. -/
def Adds (allowed : Constant → Prop) (pool : ConstantPool) (x : PoolEdit α)
    (post : ConstantPool → α → Prop) : Prop :=
  pool.Valid → ∀ outcome pool', x pool = (outcome, pool') →
    pool.Grows allowed pool' ∧ ∀ a, outcome = .ok a → post pool' a

theorem Adds.pure {a : α} {post : ConstantPool → α → Prop} (h : post pool a) :
    Adds allowed pool (Pure.pure a) post := by
  rintro hvalid _ _ ⟨⟩
  exact ⟨.refl hvalid, fun _ ha => Except.ok.inj ha ▸ h⟩

theorem Adds.bind {x : PoolEdit α} {f : α → PoolEdit β} {post : ConstantPool → α → Prop}
    {post' : ConstantPool → β → Prop} (hx : Adds allowed pool x post)
    (hf : ∀ a pool', pool.Grows allowed pool' → post pool' a → Adds allowed pool' (f a) post') :
    Adds allowed pool (x >>= f) post' := by
  intro hvalid outcome pool'' h
  rw [bind_stateful] at h
  rcases hxp : x pool with ⟨e | a, pool'⟩
  · rw [hxp] at h
    obtain ⟨rfl, rfl⟩ := Prod.mk.inj h
    exact ⟨(hx hvalid _ _ hxp).1, fun _ ha => by cases ha⟩
  · rw [hxp] at h
    obtain ⟨hgrows, hpost⟩ := hx hvalid _ _ hxp
    obtain ⟨hgrows', hpost'⟩ := hf a pool' hgrows (hpost a rfl) hgrows.valid outcome pool'' h
    exact ⟨hgrows.trans hgrows', hpost'⟩

/-- The cases of pushing an entry: it fails and changes nothing, or it appends the entry. -/
theorem push_cases {k : Constant} {outcome : Except ClassError UInt16} {pool' : ConstantPool}
    (h : push k pool = (outcome, pool')) :
    (∃ e, outcome = .error e ∧ pool' = pool) ∨
    (outcome = .ok (UInt16.ofNat pool.size) ∧ pool' = pool.append k ∧ textRefusal? k = none ∧
      pool.size + k.width ≤ maxSize) := by
  rw [push] at h
  rcases hpush : pool.pushRefusal? k with _ | e
  · simp only [hpush] at h
    cases h
    rw [pushRefusal?] at hpush
    rcases htext : textRefusal? k with _ | e
    · simp only [htext] at hpush
      refine .inr ⟨rfl, rfl, rfl, ?_⟩
      by_contra hsize
      rw [if_pos (by omega)] at hpush
      cases hpush
    · simp only [htext] at hpush
      cases hpush
  · simp only [hpush] at h
    cases h
    exact .inl ⟨e, rfl, rfl⟩

/-- The cases of putting an entry: it fails, it finds the entry, or it appends the entry. -/
theorem put_cases {k : Constant} {outcome : Except ClassError UInt16} {pool' : ConstantPool}
    (h : put k pool = (outcome, pool')) :
    (∃ e, outcome = .error e ∧ pool' = pool) ∨
    (∃ i, outcome = .ok i ∧ pool' = pool ∧ pool.entry? i = some k) ∨
    (outcome = .ok (UInt16.ofNat pool.size) ∧ pool' = pool.append k ∧ textRefusal? k = none ∧
      pool.size + k.width ≤ maxSize) := by
  rw [put] at h
  rcases hfind : pool.find? k with _ | i
  · simp only [hfind] at h
    exact (push_cases h).imp_right .inr
  · simp only [hfind] at h
    cases h
    refine .inr (.inl ⟨i, rfl, rfl, ?_⟩)
    -- The directory may be stale, so what it gives is compared with what the slot holds.
    have hi := (Option.filter_eq_some_iff.1 hfind).2
    exact beq_iff_eq.1 hi

theorem put_adds {k : Constant} (hraw : ∀ bytes, k ≠ .rawUtf8 bytes) (hallowed : allowed k) :
    Adds allowed pool (put k) fun pool i => pool.entry? i = some k := by
  intro hvalid outcome pool' h
  rcases put_cases h with ⟨e, rfl, rfl⟩ | ⟨i, rfl, rfl, hi⟩ | ⟨rfl, rfl, hrefusal, hsize⟩
  · exact ⟨.refl hvalid, fun _ ha => by cases ha⟩
  · refine ⟨.refl hvalid, ?_⟩
    rintro _ ⟨⟩
    exact hi
  · have hk := storable_of_textRefusal? hrefusal hraw
    refine ⟨hvalid.grows_append hk hsize hallowed, ?_⟩
    rintro _ ⟨⟩
    exact entry?_append_size hsize

theorem putText_adds {s : String} (hallowed : allowed (.utf8 s)) :
    Adds allowed pool (putText s) fun pool i => pool.text i = .ok s := by
  intro hvalid outcome pool' h
  obtain ⟨hgrows, hpost⟩ := put_adds (by rintro _ ⟨⟩) hallowed hvalid outcome pool' h
  exact ⟨hgrows, fun i hi => text_ok_iff.2 (hpost i hi)⟩

theorem putClass_adds {s : String} (htext : allowed (.utf8 s))
    (hclass : ∀ i, allowed (.classEntry i)) :
    Adds allowed pool (putClass s) fun pool i => pool.className i = .ok s := by
  refine (putText_adds htext).bind fun name pool' _ hname => ?_
  intro hvalid outcome pool'' h
  obtain ⟨hgrows, hpost⟩ := put_adds (by rintro _ ⟨⟩) (hclass name) hvalid outcome pool'' h
  exact ⟨hgrows, fun i hi => className_ok_iff.2 ⟨name, hpost i hi, hgrows.text hname⟩⟩

theorem putNameAndType_adds {s t : String} (hname : allowed (.utf8 s))
    (hdescriptor : allowed (.utf8 t)) (hpair : ∀ i j, allowed (.nameAndType i j)) :
    Adds allowed pool (putNameAndType s t) fun pool i => pool.nameAndType i = .ok (s, t) := by
  refine (putText_adds hname).bind fun name pool' _ hs => ?_
  refine (putText_adds hdescriptor).bind fun descriptor _ hgrows ht => ?_
  intro hvalid outcome pool'' h
  obtain ⟨hgrows', hpost⟩ :=
    put_adds (by rintro _ ⟨⟩) (hpair name descriptor) hvalid outcome pool'' h
  refine ⟨hgrows', fun i hi => nameAndType_ok_iff.2 ⟨name, descriptor, hpost i hi, ?_, ?_⟩⟩
  · exact hgrows'.text (hgrows.text hs)
  · exact hgrows'.text ht

end PoolEdit

end JarRemap
