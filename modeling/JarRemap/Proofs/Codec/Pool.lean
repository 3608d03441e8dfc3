import JarRemap.Proofs.Codec.Constant

/-!
# Pools in bytes

Reading a pool takes one spelling for each entry until the slots that the count asks for are filled
(`ConstantPool.read_ok_iff`). The second slot of the last entry may lie beyond the count, which
`Fills` allows; apart from that, what was read is what the entries make one after the other. A pool
of the largest count whose last entry is such a one is never read to its end
(`ConstantPool.read_stops_iff`).
-/

namespace JarRemap

namespace ConstantPool

open Constant Reader

/-! ## Rows of entries -/

/-- The pool that entries make, one after the other. -/
def ofEntries (entries : List Constant) : ConstantPool :=
  entries.foldl addRead empty

/-- How many slots some entries take up. -/
def widths (entries : List Constant) : ℕ :=
  (entries.map Constant.width).sum

/-- Reading stops after these entries if it has to fill `n` slots: all are filled, and before the
last entry they were not. -/
def Fills : List Constant → ℕ → Prop
  | [], n => n = 0
  | k :: rest, n => 0 < n ∧ Fills rest (n - k.width)

/-- The pool has slot zero and the slots of these entries. -/
def Holds (pool : ConstantPool) (entries : List Constant) : Prop :=
  pool.slots.toList = none :: entries.flatMap slotsOf

@[simp] theorem widths_nil : widths [] = 0 := rfl

@[simp] theorem widths_cons (k : Constant) (rest : List Constant) :
    widths (k :: rest) = k.width + widths rest := by
  simp [widths]

theorem length_slotsOf (k : Constant) : (slotsOf k).length = k.width := by
  rw [slotsOf, width]
  split <;> rfl

theorem width_pos (k : Constant) : 0 < k.width := by
  rw [width]
  split <;> omega

theorem width_le_two (k : Constant) : k.width ≤ 2 := by
  rw [width]
  split <;> omega

theorem length_flatMap_slotsOf (entries : List Constant) :
    (entries.flatMap slotsOf).length = widths entries := by
  induction entries with
  | nil => rfl
  | cons k rest ih => rw [List.flatMap_cons, List.length_append, ih, length_slotsOf, widths_cons]

theorem slots_foldl_addRead (pool : ConstantPool) (entries : List Constant) :
    (entries.foldl addRead pool).slots.toList = pool.slots.toList ++ entries.flatMap slotsOf := by
  induction entries generalizing pool with
  | nil => simp
  | cons k rest ih =>
    rw [List.foldl_cons, ih, addRead, List.flatMap_cons, ← List.append_assoc]
    simp

theorem holds_ofEntries (entries : List Constant) : (ofEntries entries).Holds entries :=
  slots_foldl_addRead empty entries

theorem Holds.size_eq {pool : ConstantPool} {entries : List Constant} (h : pool.Holds entries) :
    pool.size = 1 + widths entries := by
  rw [size, ← Array.length_toList, h, List.length_cons, length_flatMap_slotsOf, Nat.add_comm]

/-- The slots of a pool that is not too large have numbers of 16 bits. -/
theorem toNat_ofNat_slot {pool : ConstantPool} (hsize : pool.size ≤ maxSize) {n : ℕ}
    (hn : n < pool.slots.size) : (UInt16.ofNat n).toNat = n :=
  Bytes.toNat_ofNat16 (hn.trans (Nat.lt_succ_of_le hsize))

theorem eq_nil_of_fills_zero {entries : List Constant} (h : Fills entries 0) : entries = [] := by
  cases entries with
  | nil => rfl
  | cons k rest => exact absurd h.1 (lt_irrefl 0)

/-- Either the slots are filled exactly, or the last of them is the first one of a wide entry. -/
theorem Fills.exact_or_cut {entries : List Constant} {n : ℕ} (h : Fills entries n) :
    widths entries = n ∨
      ∃ k, (entries.flatMap slotsOf)[n - 1]? = some (some k) ∧ k.isWide = true := by
  induction entries generalizing n with
  | nil => exact .inl h.symm
  | cons k rest ih =>
    obtain ⟨hn, hrest⟩ := h
    rw [widths_cons, List.flatMap_cons]
    have hpos := width_pos k
    by_cases hcut : n < k.width
    · -- The entry itself sticks out: it is wide, and its first slot is the last one.
      have hwide : k.isWide = true := by
        by_contra hwide
        rw [width, if_neg hwide] at hcut
        omega
      refine .inr ⟨k, ?_, hwide⟩
      have := width_le_two k
      obtain rfl : n = 1 := by omega
      simp [slotsOf, hwide]
    · rcases ih hrest with hexact | ⟨j, hj, hwide⟩
      · left
        omega
      · refine .inr ⟨j, ?_, hwide⟩
        have hlt : n ≠ k.width := by
          rintro rfl
          rw [Nat.sub_self] at hrest
          obtain rfl := eq_nil_of_fills_zero hrest
          cases hj
        rw [List.getElem?_append_right (by rw [length_slotsOf]; omega), length_slotsOf, ← hj]
        congr 1
        omega

theorem fills_widths (entries : List Constant) : Fills entries (widths entries) := by
  induction entries with
  | nil => rfl
  | cons k rest ih =>
    have := width_pos k
    rw [widths_cons]
    refine ⟨by omega, ?_⟩
    rwa [Nat.add_sub_cancel_left]

/-! ## Reading -/

theorem slotBehind_of_lt {index : UInt16} (h : index.toNat + 1 < UInt16.size) :
    slotBehind index = pure (index + 1) :=
  if_pos h

theorem slotBehind_of_not_lt {index : UInt16} (h : ¬ index.toNat + 1 < UInt16.size) :
    slotBehind index = stop :=
  if_neg h

theorem toNat_slotBehind {index : UInt16} {width : ℕ} (h : index.toNat + width < UInt16.size) :
    (index + UInt16.ofNat width).toNat = index.toNat + width := by
  rw [Bytes.toNat_add_ofNat16, Nat.mod_eq_of_lt h]

/-- What is read after the first entry fills the slots that this one leaves, if the slot behind it
has a number. -/
theorem readAfter_succ (pool : ConstantPool) (index : UInt16) (n : ℕ) :
    readAfter pool index (n + 1) = (do
      let k ← Constant.read index
      if index.toNat + k.width < UInt16.size then
        readAfter (pool.addRead k) (index + UInt16.ofNat k.width) (n + 1 - k.width)
      else stop) := by
  rw [readAfter]
  refine congrArg (Constant.read index >>= ·) (funext fun k => ?_)
  by_cases hwide : k.isWide = true
  · simp only [width, hwide, if_true]
    by_cases hone : index.toNat + 1 < UInt16.size
    · have hnext : (index + 1).toNat = index.toNat + 1 := toNat_slotBehind hone
      rw [slotBehind_of_lt hone, pure_bind]
      by_cases htwo : index.toNat + 2 < UInt16.size
      · rw [slotBehind_of_lt (by rwa [hnext]), pure_bind, if_pos htwo, UInt16.add_assoc]
        rcases n with _ | n
        · rw [readAfter]
        · rfl
      · rw [slotBehind_of_not_lt (by rwa [hnext]), if_neg htwo]
        rfl
    · rw [slotBehind_of_not_lt hone, if_neg (by omega)]
      rfl
  · simp only [width, hwide, Bool.false_eq_true, if_false]
    by_cases hone : index.toNat + 1 < UInt16.size
    · rw [slotBehind_of_lt hone, pure_bind, if_pos hone, Nat.add_sub_cancel]
      rfl
    · rw [slotBehind_of_not_lt hone, if_neg hone]
      rfl

theorem readAfter_ok_iff {n : ℕ} {pool pool' : ConstantPool} {index : UInt16} {c d : Cursor} :
    readAfter pool index n c = (.ok pool', d) ↔
      ∃ entries spelled, List.Forall₂ Spells entries spelled ∧ Fills entries n ∧
        index.toNat + widths entries < UInt16.size ∧ pool' = entries.foldl addRead pool ∧
        c.Past spelled.flatten d := by
  induction n using Nat.strong_induction_on generalizing pool index c with
  | _ n ih =>
  rcases n with _ | n
  · rw [readAfter, pure_ok_iff]
    constructor
    · rintro ⟨rfl, rfl⟩
      exact ⟨[], [], .nil, rfl, index.toNat_lt, rfl, Cursor.past_nil_iff.2 rfl⟩
    · rintro ⟨entries, spelled, hspells, hfills, -, rfl, hpast⟩
      rcases hspells with _ | ⟨_, _⟩
      · exact ⟨rfl, Cursor.past_nil_iff.1 hpast⟩
      · exact absurd hfills.1 (lt_irrefl 0)
  · rw [readAfter_succ, bind_ok_iff]
    constructor
    · rintro ⟨k, m, hread, hafter⟩
      split at hafter
      case isFalse => exact absurd hafter throw_not_ok
      case isTrue hnext =>
        obtain ⟨x, hx, hpast⟩ := read_ok_iff.1 hread
        obtain ⟨entries, spelled, hspells, hfills, hfits, rfl, hpast'⟩ :=
          (ih _ (by have := width_pos k; omega)).1 hafter
        refine ⟨k :: entries, x :: spelled, .cons hx hspells, ⟨by omega, hfills⟩, ?_, rfl,
          Cursor.past_append_iff.2 ⟨m, hpast, hpast'⟩⟩
        rwa [widths_cons, ← Nat.add_assoc, ← toNat_slotBehind hnext]
    · rintro ⟨entries, spelled, hspells, hfills, hfits, rfl, hpast⟩
      rcases hspells with _ | @⟨k, x, entries, spelled, hx, hspells⟩
      · exact absurd hfills (Nat.succ_ne_zero n)
      · obtain ⟨m, hpast, hpast'⟩ := Cursor.past_append_iff.1 hpast
        rw [widths_cons, ← Nat.add_assoc] at hfits
        have hnext : index.toNat + k.width < UInt16.size := by omega
        refine ⟨k, m, read_ok_iff.2 ⟨x, hx, hpast⟩, ?_⟩
        rw [if_pos hnext]
        refine (ih _ (by have := width_pos k; omega)).2
          ⟨entries, spelled, hspells, hfills.2, ?_, rfl, hpast'⟩
        rwa [toNat_slotBehind hnext]

/-- What reading a pool takes: a count, and spellings of entries that fill its slots and have
numbers. -/
theorem read_ok_iff {pool : ConstantPool} {c d : Cursor} :
    ConstantPool.read c = (.ok pool, d) ↔
      ∃ count entries spelled, List.Forall₂ Spells entries spelled ∧
        Fills entries (count.toNat - 1) ∧ pool = ofEntries entries ∧ pool.size ≤ maxSize ∧
        c.Past (Bytes.ofUInt16 count ++ spelled.flatten) d := by
  have hsize : ∀ entries, (1 : UInt16).toNat + widths entries < UInt16.size ↔
      (ofEntries entries).size ≤ maxSize := by
    intro entries
    rw [(holds_ofEntries entries).size_eq, maxSize]
    exact Nat.lt_succ_iff
  simp only [ConstantPool.read, bind_ok_iff, u16_exact _ _ _, true_and, readAfter_ok_iff, hsize,
    Cursor.past_append_iff]
  constructor
  · rintro ⟨count, m, hcount, entries, spelled, hspells, hfills, hsize, rfl, hpast⟩
    exact ⟨count, entries, spelled, hspells, hfills, rfl, hsize, m, hcount, hpast⟩
  · rintro ⟨count, entries, spelled, hspells, hfills, rfl, hsize, m, hcount, hpast⟩
    exact ⟨count, m, hcount, entries, spelled, hspells, hfills, hsize, rfl, hpast⟩

/-! ## Where reading stops -/

theorem readAfter_stops_iff {n : ℕ} {pool : ConstantPool} {index : UInt16} {c d : Cursor} :
    readAfter pool index n c = (.error .poolOverflow, d) ↔
      ∃ (entries : List Constant) (k : Constant) (spelled : List Bytes) (x : Bytes),
        List.Forall₂ Spells entries spelled ∧ widths entries < n ∧ k.Spells x ∧
        index.toNat + widths entries < UInt16.size ∧
        UInt16.size ≤ index.toNat + widths entries + k.width ∧ c.Past (spelled.flatten ++ x) d := by
  induction n using Nat.strong_induction_on generalizing pool index c with
  | _ n ih =>
  rcases n with _ | n
  · constructor
    · rintro ⟨⟩
    · rintro ⟨_, _, _, _, -, hlt, -⟩
      exact absurd hlt (Nat.not_lt_zero _)
  · rw [readAfter_succ, (Constant.stopless_read index).bind_stops_iff]
    constructor
    · rintro ⟨k, m, hread, hafter⟩
      obtain ⟨x, hx, hpast⟩ := Constant.read_ok_iff.1 hread
      split at hafter
      case isFalse hnext =>
        cases hafter
        refine ⟨[], k, [], x, .nil, Nat.succ_pos n, hx, index.toNat_lt, ?_, hpast⟩
        rw [widths_nil]
        omega
      case isTrue hnext =>
        obtain ⟨entries, j, spelled, y, hspells, hlt, hy, hfits, hstops, hpast'⟩ :=
          (ih _ (by have := width_pos k; omega)).1 hafter
        rw [toNat_slotBehind hnext] at hfits hstops
        refine ⟨k :: entries, j, x :: spelled, y, .cons hx hspells, ?_, hy, ?_, ?_, ?_⟩
        · rw [widths_cons]
          omega
        · rwa [widths_cons, ← Nat.add_assoc]
        · rwa [widths_cons, ← Nat.add_assoc]
        · rw [List.flatten_cons, List.append_assoc]
          exact Cursor.past_append_iff.2 ⟨m, hpast, hpast'⟩
    · rintro ⟨entries, j, spelled, y, hspells, hlt, hy, hfits, hstops, hpast⟩
      rcases hspells with _ | @⟨k, x, entries, spelled, hx, hspells⟩
      · refine ⟨j, d, Constant.read_ok_iff.2 ⟨y, hy, hpast⟩, ?_⟩
        rw [widths_nil, Nat.add_zero] at hstops
        rw [if_neg (by omega)]
        rfl
      · rw [List.flatten_cons, List.append_assoc] at hpast
        obtain ⟨m, hpast, hpast'⟩ := Cursor.past_append_iff.1 hpast
        rw [widths_cons] at hlt
        rw [widths_cons, ← Nat.add_assoc] at hfits hstops
        have hnext : index.toNat + k.width < UInt16.size := by omega
        refine ⟨k, m, Constant.read_ok_iff.2 ⟨x, hx, hpast⟩, ?_⟩
        rw [if_pos hnext]
        refine (ih _ (by have := width_pos k; omega)).2
          ⟨entries, j, spelled, y, hspells, by omega, hy, ?_, ?_, hpast'⟩
        · rwa [toNat_slotBehind hnext]
        · rwa [toNat_slotBehind hnext]

/-- The program stops while it reads a pool exactly where a wide entry begins in slot 65534, the
last one of a pool of 65535 slots: the second slot of the entry has a number, but not the one behind
it. -/
theorem read_stops_iff {c d : Cursor} :
    ConstantPool.read c = (.error .poolOverflow, d) ↔
      ∃ (entries : List Constant) (k : Constant) (spelled : List Bytes) (x : Bytes),
        List.Forall₂ Spells entries spelled ∧ 1 + widths entries = 65534 ∧ k.isWide = true ∧
        k.Spells x ∧ c.Past (Bytes.ofUInt16 65535 ++ (spelled.flatten ++ x)) d := by
  simp only [ConstantPool.read, u16_takes.stopless.bind_stops_iff, u16_exact _ _ _, true_and,
    readAfter_stops_iff, Cursor.past_append_iff (x := Bytes.ofUInt16 _)]
  constructor
  · rintro ⟨count, m, hcount, entries, k, spelled, x, hspells, hlt, hx, hfits, hstops, hpast⟩
    have hwidth := width_le_two k
    have hcount_lt := count.toNat_lt
    have hone : (1 : UInt16).toNat = 1 := rfl
    rw [UInt16.size, hone] at hstops
    obtain rfl : count = 65535 := UInt16.toNat_inj.1 (show count.toNat = 65535 by omega)
    have hwide : k.isWide = true := by
      by_contra hwide
      rw [width, if_neg hwide] at hstops
      omega
    exact ⟨entries, k, spelled, x, hspells, by omega, hwide, hx, m, hcount, hpast⟩
  · rintro ⟨entries, k, spelled, x, hspells, hwidths, hwide, hx, m, hcount, hpast⟩
    have hcount_eq : (65535 : UInt16).toNat - 1 = 65534 := rfl
    have hone : (1 : UInt16).toNat = 1 := rfl
    refine ⟨65535, m, hcount, entries, k, spelled, x, hspells, by omega, hx, ?_, ?_, hpast⟩
    · rw [hone, hwidths]
      decide
    · rw [hone, hwidths, width, if_pos hwide]

/-! ## Writing -/

theorem flatMap_encode_slotsOf (k : Constant) :
    ((slotsOf k).flatMap fun slot => (slot.map Constant.encode).getD []) = k.encode := by
  rw [slotsOf]
  split <;> simp

theorem Holds.encode_eq {pool : ConstantPool} {entries : List Constant} (h : pool.Holds entries) :
    pool.encode =
      Bytes.ofUInt16 (UInt16.ofNat (1 + widths entries)) ++ entries.flatMap Constant.encode := by
  rw [ConstantPool.encode, h.size_eq, h, List.flatMap_cons, List.flatMap_assoc]
  simp only [flatMap_encode_slotsOf]
  rfl

theorem forall₂_spells_encode {entries : List Constant} (h : ∀ k ∈ entries, k.Storable) :
    List.Forall₂ Spells entries (entries.map Constant.encode) := by
  induction entries with
  | nil => exact .nil
  | cons k rest ih =>
    exact .cons (h k (by simp)).spells (ih fun j hj => h j (by simp [hj]))

/-- Reading takes back a pool that has been written, up to the way in which its directory came
about. -/
theorem Holds.read_encode {pool : ConstantPool} {entries : List Constant} (h : pool.Holds entries)
    (hstorable : ∀ k ∈ entries, k.Storable) (hsize : pool.size ≤ maxSize) {c d : Cursor}
    (hpast : c.Past pool.encode d) : ConstantPool.read c = (.ok (ofEntries entries), d) := by
  have hsize' : (ofEntries entries).size ≤ maxSize := by
    rwa [(holds_ofEntries entries).size_eq, ← h.size_eq]
  rw [h.size_eq, maxSize] at hsize
  refine read_ok_iff.2
    ⟨_, entries, _, forall₂_spells_encode hstorable, ?_, rfl, hsize', h.encode_eq ▸ hpast⟩
  rw [Bytes.toNat_ofNat16 (by omega), Nat.add_sub_cancel_left]
  exact fills_widths entries

theorem storable_of_forall₂ {entries : List Constant} {spelled : List Bytes}
    (h : List.Forall₂ Spells entries spelled) : ∀ k ∈ entries, k.Storable := by
  induction h with
  | nil => simp
  | cons hx _ ih => exact List.forall_mem_cons.2 ⟨hx.storable, ih⟩

/-! ## Bytes that are kept -/

theorem shortens_flatMap_encode {entries : List Constant} {spelled : List Bytes}
    (h : List.Forall₂ Spells entries spelled) :
    Text.ModifiedUtf8.Shortens (entries.flatMap Constant.encode) spelled.flatten := by
  induction h with
  | nil => exact ⟨le_rfl, fun _ => rfl⟩
  | cons hx _ ih =>
    rw [List.flatMap_cons, List.flatten_cons]
    exact hx.shortens.append ih

/-- Entries are written as they were read exactly when every text among them is. -/
theorem flatMap_encode_eq_iff {entries : List Constant} {spelled : List Bytes} {n : ℕ}
    (h : List.Forall₂ Spells entries spelled) (hfills : Fills entries n) (rest : Bytes) :
    entries.flatMap Constant.encode = spelled.flatten ↔
      ∀ text ∈ writtenTexts n (spelled.flatten ++ rest), IsReproduced text := by
  induction h generalizing n with
  | nil =>
    obtain rfl : n = 0 := hfills
    simp [writtenTexts]
  | cons hx hspells ih =>
    obtain ⟨hn, hrest⟩ := hfills
    obtain ⟨n, rfl⟩ := Nat.exists_eq_succ_of_ne_zero hn.ne'
    obtain ⟨texts, htexts, hiff⟩ := hx.written
    rw [List.flatMap_cons, List.flatten_cons, List.append_assoc, Nat.succ_eq_add_one, htexts,
      hx.shortens.append_eq_iff (shortens_flatMap_encode hspells), hiff, ih hrest]
    simp only [List.mem_append, or_imp, forall_and]

end ConstantPool

end JarRemap
