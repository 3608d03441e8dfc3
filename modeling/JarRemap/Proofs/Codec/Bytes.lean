import JarRemap.Bytes
import Mathlib.Data.Nat.Bitwise

/-!
# Fields and the numbers they spell

A field of two, four or eight bytes spells a number, most significant byte first. The writers and
the readers of these fields are inverse to each other, in both directions: every number is read back
from its bytes, and every group of bytes is what its number is written as. A count is read back as
long as it fits its field.

The bit operations are taken to arithmetic on natural numbers once (`or_eq_add`); all else is
division with remainder.
-/

namespace JarRemap.Bytes

/-! ## Bits as digits -/

/-- Combining a multiple of `2 ^ i` with a number below `2 ^ i` adds the two. -/
theorem or_eq_add {a b : ℕ} (i : ℕ) (ha : 2 ^ i ∣ a) (hb : b < 2 ^ i) : a ||| b = a + b := by
  obtain ⟨k, rfl⟩ := ha
  rw [Nat.mul_comm, ← Nat.shiftLeft_eq, Nat.shiftLeft_add_eq_or_of_lt hb]

theorem toNat_toUInt16 (a b : UInt8) : (toUInt16 a b).toNat = 256 * a.toNat + b.toNat := by
  have ha := a.toNat_lt
  have hb := b.toNat_lt
  have hshift : (a.toUInt16 <<< 8).toNat = 256 * a.toNat := by
    simp [Nat.shiftLeft_eq]
    omega
  rw [toUInt16, UInt16.toNat_or, hshift, UInt8.toNat_toUInt16, or_eq_add 8 (by simp) hb]

theorem toNat_toUInt32 (a b c d : UInt8) :
    (toUInt32 a b c d).toNat =
      16777216 * a.toNat + (65536 * b.toNat + (256 * c.toNat + d.toNat)) := by
  have ha := a.toNat_lt
  have hb := b.toNat_lt
  have hc := c.toNat_lt
  have hd := d.toNat_lt
  have ha' : (a.toUInt32 <<< 24).toNat = 16777216 * a.toNat := by
    simp [Nat.shiftLeft_eq]
    omega
  have hb' : (b.toUInt32 <<< 16).toNat = 65536 * b.toNat := by
    simp [Nat.shiftLeft_eq]
    omega
  have hc' : (c.toUInt32 <<< 8).toNat = 256 * c.toNat := by
    simp [Nat.shiftLeft_eq]
    omega
  simp only [toUInt32, UInt32.toNat_or, ha', hb', hc', UInt8.toNat_toUInt32]
  rw [or_eq_add (b := 65536 * b.toNat) 24 (by simp) (by omega),
    or_eq_add (b := 256 * c.toNat) 16 (by omega) (by omega), or_eq_add 8 (by omega) hd]
  omega

theorem toNat_toUInt64 (high low : UInt32) :
    (toUInt64 high low).toNat = 4294967296 * high.toNat + low.toNat := by
  have hh := high.toNat_lt
  have hl := low.toNat_lt
  have hshift : (high.toUInt64 <<< 32).toNat = 4294967296 * high.toNat := by
    simp [Nat.shiftLeft_eq]
    omega
  rw [toUInt64, UInt64.toNat_or, hshift, UInt32.toNat_toUInt64, or_eq_add 32 (by simp) hl]

/-! ## Round trips -/

@[simp] theorem toUInt16_ofUInt16 (n : UInt16) : toUInt16 (n >>> 8).toUInt8 n.toUInt8 = n := by
  have hn := n.toNat_lt
  apply UInt16.toNat_inj.1
  simp [toNat_toUInt16, Nat.shiftRight_eq_div_pow]
  omega

@[simp] theorem ofUInt16_toUInt16 (a b : UInt8) : ofUInt16 (toUInt16 a b) = [a, b] := by
  have ha := a.toNat_lt
  have hb := b.toNat_lt
  have hhigh : ((toUInt16 a b) >>> 8).toUInt8 = a := by
    apply UInt8.toNat_inj.1
    simp [toNat_toUInt16, Nat.shiftRight_eq_div_pow]
    omega
  have hlow : (toUInt16 a b).toUInt8 = b := by
    apply UInt8.toNat_inj.1
    simp [toNat_toUInt16]
  rw [ofUInt16, hhigh, hlow]

@[simp] theorem toUInt32_ofUInt32 (n : UInt32) :
    toUInt32 (n >>> 24).toUInt8 (n >>> 16).toUInt8 (n >>> 8).toUInt8 n.toUInt8 = n := by
  have hn := n.toNat_lt
  apply UInt32.toNat_inj.1
  simp [toNat_toUInt32, Nat.shiftRight_eq_div_pow]
  omega

@[simp] theorem ofUInt32_toUInt32 (a b c d : UInt8) :
    ofUInt32 (toUInt32 a b c d) = [a, b, c, d] := by
  have ha := a.toNat_lt
  have hb := b.toNat_lt
  have hc := c.toNat_lt
  have hd := d.toNat_lt
  have hdigit : ∀ x : UInt8, ∀ n : UInt32, n.toNat % 256 = x.toNat → n.toUInt8 = x := by
    intro x n h
    apply UInt8.toNat_inj.1
    simpa using h
  have h1 : ((toUInt32 a b c d) >>> 24).toUInt8 = a := by
    apply hdigit
    simp [toNat_toUInt32, Nat.shiftRight_eq_div_pow]
    omega
  have h2 : ((toUInt32 a b c d) >>> 16).toUInt8 = b := by
    apply hdigit
    simp [toNat_toUInt32, Nat.shiftRight_eq_div_pow]
    omega
  have h3 : ((toUInt32 a b c d) >>> 8).toUInt8 = c := by
    apply hdigit
    simp [toNat_toUInt32, Nat.shiftRight_eq_div_pow]
    omega
  have h4 : (toUInt32 a b c d).toUInt8 = d := by
    apply hdigit
    simp [toNat_toUInt32]
    omega
  rw [ofUInt32, h1, h2, h3, h4]

@[simp] theorem toUInt64_halves (n : UInt64) : toUInt64 (n >>> 32).toUInt32 n.toUInt32 = n := by
  have hn := n.toNat_lt
  apply UInt64.toNat_inj.1
  simp [toNat_toUInt64, Nat.shiftRight_eq_div_pow]
  omega

theorem ofUInt64_toUInt64 (high low : UInt32) :
    ofUInt64 (toUInt64 high low) = ofUInt32 high ++ ofUInt32 low := by
  have hh := high.toNat_lt
  have hl := low.toNat_lt
  have hhigh : ((toUInt64 high low) >>> 32).toUInt32 = high := by
    apply UInt32.toNat_inj.1
    simp [toNat_toUInt64, Nat.shiftRight_eq_div_pow]
    omega
  have hlow : (toUInt64 high low).toUInt32 = low := by
    apply UInt32.toNat_inj.1
    simp [toNat_toUInt64]
  rw [ofUInt64, hhigh, hlow]

/-! ## Counts -/

theorem toNat_ofNat8 {n : ℕ} (h : n < 256) : (UInt8.ofNat n).toNat = n := by
  simpa using h

theorem toNat_ofNat16 {n : ℕ} (h : n < 65536) : (UInt16.ofNat n).toNat = n := by
  simpa using h

theorem toNat_ofNat32 {n : ℕ} (h : n < 4294967296) : (UInt32.ofNat n).toNat = n := by
  simpa using h

theorem ofNat16_eq_iff {n : ℕ} (h : n < 65536) (k : UInt16) : k = UInt16.ofNat n ↔ k.toNat = n := by
  rw [← UInt16.toNat_inj, toNat_ofNat16 h]

/-- A sum of 16 bits wraps around. -/
theorem toNat_add_ofNat16 (k : UInt16) (n : ℕ) :
    (k + UInt16.ofNat n).toNat = (k.toNat + n) % UInt16.size := by
  rw [UInt16.toNat_add, UInt16.toNat_ofNat', Nat.add_mod_mod]

end JarRemap.Bytes
