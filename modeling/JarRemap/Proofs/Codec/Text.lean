import JarRemap.Text.ModifiedUtf8
import JarRemap.Proofs.Codec.Bytes
import Mathlib.Data.List.Forall2

/-!
# Text in class files

A text is written in two steps, as UTF-16 units and then as modified UTF-8 bytes. The first step is
exact: units are text precisely when they are the units of that text (`decode?_eq_some_iff`). The
second one is not, for a unit may be written in more bytes than it needs; bytes that spell some
units are never shorter than what the units are written as, and as long only if they are equal to it
(`shortens_of_units?`).
-/

namespace JarRemap.Text

/-! ## UTF-16 -/

namespace Utf16

theorem isHigh_iff {u : UInt16} : isHigh u = true ↔ 0xd800 ≤ u.toNat ∧ u.toNat < 0xdc00 := by
  simp [isHigh, UInt16.le_iff_toNat_le, UInt16.lt_iff_toNat_lt]

theorem isLow_iff {u : UInt16} : isLow u = true ↔ 0xdc00 ≤ u.toNat ∧ u.toNat < 0xe000 := by
  simp [isLow, UInt16.le_iff_toNat_le, UInt16.lt_iff_toNat_lt]

/-- A number that is no surrogate and not too large is that of a character. -/
theorem toNat_charOfNat {n : ℕ} (h : n < 0xd800 ∨ 0xdfff < n ∧ n < 0x110000) :
    (Char.ofNat n).toNat = n := by
  rw [Char.ofNat, dif_pos (show n.isValidChar from h)]
  rfl

theorem encodeChar_of_lt {c : Char} (h : c.toNat < 0x10000) :
    encodeChar c = [UInt16.ofNat c.toNat] := by
  have hlt : c.val < 0x10000 := UInt32.lt_iff_toNat_lt.2 h
  rw [encodeChar, if_pos hlt]
  congr 1

theorem encodeChar_of_le {c : Char} (h : 0x10000 ≤ c.toNat) :
    encodeChar c =
      [UInt16.ofNat ((c.toNat - 0x10000) / 0x400 + 0xd800),
       UInt16.ofNat ((c.toNat - 0x10000) % 0x400 + 0xdc00)] := by
  have hc : c.toNat < 0x110000 := by
    have := c.valid
    simp only [UInt32.isValidChar, Nat.isValidChar] at this
    change c.val.toNat < 0x110000
    omega
  have hnlt : ¬ c.val < 0x10000 := by
    rw [UInt32.lt_iff_toNat_lt]
    exact Nat.not_lt.2 h
  have hoffset : (c.val - 0x10000).toNat = c.toNat - 0x10000 :=
    UInt32.toNat_sub_of_le _ _ (UInt32.le_iff_toNat_le.2 h)
  rw [encodeChar, if_neg hnlt]
  have hhigh : ((c.val - 0x10000) >>> 10).toUInt16 =
      UInt16.ofNat ((c.toNat - 0x10000) / 0x400) := by
    apply UInt16.toNat_inj.1
    rw [UInt32.toNat_toUInt16, UInt32.toNat_shiftRight, hoffset, UInt16.toNat_ofNat']
    simp [Nat.shiftRight_eq_div_pow]
  have hlow : ((c.val - 0x10000) &&& 0x3ff).toUInt16 =
      UInt16.ofNat ((c.toNat - 0x10000) % 0x400) := by
    apply UInt16.toNat_inj.1
    rw [UInt32.toNat_toUInt16, UInt32.toNat_and, hoffset, UInt16.toNat_ofNat']
    exact congrArg (· % _) (Nat.and_two_pow_sub_one_eq_mod _ 10)
  simp only [hhigh, hlow, UInt16.ofNat_add]
  rfl

theorem decodeAfter?_single (done : List Char) {u : UInt16} (rest : List UInt16)
    (hhigh : ¬ isHigh u = true) :
    decodeAfter? done (u :: rest) =
      if isLow u then none else decodeAfter? (Char.ofNat u.toNat :: done) rest := by
  rw [decodeAfter?.eq_def]
  simp only [if_neg hhigh]

theorem valid_toNat (c : Char) : c.toNat < 0xd800 ∨ 0xdfff < c.toNat ∧ c.toNat < 0x110000 :=
  c.valid

/-- Reading takes the units of a character as that character. -/
theorem decodeAfter?_encodeChar (done : List Char) (c : Char) (rest : List UInt16) :
    decodeAfter? done (encodeChar c ++ rest) = decodeAfter? (c :: done) rest := by
  have hvalid := valid_toNat c
  by_cases hlt : c.toNat < 0x10000
  · have hunit : (UInt16.ofNat c.toNat).toNat = c.toNat := Bytes.toNat_ofNat16 hlt
    have hhigh : ¬ isHigh (UInt16.ofNat c.toNat) = true := by
      rw [isHigh_iff, hunit]
      omega
    have hlow : ¬ isLow (UInt16.ofNat c.toNat) = true := by
      rw [isLow_iff, hunit]
      omega
    rw [encodeChar_of_lt hlt, List.singleton_append, decodeAfter?_single _ _ hhigh, if_neg hlow,
      hunit, Char.ofNat_toNat]
  · have hle : 0x10000 ≤ c.toNat := Nat.not_lt.1 hlt
    have hhigh := Bytes.toNat_ofNat16 (n := (c.toNat - 0x10000) / 0x400 + 0xd800) (by omega)
    have hlow := Bytes.toNat_ofNat16 (n := (c.toNat - 0x10000) % 0x400 + 0xdc00) (by omega)
    rw [encodeChar_of_le hle]
    simp only [List.cons_append, List.nil_append, decodeAfter?]
    rw [if_pos (isHigh_iff.2 (by rw [hhigh]; omega)), if_pos (isLow_iff.2 (by rw [hlow]; omega)),
      ofPair, hhigh, hlow]
    have hpair : 0x10000 + ((c.toNat - 0x10000) / 0x400 + 0xd800 - 0xd800) * 0x400 +
        ((c.toNat - 0x10000) % 0x400 + 0xdc00 - 0xdc00) = c.toNat := by
      omega
    rw [hpair, Char.ofNat_toNat]

/-- A unit that is no surrogate is what its character is written as. -/
theorem encodeChar_ofNat {u : UInt16} (hhigh : ¬ isHigh u = true) (hlow : ¬ isLow u = true) :
    encodeChar (Char.ofNat u.toNat) = [u] := by
  rw [isHigh_iff] at hhigh
  rw [isLow_iff] at hlow
  have hu := u.toNat_lt
  have hchar := toNat_charOfNat (n := u.toNat) (by omega)
  rw [encodeChar_of_lt (by rw [hchar]; omega), hchar, UInt16.ofNat_toNat]

/-- A surrogate pair is what its character is written as. -/
theorem encodeChar_ofPair {u v : UInt16} (hhigh : isHigh u = true) (hlow : isLow v = true) :
    encodeChar (ofPair u v) = [u, v] := by
  rw [isHigh_iff] at hhigh
  rw [isLow_iff] at hlow
  have hchar : (ofPair u v).toNat =
      0x10000 + (u.toNat - 0xd800) * 0x400 + (v.toNat - 0xdc00) :=
    toNat_charOfNat (by omega)
  have hu : (0x10000 + (u.toNat - 0xd800) * 0x400 + (v.toNat - 0xdc00) - 0x10000) / 0x400 +
      0xd800 = u.toNat := by
    omega
  have hv : (0x10000 + (u.toNat - 0xd800) * 0x400 + (v.toNat - 0xdc00) - 0x10000) % 0x400 +
      0xdc00 = v.toNat := by
    omega
  rw [encodeChar_of_le (by rw [hchar]; omega), hchar, hu, hv, UInt16.ofNat_toNat,
    UInt16.ofNat_toNat]

theorem decodeAfter?_eq_some {done chars : List Char} {units : List UInt16}
    (h : decodeAfter? done units = some chars) :
    ∃ more, chars = done.reverse ++ more ∧ encode more = units := by
  -- Characters come from a pair of surrogates or from a single unit that is none; the other cases
  -- give no text.
  induction done, units using decodeAfter?.induct with
  | case1 done =>
    simp only [decodeAfter?, Option.some.injEq] at h
    exact ⟨[], by simp [h], rfl⟩
  | case2 done u hhigh v rest hlow ih =>
    rw [decodeAfter?, if_pos hhigh, if_pos hlow] at h
    obtain ⟨more, rfl, rfl⟩ := ih h
    refine ⟨ofPair u v :: more, by simp, ?_⟩
    rw [encode, List.flatMap_cons, encodeChar_ofPair hhigh hlow]
    rfl
  | case3 done u hhigh v rest hlow =>
    rw [decodeAfter?, if_pos hhigh, if_neg hlow] at h
    cases h
  | case4 done u hhigh =>
    rw [decodeAfter?, if_pos hhigh] at h
    cases h
  | case5 done u rest hhigh hlow =>
    rw [decodeAfter?_single _ _ hhigh, if_pos hlow] at h
    cases h
  | case6 done u rest hhigh hlow ih =>
    rw [decodeAfter?_single _ _ hhigh, if_neg hlow] at h
    obtain ⟨more, rfl, rfl⟩ := ih h
    refine ⟨Char.ofNat u.toNat :: more, by simp, ?_⟩
    rw [encode, List.flatMap_cons, encodeChar_ofNat hhigh hlow]
    rfl

theorem decodeAfter?_encode (done chars : List Char) :
    decodeAfter? done (encode chars) = some (done.reverse ++ chars) := by
  induction chars generalizing done with
  | nil => simp [encode, decodeAfter?]
  | cons c chars ih =>
    have ih := ih (c :: done)
    rw [encode] at ih ⊢
    rw [List.flatMap_cons, decodeAfter?_encodeChar, ih]
    simp

/-- Units are text precisely when they are the units of that text. -/
theorem decode?_eq_some_iff {units : List UInt16} {chars : List Char} :
    decode? units = some chars ↔ encode chars = units := by
  constructor
  · intro h
    obtain ⟨more, rfl, rfl⟩ := decodeAfter?_eq_some h
    rfl
  · rintro rfl
    exact decodeAfter?_encode [] chars

end Utf16

/-! ## Modified UTF-8 -/

namespace ModifiedUtf8

/-! The bytes of each shape, as ranges. -/

private theorem byte_cases {p : UInt8 → Prop} (h : ∀ n < 256, p (UInt8.ofNat n)) (b : UInt8) :
    p b := by
  have := h b.toNat b.toNat_lt
  rwa [UInt8.ofNat_toNat] at this

theorem isSingle_iff (b : UInt8) : (b != 0 && b < 0x80) = true ↔ 0 < b.toNat ∧ b.toNat < 0x80 := by
  revert b
  exact byte_cases (by decide +kernel)

theorem isDouble_iff (b : UInt8) :
    (b &&& 0xe0 == 0xc0) = true ↔ 0xc0 ≤ b.toNat ∧ b.toNat < 0xe0 := by
  revert b
  exact byte_cases (by decide +kernel)

theorem isTriple_iff (b : UInt8) :
    (b &&& 0xf0 == 0xe0) = true ↔ 0xe0 ≤ b.toNat ∧ b.toNat < 0xf0 := by
  revert b
  exact byte_cases (by decide +kernel)

theorem isContinuation_iff (b : UInt8) :
    isContinuation b = true ↔ 0x80 ≤ b.toNat ∧ b.toNat < 0xc0 := by
  revert b
  exact byte_cases (by decide +kernel)

/-! The units that they carry. -/

theorem toNat_payload (b : UInt8) : (payload b).toNat = b.toNat % 0x40 := by
  rw [payload, UInt8.toNat_toUInt16, UInt8.toNat_and]
  exact Nat.and_two_pow_sub_one_eq_mod _ 6

theorem toNat_double (b c : UInt8) :
    ((b &&& 0x1f).toUInt16 <<< 6 ||| payload c).toNat = b.toNat % 0x20 * 0x40 + c.toNat % 0x40 := by
  have hb : (b &&& 0x1f).toNat = b.toNat % 0x20 := Nat.and_two_pow_sub_one_eq_mod _ 5
  have hshift : ((b &&& 0x1f).toUInt16 <<< 6).toNat = b.toNat % 0x20 * 0x40 := by
    rw [UInt16.toNat_shiftLeft, UInt8.toNat_toUInt16, hb]
    simp [Nat.shiftLeft_eq]
    omega
  rw [UInt16.toNat_or, hshift, toNat_payload, Bytes.or_eq_add 6 (by simp) (by omega)]

theorem toNat_triple (b c d : UInt8) :
    ((b &&& 0x0f).toUInt16 <<< 12 ||| payload c <<< 6 ||| payload d).toNat =
      b.toNat % 0x10 * 0x1000 + (c.toNat % 0x40 * 0x40 + d.toNat % 0x40) := by
  have hb : (b &&& 0x0f).toNat = b.toNat % 0x10 := Nat.and_two_pow_sub_one_eq_mod _ 4
  have hb' : ((b &&& 0x0f).toUInt16 <<< 12).toNat = b.toNat % 0x10 * 0x1000 := by
    rw [UInt16.toNat_shiftLeft, UInt8.toNat_toUInt16, hb]
    simp [Nat.shiftLeft_eq]
    omega
  have hc' : (payload c <<< 6).toNat = c.toNat % 0x40 * 0x40 := by
    rw [UInt16.toNat_shiftLeft, toNat_payload]
    simp [Nat.shiftLeft_eq]
    omega
  rw [UInt16.toNat_or, UInt16.toNat_or, hb', hc', toNat_payload,
    Bytes.or_eq_add (b := c.toNat % 0x40 * 0x40) 12 (by omega) (by omega),
    Bytes.or_eq_add 6 (by omega) (by omega), Nat.add_assoc]

/-! The bytes that a unit is written as. -/

theorem encodeUnit_single {u : UInt16} (hpos : 0 < u.toNat) (hlt : u.toNat < 0x80) :
    encodeUnit u = [UInt8.ofNat u.toNat] := by
  have hshape : (0x01 ≤ u && u ≤ 0x7f) = true := by
    simp [UInt16.le_iff_toNat_le]
    omega
  rw [encodeUnit, if_pos hshape]
  rfl

/-- Setting the mark of a byte above the bits of a payload. -/
theorem or_mark {w : UInt16} {m : UInt8} (i : ℕ) (hi : i ≤ 8) (hmark : 2 ^ i ∣ m.toNat)
    (hw : w.toNat < 2 ^ i) : w.toUInt8 ||| m = UInt8.ofNat (m.toNat + w.toNat) := by
  have hpow : 2 ^ i ≤ 2 ^ 8 := Nat.pow_le_pow_right (by decide) hi
  have hbyte : w.toUInt8.toNat = w.toNat := by
    rw [UInt16.toNat_toUInt8, Nat.mod_eq_of_lt (by omega)]
  apply UInt8.toNat_inj.1
  rw [UInt8.or_comm, UInt8.toNat_or, hbyte, Bytes.or_eq_add i hmark hw, UInt8.toNat_ofNat',
    Nat.mod_eq_of_lt]
  rw [← Bytes.or_eq_add i hmark hw]
  exact Nat.or_lt_two_pow m.toNat_lt (by omega)

theorem toNat_and_0x3f (u : UInt16) : (u &&& 0x3f).toNat = u.toNat % 0x40 :=
  Nat.and_two_pow_sub_one_eq_mod _ 6

theorem toNat_shiftRight_6 (u : UInt16) : (u >>> 6).toNat = u.toNat / 0x40 := by
  simp [Nat.shiftRight_eq_div_pow]

theorem encodeUnit_double {u : UInt16} (hrange : u.toNat = 0 ∨ 0x80 ≤ u.toNat)
    (hlt : u.toNat < 0x800) :
    encodeUnit u = [UInt8.ofNat (0xc0 + u.toNat / 0x40), UInt8.ofNat (0x80 + u.toNat % 0x40)] := by
  have hshape : ¬ (0x01 ≤ u && u ≤ 0x7f) = true := by
    simp [UInt16.le_iff_toNat_le]
    omega
  have hle : u ≤ 0x7ff := by
    simp [UInt16.le_iff_toNat_le]
    omega
  have hhigh := or_mark (w := u >>> 6) (m := 0xc0) 5 (by simp) (by decide)
    (by rw [toNat_shiftRight_6]; omega)
  have hlow := or_mark (w := u &&& 0x3f) (m := 0x80) 6 (by simp) (by decide)
    (by rw [toNat_and_0x3f]; omega)
  rw [encodeUnit, if_neg hshape, if_pos hle, hhigh, hlow, toNat_shiftRight_6, toNat_and_0x3f]
  rfl

theorem encodeUnit_triple {u : UInt16} (hle : 0x800 ≤ u.toNat) :
    encodeUnit u =
      [UInt8.ofNat (0xe0 + u.toNat / 0x1000), UInt8.ofNat (0x80 + u.toNat / 0x40 % 0x40),
       UInt8.ofNat (0x80 + u.toNat % 0x40)] := by
  have hu := u.toNat_lt
  have hshape : ¬ (0x01 ≤ u && u ≤ 0x7f) = true := by
    simp [UInt16.le_iff_toNat_le]
    omega
  have hnle : ¬ u ≤ 0x7ff := by
    simp [UInt16.le_iff_toNat_le]
    omega
  have hshift : (u >>> 12).toNat = u.toNat / 0x1000 := by
    simp [Nat.shiftRight_eq_div_pow]
  have hhigh := or_mark (w := u >>> 12) (m := 0xe0) 4 (by simp) (by decide)
    (by rw [hshift]; omega)
  have hmiddle := or_mark (w := (u >>> 6) &&& 0x3f) (m := 0x80) 6 (by simp) (by decide)
    (by rw [toNat_and_0x3f]; omega)
  have hlow := or_mark (w := u &&& 0x3f) (m := 0x80) 6 (by simp) (by decide)
    (by rw [toNat_and_0x3f]; omega)
  rw [encodeUnit, if_neg hshape, if_neg hnle, hhigh, hmiddle, hlow, hshift, toNat_and_0x3f,
    toNat_and_0x3f, toNat_shiftRight_6]
  rfl

/-! ## Reading one unit -/

theorem unitsAfter?_single (done : List UInt16) {b : UInt8} (rest : Bytes)
    (h : 0 < b.toNat ∧ b.toNat < 0x80) :
    unitsAfter? done (b :: rest) = unitsAfter? (b.toUInt16 :: done) rest := by
  rw [unitsAfter?.eq_def]
  simp only [if_pos ((isSingle_iff b).2 h)]

theorem unitsAfter?_double (done : List UInt16) {b : UInt8} (rest : Bytes)
    (h : 0xc0 ≤ b.toNat ∧ b.toNat < 0xe0) :
    unitsAfter? done (b :: rest) =
      match rest with
      | c :: rest =>
        if isContinuation c then
          unitsAfter? (((b &&& 0x1f).toUInt16 <<< 6 ||| payload c) :: done) rest
        else none
      | [] => none := by
  have hsingle : ¬ (b != 0 && b < 0x80) = true := by
    rw [isSingle_iff]
    omega
  rw [unitsAfter?.eq_def]
  simp only [if_neg hsingle, if_pos ((isDouble_iff b).2 h)]
  rcases rest with _ | ⟨c, rest⟩ <;> rfl

theorem unitsAfter?_triple (done : List UInt16) {b : UInt8} (rest : Bytes)
    (h : 0xe0 ≤ b.toNat ∧ b.toNat < 0xf0) :
    unitsAfter? done (b :: rest) =
      match rest with
      | c :: d :: rest =>
        if isContinuation c && isContinuation d then
          unitsAfter?
            (((b &&& 0x0f).toUInt16 <<< 12 ||| payload c <<< 6 ||| payload d) :: done) rest
        else none
      | _ => none := by
  have hsingle : ¬ (b != 0 && b < 0x80) = true := by
    rw [isSingle_iff]
    omega
  have hdouble : ¬ (b &&& 0xe0 == 0xc0) = true := by
    rw [isDouble_iff]
    omega
  rw [unitsAfter?.eq_def]
  simp only [if_neg hsingle, if_neg hdouble, if_pos ((isTriple_iff b).2 h)]
  rcases rest with _ | ⟨c, _ | ⟨d, rest⟩⟩ <;> rfl

/-- No unit begins with one of the remaining bytes. -/
theorem unitsAfter?_none (done : List UInt16) {b : UInt8} (rest : Bytes)
    (h : b.toNat = 0 ∨ 0x80 ≤ b.toNat ∧ b.toNat < 0xc0 ∨ 0xf0 ≤ b.toNat) :
    unitsAfter? done (b :: rest) = none := by
  have hsingle : ¬ (b != 0 && b < 0x80) = true := by
    rw [isSingle_iff]
    omega
  have hdouble : ¬ (b &&& 0xe0 == 0xc0) = true := by
    rw [isDouble_iff]
    omega
  have htriple : ¬ (b &&& 0xf0 == 0xe0) = true := by
    rw [isTriple_iff]
    omega
  rw [unitsAfter?.eq_def]
  simp only [if_neg hsingle, if_neg hdouble, if_neg htriple]

/-! ## Spellings of units -/

/-- Some bytes spell a unit in one of the three shapes. A unit may be written in more bytes than it
needs. -/
inductive SpellsUnit : Bytes → UInt16 → Prop where
  | single {b : UInt8} (hb : 0 < b.toNat ∧ b.toNat < 0x80) : SpellsUnit [b] b.toUInt16
  | double {b c : UInt8} {u : UInt16} (hb : 0xc0 ≤ b.toNat ∧ b.toNat < 0xe0)
      (hc : 0x80 ≤ c.toNat ∧ c.toNat < 0xc0)
      (hu : u.toNat = b.toNat % 0x20 * 0x40 + c.toNat % 0x40) : SpellsUnit [b, c] u
  | triple {b c d : UInt8} {u : UInt16} (hb : 0xe0 ≤ b.toNat ∧ b.toNat < 0xf0)
      (hc : 0x80 ≤ c.toNat ∧ c.toNat < 0xc0) (hd : 0x80 ≤ d.toNat ∧ d.toNat < 0xc0)
      (hu : u.toNat = b.toNat % 0x10 * 0x1000 + (c.toNat % 0x40 * 0x40 + d.toNat % 0x40)) :
      SpellsUnit [b, c, d] u

/-- A unit is written as a spelling of it. -/
theorem spellsUnit_encodeUnit (u : UInt16) : SpellsUnit (encodeUnit u) u := by
  have hu := u.toNat_lt
  have hbyte : ∀ n < 256, (UInt8.ofNat n).toNat = n := fun n => Bytes.toNat_ofNat8
  -- One case for each number of bytes in which units are written.
  rcases Nat.lt_or_ge u.toNat 0x800 with hlt | hge
  · by_cases hsingle : 0 < u.toNat ∧ u.toNat < 0x80
    · have hb := hbyte u.toNat (by omega)
      have hunit : (UInt8.ofNat u.toNat).toUInt16 = u := UInt16.toNat_inj.1 hb
      have hspells : SpellsUnit [UInt8.ofNat u.toNat] (UInt8.ofNat u.toNat).toUInt16 :=
        .single (by omega)
      rwa [hunit, ← encodeUnit_single hsingle.1 hsingle.2] at hspells
    · have hb := hbyte (0xc0 + u.toNat / 0x40) (by omega)
      have hc := hbyte (0x80 + u.toNat % 0x40) (by omega)
      rw [encodeUnit_double (by omega) hlt]
      exact .double (by omega) (by omega) (by omega)
  · have hb := hbyte (0xe0 + u.toNat / 0x1000) (by omega)
    have hc := hbyte (0x80 + u.toNat / 0x40 % 0x40) (by omega)
    have hd := hbyte (0x80 + u.toNat % 0x40) (by omega)
    rw [encodeUnit_triple hge]
    exact .triple (by omega) (by omega) (by omega) (by omega)

/-- Reading takes a spelling of a unit as that unit. -/
theorem SpellsUnit.unitsAfter?_append {x : Bytes} {u : UInt16} (h : SpellsUnit x u)
    (done : List UInt16) (rest : Bytes) :
    unitsAfter? done (x ++ rest) = unitsAfter? (u :: done) rest := by
  cases h with
  | single hb => exact unitsAfter?_single done rest hb
  | @double b c u hb hc hu =>
    have hunit : (b &&& 0x1f).toUInt16 <<< 6 ||| payload c = u := by
      rw [← UInt16.toNat_inj, toNat_double, hu]
    rw [List.cons_append, unitsAfter?_double _ _ hb, List.singleton_append]
    simp only [if_pos ((isContinuation_iff c).2 hc), hunit]
  | @triple b c d u hb hc hd hu =>
    have hunit : (b &&& 0x0f).toUInt16 <<< 12 ||| payload c <<< 6 ||| payload d = u := by
      rw [← UInt16.toNat_inj, toNat_triple, hu]
    rw [List.cons_append, unitsAfter?_triple _ _ hb, List.cons_append, List.singleton_append]
    simp only [(isContinuation_iff c).2 hc, (isContinuation_iff d).2 hd, Bool.and_self, if_true,
      hunit]

/-- What is read is the spelling of a unit, and what follows it. -/
theorem unitsAfter?_cons_eq_some {done units : List UInt16} {b : UInt8} {after : Bytes}
    (h : unitsAfter? done (b :: after) = some units) :
    ∃ x u rest, SpellsUnit x u ∧ b :: after = x ++ rest ∧
      unitsAfter? (u :: done) rest = some units := by
  by_cases hsingle : 0 < b.toNat ∧ b.toNat < 0x80
  · rw [unitsAfter?_single _ _ hsingle] at h
    exact ⟨[b], _, after, .single hsingle, rfl, h⟩
  by_cases hdouble : 0xc0 ≤ b.toNat ∧ b.toNat < 0xe0
  · rw [unitsAfter?_double _ _ hdouble] at h
    rcases after with _ | ⟨c, rest⟩
    · cases h
    simp only at h
    split at h
    case isTrue hc =>
      rw [isContinuation_iff] at hc
      exact ⟨[b, c], _, rest, .double hdouble hc (toNat_double b c), rfl, h⟩
    case isFalse => cases h
  by_cases htriple : 0xe0 ≤ b.toNat ∧ b.toNat < 0xf0
  · rw [unitsAfter?_triple _ _ htriple] at h
    rcases after with _ | ⟨c, _ | ⟨d, rest⟩⟩
    · cases h
    · cases h
    simp only at h
    split at h
    case isTrue hcd =>
      rw [Bool.and_eq_true, isContinuation_iff, isContinuation_iff] at hcd
      exact ⟨[b, c, d], _, rest, .triple htriple hcd.1 hcd.2 (toNat_triple b c d), rfl, h⟩
    case isFalse => cases h
  · rw [unitsAfter?_none _ _ (by omega)] at h
    cases h

theorem SpellsUnit.length_pos {x : Bytes} {u : UInt16} (h : SpellsUnit x u) : 0 < x.length := by
  cases h <;> simp

theorem unitsAfter?_eq_some_iff {done units : List UInt16} {bytes : Bytes} :
    unitsAfter? done bytes = some units ↔ ∃ more parts, units = done.reverse ++ more ∧
      parts.flatten = bytes ∧ List.Forall₂ SpellsUnit parts more := by
  constructor
  · intro h
    -- The induction is on the bytes: a front of them spells a unit, and what follows is shorter.
    induction hn : bytes.length using Nat.strong_induction_on generalizing done bytes with
    | _ n ih =>
    rcases bytes with _ | ⟨b, after⟩
    · simp only [unitsAfter?, Option.some.injEq] at h
      exact ⟨[], [], by simp [h], rfl, .nil⟩
    · obtain ⟨x, u, rest, hspells, heq, hrest⟩ := unitsAfter?_cons_eq_some h
      have hpos := hspells.length_pos
      have hlength := congrArg List.length heq
      rw [List.length_append] at hlength
      obtain ⟨more, parts, rfl, rfl, hmore⟩ := ih rest.length (by omega) hrest rfl
      exact ⟨u :: more, x :: parts, by simp, heq.symm, .cons hspells hmore⟩
  · rintro ⟨more, parts, rfl, rfl, hmore⟩
    induction hmore generalizing done with
    | nil => simp [unitsAfter?]
    | cons hspells _ ih =>
      rw [List.flatten_cons, hspells.unitsAfter?_append, ih]
      simp

/-- Bytes spell units if they are put together from spellings of them. -/
theorem units?_eq_some_iff {units : List UInt16} {bytes : Bytes} :
    units? bytes = some units ↔
      ∃ parts, parts.flatten = bytes ∧ List.Forall₂ SpellsUnit parts units := by
  rw [units?, unitsAfter?_eq_some_iff]
  constructor
  · rintro ⟨more, parts, rfl, rfl, hparts⟩
    exact ⟨parts, rfl, hparts⟩
  · rintro ⟨parts, rfl, hparts⟩
    exact ⟨units, parts, rfl, rfl, hparts⟩

theorem forall₂_spellsUnit_encodeUnit (units : List UInt16) :
    List.Forall₂ SpellsUnit (units.map encodeUnit) units := by
  rw [List.forall₂_map_left_iff]
  exact List.forall₂_same.2 fun u _ => spellsUnit_encodeUnit u

/-- The bytes of units spell them. -/
theorem units?_flatMap_encodeUnit (units : List UInt16) :
    units? (units.flatMap encodeUnit) = some units := by
  rw [List.flatMap_def]
  exact units?_eq_some_iff.2 ⟨_, rfl, forall₂_spellsUnit_encodeUnit units⟩

/-! ## The shortest spelling -/

/-- `short` is what `bytes` would be if no byte were wasted. -/
def Shortens (short bytes : Bytes) : Prop :=
  short.length ≤ bytes.length ∧ (short.length = bytes.length → short = bytes)

theorem Shortens.append {x x' y y' : Bytes} (h : Shortens x x') (h' : Shortens y y') :
    Shortens (x ++ y) (x' ++ y') := by
  obtain ⟨hle, heq⟩ := h
  obtain ⟨hle', heq'⟩ := h'
  rw [Shortens, List.length_append, List.length_append]
  refine ⟨by omega, fun hlength => ?_⟩
  rw [heq (by omega), heq' (by omega)]

theorem Shortens.append_eq_iff {x x' y y' : Bytes} (h : Shortens x x') (h' : Shortens y y') :
    x ++ y = x' ++ y' ↔ x = x' ∧ y = y' := by
  obtain ⟨hle, heq⟩ := h
  obtain ⟨hle', heq'⟩ := h'
  constructor
  · intro hxy
    have hlength := congrArg List.length hxy
    rw [List.length_append, List.length_append] at hlength
    exact ⟨heq (by omega), heq' (by omega)⟩
  · rintro ⟨rfl, rfl⟩
    rfl

/-- A unit is written as its shortest spelling. -/
theorem SpellsUnit.shortens {x : Bytes} {u : UInt16} (h : SpellsUnit x u) :
    Shortens (encodeUnit u) x := by
  cases h with
  | @single b hb =>
    have hunit : b.toUInt16.toNat = b.toNat := rfl
    rw [encodeUnit_single (by rw [hunit]; omega) (by rw [hunit]; omega), hunit, UInt8.ofNat_toNat]
    exact ⟨le_rfl, fun _ => rfl⟩
  | @double b c u hb hc hu =>
    by_cases hsingle : 0 < u.toNat ∧ u.toNat < 0x80
    · rw [encodeUnit_single hsingle.1 hsingle.2]
      exact ⟨by simp, by simp⟩
    · rw [encodeUnit_double (by omega) (by omega)]
      have h1 : 0xc0 + u.toNat / 0x40 = b.toNat := by omega
      have h2 : 0x80 + u.toNat % 0x40 = c.toNat := by omega
      rw [h1, h2, UInt8.ofNat_toNat, UInt8.ofNat_toNat]
      exact ⟨le_rfl, fun _ => rfl⟩
  | @triple b c d u hb hc hd hu =>
    rcases Nat.lt_or_ge u.toNat 0x800 with hlt | hge
    · by_cases hsingle : 0 < u.toNat ∧ u.toNat < 0x80
      · rw [encodeUnit_single hsingle.1 hsingle.2]
        exact ⟨by simp, by simp⟩
      · rw [encodeUnit_double (by omega) hlt]
        exact ⟨by simp, by simp⟩
    · rw [encodeUnit_triple hge]
      have h1 : 0xe0 + u.toNat / 0x1000 = b.toNat := by omega
      have h2 : 0x80 + u.toNat / 0x40 % 0x40 = c.toNat := by omega
      have h3 : 0x80 + u.toNat % 0x40 = d.toNat := by omega
      rw [h1, h2, h3, UInt8.ofNat_toNat, UInt8.ofNat_toNat, UInt8.ofNat_toNat]
      exact ⟨le_rfl, fun _ => rfl⟩

theorem shortens_flatten {parts : List Bytes} {units : List UInt16}
    (h : List.Forall₂ SpellsUnit parts units) :
    Shortens (units.flatMap encodeUnit) parts.flatten := by
  induction h with
  | nil => exact ⟨le_rfl, fun _ => rfl⟩
  | cons hx _ ih =>
    rw [List.flatMap_cons, List.flatten_cons]
    exact hx.shortens.append ih

/-- Bytes that spell some units are no shorter than what the units are written as. -/
theorem shortens_of_units? {units : List UInt16} {bytes : Bytes} (h : units? bytes = some units) :
    Shortens (units.flatMap encodeUnit) bytes := by
  obtain ⟨parts, rfl, hparts⟩ := units?_eq_some_iff.1 h
  exact shortens_flatten hparts

/-- Every code unit of the bytes is written in as few bytes as it can be. -/
def IsShortest (bytes : Bytes) : Prop :=
  ∃ units, units? bytes = some units ∧ units.flatMap encodeUnit = bytes

/-- The bytes are units, but a surrogate among them has no partner. -/
def HasLoneSurrogate (bytes : Bytes) : Prop :=
  ∃ units, units? bytes = some units ∧ Utf16.decode? units = none

/-! ## Texts -/

theorem size_eq_length_encode (s : String) : size s = (encode s).length := by
  have hfold : ∀ (units : List UInt16) (n : ℕ),
      units.foldl (fun n u => n + unitSize u) n = n + (units.flatMap encodeUnit).length := by
    intro units
    induction units with
    | nil => simp
    | cons u units ih =>
      intro n
      rw [List.foldl_cons, ih, List.flatMap_cons, List.length_append, length_encodeUnit]
      omega
  rw [size, hfold, Nat.zero_add]
  rfl

theorem units?_encode (s : String) : units? (encode s) = some (Utf16.encode s.toList) :=
  units?_flatMap_encodeUnit _

end ModifiedUtf8

end JarRemap.Text
