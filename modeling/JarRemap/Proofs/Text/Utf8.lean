import JarRemap.Bytes
import JarRemap.Text.Utf8
import Mathlib.Data.Nat.Notation

/-!
# Bytes of characters

The UTF-8 form of some characters. Every byte of a longer character is above those that are
characters by themselves, and the first one tells that a character begins. So a program that looks
for such a character may look at single bytes.
-/

namespace JarRemap

namespace Text

/-- The UTF-8 form of some characters. -/
def utf8 (s : List Char) : Bytes :=
  s.flatMap String.utf8EncodeChar

@[simp] theorem utf8_nil : utf8 [] = [] := rfl

@[simp] theorem utf8_cons (c : Char) (s : List Char) :
    utf8 (c :: s) = String.utf8EncodeChar c ++ utf8 s := rfl

@[simp] theorem utf8_append (s t : List Char) : utf8 (s ++ t) = utf8 s ++ utf8 t :=
  List.flatMap_append

theorem utf8Size_eq_length (s : List Char) : utf8Size s = (utf8 s).length := by
  have hfold (n : ℕ) : s.foldl (fun n c => n + c.utf8Size) n = n + (utf8 s).length := by
    induction s generalizing n with
    | nil => rfl
    | cons c s ih =>
      rw [List.foldl_cons, ih, utf8_cons, List.length_append, String.length_utf8EncodeChar,
        Nat.add_assoc]
  exact (hfold 0).trans (Nat.zero_add _)

theorem utf8ByteSize_ofList (s : List Char) : (String.ofList s).utf8ByteSize = (utf8 s).length := by
  show (String.ofList s).toByteArray.size = _
  rw [String.toByteArray_ofList, List.utf8Encode, List.size_toByteArray]
  rfl

/-- A text is read from the bytes of its characters. -/
theorem fromUTF8?_utf8 (s : List Char) :
    String.fromUTF8? ⟨(utf8 s).toArray⟩ = some (String.ofList s) := by
  have hbytes : (⟨(utf8 s).toArray⟩ : ByteArray) = (String.ofList s).toByteArray := by
    rw [String.toByteArray_ofList]
    exact ByteArray.ext List.data_toByteArray.symm
  rw [hbytes, String.fromUTF8?, dif_pos (String.ofList s).isValidUTF8]
  rfl

/-- A character is spelled by itself or by bytes that no such character is, the first of which tells
that a character begins. -/
theorem utf8EncodeChar_cases (c : Char) :
    (c.toNat < 128 ∧ String.utf8EncodeChar c = [c.toUInt8]) ∨
    (128 ≤ c.toNat ∧ (∀ b ∈ String.utf8EncodeChar c, 128 ≤ b.toNat) ∧
      ∃ b more, String.utf8EncodeChar c = b :: more ∧ 192 ≤ b.toNat) := by
  have hlt : c.toNat < 1114112 := by
    have hval : c.toNat = c.val.toNat := rfl
    rcases c.valid with h | ⟨-, h⟩ <;> omega
  have hval : c.val.toNat = c.toNat := rfl
  unfold String.utf8EncodeChar
  dsimp only
  rw [hval]
  split
  case isTrue => exact .inl ⟨by omega, rfl⟩
  case isFalse =>
    refine .inr ⟨by omega, ?_⟩
    -- There are two, three or four bytes, and all but the first one are just above 128.
    split
    case isTrue =>
      simp
      omega
    case isFalse =>
      split <;> simp <;> omega

theorem toNat_toUInt8 {m : Char} (h : m.toNat < 128) : m.toUInt8.toNat = m.toNat := by
  show m.toNat % 256 = m.toNat
  omega

/-- The first byte of a character tells that one begins, and which one it is if it is a single
byte. -/
theorem exists_firstByte (c : Char) :
    ∃ b more, String.utf8EncodeChar c = b :: more ∧ (b.toNat < 128 ∨ 192 ≤ b.toNat) ∧
      ∀ m : Char, m.toNat < 128 → (b = m.toUInt8 ↔ c = m) := by
  rcases utf8EncodeChar_cases c with ⟨hc, hbytes⟩ | ⟨hc, -, b, more, hbytes, hb⟩
  · refine ⟨c.toUInt8, [], hbytes, .inl (by rwa [toNat_toUInt8 hc]), fun m hm => ?_⟩
    rw [← UInt8.toNat_inj, toNat_toUInt8 hc, toNat_toUInt8 hm, Char.toNat_inj]
  · refine ⟨b, more, hbytes, .inr hb, fun m hm => iff_of_false (fun hsame => ?_) fun hsame => ?_⟩
    · rw [hsame, toNat_toUInt8 hm] at hb
      omega
    · rw [hsame] at hc
      omega

/-- The byte of another character is not among those of a character. -/
theorem toUInt8_notMem {c m : Char} (hm : m.toNat < 128) (hne : c ≠ m) :
    m.toUInt8 ∉ String.utf8EncodeChar c := by
  intro hmem
  rcases utf8EncodeChar_cases c with ⟨hc, hbytes⟩ | ⟨-, hbytes, -⟩
  · rw [hbytes, List.mem_singleton, ← UInt8.toNat_inj, toNat_toUInt8 hc, toNat_toUInt8 hm,
      Char.toNat_inj] at hmem
    exact hne hmem.symm
  · have hge := hbytes _ hmem
    rw [toNat_toUInt8 hm] at hge
    omega

/-- A byte is read as the character that it spells, if it spells one by itself. -/
theorem ofUInt8_eq_iff {b : UInt8} {m : Char} (hm : m.toNat < 128) :
    Char.ofUInt8 b = m ↔ b = m.toUInt8 := by
  rw [← Char.toNat_inj, ← UInt8.toNat_inj, toNat_toUInt8 hm]
  rfl

end Text

end JarRemap
