import JarRemap.Proofs.Codec.Text

/-!
# Texts in as few bytes as they need

Bytes that are text fall into spellings of the units of that text. What the text is written as is
the bytes in which each unit has its shortest spelling (`ModifiedUtf8.flatMap_encodeUnit_eq_iff`),
so reading undoes writing, and writing undoes reading exactly where no unit wastes a byte
(`ModifiedUtf8.encode_shortest`).
-/

namespace JarRemap.Text.ModifiedUtf8

variable {bytes x : Bytes} {u : UInt16}

/-! ## Reading texts -/

theorem byte_of_isPlain (h : isPlain bytes = true) :
    ∀ b ∈ bytes, 0 < b.toNat ∧ b.toNat < 0x80 := by
  rw [isPlain, List.all_eq_true] at h
  exact fun b hb => (isSingle_iff b).1 (h b hb)

/-- The character of a plain byte has that byte as its only unit. -/
theorem encodeChar_of_plain {b : UInt8} (h : 0 < b.toNat ∧ b.toNat < 0x80) :
    Utf16.encodeChar (Char.ofNat b.toNat) = [b.toUInt16] := by
  have hchar : (Char.ofNat b.toNat).toNat = b.toNat := Utf16.toNat_charOfNat (by omega)
  have hunit : UInt16.ofNat b.toNat = b.toUInt16 :=
    UInt16.toNat_inj.1 (Bytes.toNat_ofNat16 (by omega))
  rw [Utf16.encodeChar_of_lt (by omega), hchar, hunit]

/-- The bytes of a plain text are its units. -/
theorem units?_of_isPlain (h : isPlain bytes = true) :
    units? bytes = some (Utf16.encode (bytes.map fun b => Char.ofNat b.toNat)) := by
  have hspells : ∀ l : Bytes, (∀ b ∈ l, 0 < b.toNat ∧ b.toNat < 0x80) →
      List.Forall₂ SpellsUnit (l.map fun b => [b])
        (Utf16.encode (l.map fun b => Char.ofNat b.toNat)) := by
    intro l hl
    induction l with
    | nil => exact .nil
    | cons b l ih =>
      rw [List.forall_mem_cons] at hl
      rw [List.map_cons, List.map_cons, Utf16.encode, List.flatMap_cons, encodeChar_of_plain hl.1]
      exact .cons (.single hl.1) (ih hl.2)
  refine units?_eq_some_iff.2 ⟨_, ?_, hspells bytes (byte_of_isPlain h)⟩
  rw [← List.flatMap_def, List.flatMap_singleton']

/-- Bytes are a text exactly if they spell its units, whether the text is plain or not. -/
theorem decode?_eq_some_iff {t : String} :
    decode? bytes = some t ↔ units? bytes = some (Utf16.encode t.toList) := by
  rw [decode?]
  split
  case isTrue hplain =>
    rw [units?_of_isPlain hplain, Option.some.injEq, Option.some.injEq]
    constructor
    · rintro rfl
      rw [String.toList_ofList]
    · intro h
      have hchars := Utf16.decode?_eq_some_iff.2 h
      rw [Utf16.decode?_eq_some_iff.2 rfl, Option.some.injEq] at hchars
      rw [← hchars, String.ofList_toList]
  case isFalse =>
    rw [Option.bind_eq_some_iff]
    constructor
    · rintro ⟨units, hunits, htext⟩
      obtain ⟨chars, hchars, rfl⟩ := Option.map_eq_some_iff.1 htext
      rw [hunits, ← Utf16.decode?_eq_some_iff.1 hchars, String.toList_ofList]
    · intro h
      refine ⟨_, h, ?_⟩
      rw [Utf16.decode?_eq_some_iff.2 rfl, Option.map_some, String.ofList_toList]

/-! ## Bytes of a text -/

/-- No byte of a spelling is zero or larger than those that begin three. -/
theorem SpellsUnit.byte_range (h : SpellsUnit x u) : ∀ b ∈ x, b ≠ 0 ∧ b ≤ 0xef := by
  have hrange : ∀ b : UInt8, 0 < b.toNat ∧ b.toNat < 0xf0 → b ≠ 0 ∧ b ≤ 0xef := by
    rintro b ⟨hpos, hlt⟩
    refine ⟨?_, UInt8.le_iff_toNat_le.2 (Nat.le_of_lt_succ hlt)⟩
    rintro rfl
    exact absurd hpos (by decide)
  cases h with
  | single hb => simpa using hrange _ (by omega)
  | double hb hc _ =>
    simpa using ⟨hrange _ (by omega), hrange _ (by omega)⟩
  | triple hb hc hd _ =>
    simpa using ⟨hrange _ (by omega), hrange _ (by omega), hrange _ (by omega)⟩

theorem encode_byte_range (t : String) : ∀ b ∈ encode t, b ≠ 0 ∧ b ≤ 0xef := by
  intro b hb
  obtain ⟨u, -, hb⟩ := List.mem_flatMap.1 hb
  exact (spellsUnit_encodeUnit u).byte_range b hb

/-! ## The shortest spelling -/

/-- The bytes spell the unit, and no spelling of it takes fewer. -/
structure IsShortestFor (x : Bytes) (u : UInt16) : Prop where
  spells : SpellsUnit x u
  length_le : ∀ y, SpellsUnit y u → x.length ≤ y.length

/-- There is one shortest spelling of a unit, and that is how it is written. -/
theorem isShortestFor_iff : IsShortestFor x u ↔ x = encodeUnit u := by
  constructor
  · intro h
    obtain ⟨hle, heq⟩ := h.spells.shortens
    have hle' := h.length_le _ (spellsUnit_encodeUnit u)
    exact (heq (le_antisymm hle hle')).symm
  · rintro rfl
    exact ⟨spellsUnit_encodeUnit u, fun y hy => hy.shortens.1⟩

/-- Bytes are what their units are written as exactly if each unit has its shortest spelling. -/
theorem flatMap_encodeUnit_eq_iff {parts : List Bytes} {units : List UInt16}
    (h : List.Forall₂ SpellsUnit parts units) :
    units.flatMap encodeUnit = parts.flatten ↔ List.Forall₂ IsShortestFor parts units := by
  induction h with
  | nil => simp
  | cons hx hrest ih =>
    rw [List.flatMap_cons, List.flatten_cons, hx.shortens.append_eq_iff (shortens_flatten hrest),
      ih, List.forall₂_cons, isShortestFor_iff, eq_comm]

/-- Every text is read back as it was written, in as many bytes as its size says, none of them zero
or above those that begin three. Bytes that are a text fall into spellings of its units. The text
is not written in more bytes than these, and in the same bytes exactly if every unit has its
shortest spelling there, which for the unit zero is one of two bytes. -/
theorem encode_shortest :
    (∀ s : String, decode? (encode s) = some s ∧ (encode s).length = size s ∧
      ∀ b ∈ encode s, b ≠ 0 ∧ b ≤ 0xef) ∧
    (∀ (bytes : Bytes) (t : String), decode? bytes = some t →
      (encode t).length ≤ bytes.length ∧
      ∃ parts, parts.flatten = bytes ∧ List.Forall₂ SpellsUnit parts (Utf16.encode t.toList) ∧
        (encode t = bytes ↔ List.Forall₂ IsShortestFor parts (Utf16.encode t.toList))) ∧
    ∀ x, IsShortestFor x 0 ↔ x = [0xc0, 0x80] := by
  refine ⟨fun s => ⟨?_, (size_eq_length_encode s).symm, encode_byte_range s⟩, ?_, ?_⟩
  · exact decode?_eq_some_iff.2 (units?_encode s)
  · intro bytes t h
    have hunits := decode?_eq_some_iff.1 h
    obtain ⟨parts, hflatten, hparts⟩ := units?_eq_some_iff.1 hunits
    refine ⟨(shortens_of_units? hunits).1, parts, hflatten, hparts, ?_⟩
    rw [← hflatten]
    exact flatMap_encodeUnit_eq_iff hparts
  · exact fun x => isShortestFor_iff

/-- The letter `A` in two bytes where it needs one, and the unit zero in the two that it needs. -/
theorem encode_shortest_overlong :
    decode? [0xc1, 0x81, 0xc0, 0x80] = some "A\x00" ∧
    (encode "A\x00").length ≤ 4 ∧
    ∃ parts, parts.flatten = [0xc1, 0x81, 0xc0, 0x80] ∧
      List.Forall₂ SpellsUnit parts (Utf16.encode "A\x00".toList) ∧
      (encode "A\x00" = [0xc1, 0x81, 0xc0, 0x80] ↔
        List.Forall₂ IsShortestFor parts (Utf16.encode "A\x00".toList)) := by
  have h : decode? [0xc1, 0x81, 0xc0, 0x80] = some "A\x00" := by decide
  exact ⟨h, encode_shortest.2.1 _ _ h⟩

end JarRemap.Text.ModifiedUtf8
