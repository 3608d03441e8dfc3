import JarRemap.ConstantPool.Codec
import JarRemap.Proofs.Codec.Reader
import JarRemap.Proofs.Codec.Text

/-!
# Pool entries in bytes

`Constant.Spells` relates an entry to the bytes that reading takes for it. Only texts have more than
one spelling, for modified UTF-8 may waste bytes; `Constant.encode` is the shortest one.
-/

namespace JarRemap

namespace Constant

open Reader

/-! ## One entry -/

/-- The bytes are a spelling of the entry. Only a text has several. -/
def Spells : Constant → Bytes → Prop
  | .utf8 text, x =>
    ∃ bytes, bytes.length < 65536 ∧
      Text.ModifiedUtf8.units? bytes = some (Text.Utf16.encode text.toList) ∧ x = encodeText bytes
  | .rawUtf8 bytes, x =>
    bytes.length < 65536 ∧ Text.ModifiedUtf8.HasLoneSurrogate bytes ∧ x = encodeText bytes
  | c, x => x = c.encode

/-- A text that the bytes of an entry make. -/
theorem ofTextBytes_eq_ok_iff {bytes : Bytes} {index : UInt16} {c : Constant} :
    ofTextBytes bytes index = .ok c ↔
      (∃ text, c = .utf8 text ∧
        Text.ModifiedUtf8.units? bytes = some (Text.Utf16.encode text.toList)) ∨
      (c = .rawUtf8 bytes ∧ Text.ModifiedUtf8.HasLoneSurrogate bytes) := by
  rw [ofTextBytes]
  rcases hunits : Text.ModifiedUtf8.units? bytes with _ | units
  · simp [Text.ModifiedUtf8.HasLoneSurrogate, hunits]
  rcases hchars : Text.Utf16.decode? units with _ | chars
  · simp only [hchars, Except.ok.injEq, Option.some.injEq]
    constructor
    · rintro rfl
      exact .inr ⟨rfl, units, hunits, hchars⟩
    · rintro (⟨text, rfl, rfl⟩ | ⟨rfl, -⟩)
      · rw [Text.Utf16.decode?_eq_some_iff.2 rfl] at hchars
        cases hchars
      · rfl
  · simp only [hchars, Except.ok.injEq, Option.some.injEq]
    have hencode := Text.Utf16.decode?_eq_some_iff.1 hchars
    constructor
    · rintro rfl
      exact .inl ⟨String.ofList chars, rfl, by rw [String.toList_ofList, hencode]⟩
    · rintro (⟨text, rfl, rfl⟩ | ⟨rfl, units', hunits', hnone⟩)
      · rw [Text.Utf16.decode?_eq_some_iff.2 rfl, Option.some.injEq] at hchars
        rw [← hchars, String.ofList_toList]
      · rw [hunits, Option.some.injEq] at hunits'
        rw [← hunits', hchars] at hnone
        cases hnone

/-- A length and as many bytes that make a text entry. -/
theorem readText_ok_iff {index : UInt16} {k : Constant} {c d : Cursor} :
    (do
      let length ← Reader.u16
      let bytes ← Reader.bytes length.toNat
      ofTextBytes bytes index : Reader Constant) c = (.ok k, d) ↔
      ∃ bytes : Bytes, bytes.length < 65536 ∧ ofTextBytes bytes index = .ok k ∧
        c.Past (Bytes.count16 bytes ++ bytes) d := by
  simp only [bind_ok_iff, u16_exact _ _ _, bytes_exact _ _ _ _, true_and, lift_ok_iff,
    Cursor.past_append_iff]
  constructor
  · rintro ⟨length, m, hlength, bytes, _, ⟨hbytes, hpast⟩, htext, rfl⟩
    have hlt : bytes.length < 65536 := hbytes ▸ length.toNat_lt
    obtain rfl := (Bytes.ofNat16_eq_iff hlt length).2 hbytes.symm
    exact ⟨bytes, hlt, htext, m, hlength, hpast⟩
  · rintro ⟨bytes, hlt, htext, m, hlength, hpast⟩
    exact ⟨_, m, hlength, bytes, d, ⟨(Bytes.toNat_ofNat16 hlt).symm, hpast⟩, htext, rfl⟩

/-- Reading an entry goes past a spelling of it, and past nothing else. -/
theorem read_ok_iff {index : UInt16} {k : Constant} {c d : Cursor} :
    Constant.read index c = (.ok k, d) ↔ ∃ x, k.Spells x ∧ c.Past x d := by
  simp only [Constant.read, bind_ok_iff, u8_exact _ _ _, true_and]
  constructor
  · rintro ⟨tag, m, htag, h⟩
    generalize htag' : tag.toNat = t at h
    obtain rfl : UInt8.ofNat t = tag := by rw [← htag', UInt8.ofNat_toNat]
    clear htag'
    revert h
    -- One case for each tag. Only a text is not spelled in one way.
    split
    case h_1 =>
      intro h
      obtain ⟨bytes, hlt, htext, hpast⟩ := readText_ok_iff.1 h
      have hpast' : c.Past (encodeText bytes) d := Cursor.past_cons_iff.2 ⟨m, htag, hpast⟩
      rcases ofTextBytes_eq_ok_iff.1 htext with ⟨text, rfl, hunits⟩ | ⟨rfl, hlone⟩
      · exact ⟨_, ⟨bytes, hlt, hunits, rfl⟩, hpast'⟩
      · exact ⟨_, ⟨hlt, hlone, rfl⟩, hpast'⟩
    case h_18 => exact fun h => absurd h throw_not_ok
    all_goals
      simp only [bind_ok_iff, pure_ok_iff, u8_exact _ _ _, u16_exact _ _ _, u32_exact _ _ _,
        u64_exact _ _ _, true_and]
      first
        | rintro ⟨a, _, hpast, rfl, rfl⟩
          exact ⟨_, rfl, Cursor.past_cons_iff.2 ⟨m, htag, hpast⟩⟩
        | rintro ⟨a, m', hpast, b, _, hpast', rfl, rfl⟩
          exact ⟨_, rfl, Cursor.past_cons_iff.2
            ⟨m, htag, Cursor.past_append_iff.2 ⟨m', hpast, hpast'⟩⟩⟩
  · rintro ⟨x, hspells, hpast⟩
    cases k
    case utf8 text =>
      obtain ⟨bytes, hlt, hunits, rfl⟩ := hspells
      obtain ⟨m, htag, hpast⟩ := Cursor.past_cons_iff.1 hpast
      refine ⟨_, m, htag, readText_ok_iff.2 ⟨bytes, hlt, ?_, hpast⟩⟩
      exact ofTextBytes_eq_ok_iff.2 (.inl ⟨text, rfl, hunits⟩)
    case rawUtf8 bytes =>
      obtain ⟨hlt, hlone, rfl⟩ := hspells
      obtain ⟨m, htag, hpast⟩ := Cursor.past_cons_iff.1 hpast
      refine ⟨_, m, htag, readText_ok_iff.2 ⟨bytes, hlt, ?_, hpast⟩⟩
      exact ofTextBytes_eq_ok_iff.2 (.inr ⟨rfl, hlone⟩)
    all_goals
      obtain rfl := hspells
      obtain ⟨m, htag, hpast⟩ := Cursor.past_cons_iff.1 hpast
      refine ⟨_, m, htag, ?_⟩
    case classEntry | string | methodType | module | package =>
      exact (field_ok_iff u16_exact).2 ⟨_, trivial, hpast, rfl⟩
    case integer | float => exact (field_ok_iff u32_exact).2 ⟨_, trivial, hpast, rfl⟩
    case long | double => exact (field_ok_iff u64_exact).2 ⟨_, trivial, hpast, rfl⟩
    case methodHandle =>
      exact (fields_ok_iff u8_exact u16_exact).2 ⟨_, _, trivial, trivial, hpast, rfl⟩
    case fieldRef | methodRef | interfaceMethodRef | nameAndType | dynamic | invokeDynamic =>
      exact (fields_ok_iff u16_exact u16_exact).2 ⟨_, _, trivial, trivial, hpast, rfl⟩

/-- An entry may be refused, but reading it does not stop. -/
theorem stopless_read (index : UInt16) : (Constant.read index).Stopless := by
  refine u8_takes.stopless.bind fun tag => ?_
  split
  case h_1 =>
    refine u16_takes.stopless.bind fun length => (bytes_takes _).stopless.bind fun bytes => ?_
    refine stopless_lift ?_
    rw [ofTextBytes]
    split
    · rintro ⟨⟩
    · split <;> rintro ⟨⟩
  case h_18 => rintro c d ⟨⟩
  case h_2 | h_3 => exact u32_takes.stopless.bind fun _ => stopless_pure _
  case h_4 | h_5 =>
    exact (u32_takes.stopless.bind fun _ => u32_takes.stopless.bind fun _ => stopless_pure _).bind
      fun _ => stopless_pure _
  case h_12 =>
    exact u8_takes.stopless.bind fun _ => u16_takes.stopless.bind fun _ => stopless_pure _
  case h_6 | h_7 | h_13 | h_16 | h_17 => exact u16_takes.stopless.bind fun _ => stopless_pure _
  all_goals exact u16_takes.stopless.bind fun _ => u16_takes.stopless.bind fun _ => stopless_pure _

/-! ## Spellings and written bytes -/

/-- An entry that reading can give back: its text is no longer than a text may be, and bytes that
stand for a text are none. -/
def Storable : Constant → Prop
  | .utf8 text => (Text.ModifiedUtf8.encode text).length < 65536
  | .rawUtf8 bytes => bytes.length < 65536 ∧ Text.ModifiedUtf8.HasLoneSurrogate bytes
  | _ => True

theorem Storable.spells {k : Constant} (h : k.Storable) : k.Spells k.encode := by
  cases k
  case utf8 text => exact ⟨_, h, Text.ModifiedUtf8.units?_encode text, rfl⟩
  case rawUtf8 bytes => exact ⟨h.1, h.2, rfl⟩
  all_goals rfl

theorem Spells.storable {k : Constant} {x : Bytes} (h : k.Spells x) : k.Storable := by
  cases k
  case utf8 text =>
    obtain ⟨bytes, hlt, hunits, rfl⟩ := h
    exact (Text.ModifiedUtf8.shortens_of_units? hunits).1.trans_lt hlt
  case rawUtf8 bytes => exact ⟨h.1, h.2.1⟩
  all_goals trivial

theorem length_encodeText (bytes : Bytes) : (encodeText bytes).length = bytes.length + 3 := by
  rw [encodeText, List.length_cons, List.length_append, Bytes.count16, Bytes.length_ofUInt16]
  omega

/-- What is written is the shortest spelling. -/
theorem Spells.shortens {k : Constant} {x : Bytes} (h : k.Spells x) :
    Text.ModifiedUtf8.Shortens k.encode x := by
  cases k
  case utf8 text =>
    obtain ⟨bytes, hlt, hunits, rfl⟩ := h
    obtain ⟨hle, heq⟩ := Text.ModifiedUtf8.shortens_of_units? hunits
    refine ⟨?_, ?_⟩
    · rw [encode, length_encodeText, length_encodeText]
      exact Nat.add_le_add_right hle 3
    · intro hlength
      rw [encode, length_encodeText, length_encodeText] at hlength
      rw [encode, Text.ModifiedUtf8.encode, heq (Nat.add_right_cancel hlength)]
  case rawUtf8 bytes =>
    obtain ⟨-, -, rfl⟩ := h
    exact ⟨le_rfl, fun _ => rfl⟩
  all_goals
    obtain rfl := h
    exact ⟨le_rfl, fun _ => rfl⟩

/-! ## Texts as they are written -/

/-- The bytes of the text entries among the first slots of a pool whose entries begin the given
bytes, as they stand there. -/
def writtenTexts (slots : ℕ) (x : Bytes) : List Bytes :=
  match slots, x with
  | slots + 1, tag :: rest =>
    match tag.toNat with
    | 1 =>
      match rest with
      | high :: low :: rest =>
        let length := (Bytes.toUInt16 high low).toNat
        rest.take length :: writtenTexts slots (rest.drop length)
      | _ => []
    | 5 | 6 => writtenTexts (slots - 1) (rest.drop 8)
    | 3 | 4 | 9 | 10 | 11 | 12 | 17 | 18 => writtenTexts slots (rest.drop 4)
    | 15 => writtenTexts slots (rest.drop 3)
    | 7 | 8 | 16 | 19 | 20 => writtenTexts slots (rest.drop 2)
    | _ => []
  | _, _ => []
termination_by slots

/-- The text is written so that writing it again gives the same bytes. -/
def IsReproduced (text : Bytes) : Prop :=
  Text.ModifiedUtf8.HasLoneSurrogate text ∨ Text.ModifiedUtf8.IsShortest text

theorem encodeText_inj {a b : Bytes} : encodeText a = encodeText b ↔ a = b := by
  refine ⟨fun h => ?_, congrArg encodeText⟩
  exact (List.append_inj (List.cons.inj h).2 (by simp [Bytes.count16])).2

theorem writtenTexts_encodeText {bytes : Bytes} (hlt : bytes.length < 65536) (slots : ℕ)
    (rest : Bytes) :
    writtenTexts (slots + 1) (encodeText bytes ++ rest) = bytes :: writtenTexts slots rest := by
  have hcount := Bytes.toNat_ofNat16 hlt
  rw [encodeText, Bytes.count16]
  generalize UInt16.ofNat bytes.length = count at hcount
  simp [Bytes.ofUInt16, writtenTexts, hcount]

/-- What an entry contributes to the written texts, and when it is written as it was read. -/
theorem Spells.written {k : Constant} {x : Bytes} (h : k.Spells x) :
    ∃ texts : List Bytes,
      (∀ slots rest, writtenTexts (slots + 1) (x ++ rest) =
        texts ++ writtenTexts (slots + 1 - k.width) rest) ∧
      (k.encode = x ↔ ∀ text ∈ texts, IsReproduced text) := by
  cases k
  case utf8 text =>
    obtain ⟨bytes, hlt, hunits, rfl⟩ := h
    refine ⟨[bytes], fun slots rest => writtenTexts_encodeText hlt slots rest, ?_⟩
    rw [encode, encodeText_inj]
    simp only [List.mem_singleton, forall_eq, IsReproduced]
    constructor
    · rintro rfl
      exact .inr ⟨_, hunits, rfl⟩
    · rintro (⟨units, hunits', hnone⟩ | ⟨units, hunits', rfl⟩)
      · rw [hunits, Option.some.injEq] at hunits'
        rw [← hunits', Text.Utf16.decode?_eq_some_iff.2 rfl] at hnone
        cases hnone
      · rw [hunits, Option.some.injEq] at hunits'
        rw [← hunits', Text.ModifiedUtf8.encode]
  case rawUtf8 bytes =>
    obtain ⟨hlt, hlone, rfl⟩ := h
    refine ⟨[bytes], fun slots rest => writtenTexts_encodeText hlt slots rest, ?_⟩
    simp only [encode, true_iff, List.mem_singleton, forall_eq]
    exact .inl hlone
  -- Nothing but a text is written in more than one way.
  all_goals
    obtain rfl := h
    refine ⟨[], fun slots rest => ?_, by simp⟩
    simp [encode, writtenTexts, Bytes.ofUInt16, Bytes.ofUInt32, Bytes.ofUInt64, width, isWide]

end Constant

end JarRemap
