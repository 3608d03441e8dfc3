import JarRemap.Bytes
import JarRemap.Text.Utf16

/-!
# Modified UTF-8

The encoding of text in class files. Each UTF-16 code unit is written on its own, in one to three
bytes, and the unit zero takes two, so that no encoded byte is zero and a surrogate pair takes six
bytes. Reading accepts a unit that is written in more bytes than it needs.

Bytes are *well formed* when they are units of these shapes (`units?`); they are *text* when
moreover every surrogate has its partner (`decode?`).
-/

namespace JarRemap.Text.ModifiedUtf8

/-! ## Writing -/

/-- The bytes of one code unit. -/
def encodeUnit (u : UInt16) : Bytes :=
  if 0x01 ≤ u && u ≤ 0x7f then [u.toUInt8]
  else if u ≤ 0x7ff then [(u >>> 6).toUInt8 ||| 0xc0, (u &&& 0x3f).toUInt8 ||| 0x80]
  else
    [(u >>> 12).toUInt8 ||| 0xe0, ((u >>> 6) &&& 0x3f).toUInt8 ||| 0x80,
     (u &&& 0x3f).toUInt8 ||| 0x80]

/-- How many bytes a code unit takes. -/
def unitSize (u : UInt16) : Nat :=
  if 0x01 ≤ u && u ≤ 0x7f then 1 else if u ≤ 0x7ff then 2 else 3

/-- The bytes of a text. -/
def encode (s : String) : Bytes :=
  (Utf16.encode s.toList).flatMap encodeUnit

/-- How many bytes a text takes. -/
def size (s : String) : Nat :=
  (Utf16.encode s.toList).foldl (fun n u => n + unitSize u) 0

/-! ## Reading -/

/-- Whether a byte continues a unit. -/
def isContinuation (b : UInt8) : Bool :=
  b &&& 0xc0 == 0x80

/-- The six bits that a continuation byte carries. -/
def payload (b : UInt8) : UInt16 :=
  (b &&& 0x3f).toUInt16

/-- Reads bytes after the units in `done`, which stand in reverse. -/
def unitsAfter? (done : List UInt16) : Bytes → Option (List UInt16)
  | [] => some done.reverse
  | b :: rest =>
    if b != 0 && b < 0x80 then unitsAfter? (b.toUInt16 :: done) rest
    else if b &&& 0xe0 == 0xc0 then
      match rest with
      | c :: rest =>
        if isContinuation c then
          unitsAfter? (((b &&& 0x1f).toUInt16 <<< 6 ||| payload c) :: done) rest
        else none
      | [] => none
    else if b &&& 0xf0 == 0xe0 then
      match rest with
      | c :: d :: rest =>
        if isContinuation c && isContinuation d then
          unitsAfter?
            (((b &&& 0x0f).toUInt16 <<< 12 ||| payload c <<< 6 ||| payload d) :: done) rest
        else none
      | _ => none
    else none

/-- The code units that bytes spell, if the bytes are well formed. -/
def units? (bytes : Bytes) : Option (List UInt16) :=
  unitsAfter? [] bytes

/-- Whether every byte is a unit of its own. -/
def isPlain (bytes : Bytes) : Bool :=
  bytes.all fun b => b != 0 && b < 0x80

/-- The text that bytes spell, if they are text. Most texts are plain, and then each byte is a
character. -/
def decode? (bytes : Bytes) : Option String :=
  if isPlain bytes then some (String.ofList (bytes.map fun b => Char.ofNat b.toNat))
  else (units? bytes).bind fun units => (Utf16.decode? units).map String.ofList

theorem length_encodeUnit (u : UInt16) : (encodeUnit u).length = unitSize u := by
  unfold encodeUnit unitSize
  split
  · rfl
  · split <;> rfl

end JarRemap.Text.ModifiedUtf8
