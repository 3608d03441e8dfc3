/-!
# UTF-16

The code units of a text. `Utf16.encode` writes a character beyond the basic plane as a surrogate
pair; `Utf16.decode?` reads units back and refuses a surrogate that has no partner.
-/

namespace JarRemap.Text.Utf16

/-- Whether a unit is the first half of a pair. -/
def isHigh (u : UInt16) : Bool :=
  0xd800 ≤ u && u < 0xdc00

/-- Whether a unit is the second half of a pair. -/
def isLow (u : UInt16) : Bool :=
  0xdc00 ≤ u && u < 0xe000

/-- The units of one character. -/
def encodeChar (c : Char) : List UInt16 :=
  if c.val < 0x10000 then [c.val.toUInt16]
  else
    let offset := c.val - 0x10000
    [(offset >>> 10).toUInt16 + 0xd800, (offset &&& 0x3ff).toUInt16 + 0xdc00]

/-- The units of a text. -/
def encode (s : List Char) : List UInt16 :=
  s.flatMap encodeChar

/-- The character that a surrogate pair stands for. -/
def ofPair (high low : UInt16) : Char :=
  Char.ofNat (0x10000 + (high.toNat - 0xd800) * 0x400 + (low.toNat - 0xdc00))

/-- Reads units after the characters in `done`, which stand in reverse. -/
def decodeAfter? (done : List Char) : List UInt16 → Option (List Char)
  | [] => some done.reverse
  | u :: rest =>
    if isHigh u then
      match rest with
      | v :: rest => if isLow v then decodeAfter? (ofPair u v :: done) rest else none
      | [] => none
    else if isLow u then none
    else decodeAfter? (Char.ofNat u.toNat :: done) rest

/-- The text that units spell, unless a surrogate stands alone. -/
def decode? (units : List UInt16) : Option (List Char) :=
  decodeAfter? [] units

end JarRemap.Text.Utf16
