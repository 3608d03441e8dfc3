/-!
# Byte strings

Class files are big-endian. A byte string is a list, which is what a reader takes apart from the
front; the functions here write one fixed-width field each, and `Bytes.count8` and `Bytes.count16`
write the number of rows that follows them.
-/

namespace JarRemap

/-- A byte string. -/
abbrev Bytes := List UInt8

namespace Bytes

/-! ## Fields -/

/-- The two bytes of a 16-bit field, most significant first. -/
def ofUInt16 (n : UInt16) : Bytes :=
  [(n >>> 8).toUInt8, n.toUInt8]

/-- The four bytes of a 32-bit field, most significant first. -/
def ofUInt32 (n : UInt32) : Bytes :=
  [(n >>> 24).toUInt8, (n >>> 16).toUInt8, (n >>> 8).toUInt8, n.toUInt8]

/-- The eight bytes of a 64-bit field, most significant first. -/
def ofUInt64 (n : UInt64) : Bytes :=
  ofUInt32 (n >>> 32).toUInt32 ++ ofUInt32 n.toUInt32

/-- The 16-bit number that two bytes spell. -/
def toUInt16 (a b : UInt8) : UInt16 :=
  a.toUInt16 <<< 8 ||| b.toUInt16

/-- The 32-bit number that four bytes spell. -/
def toUInt32 (a b c d : UInt8) : UInt32 :=
  a.toUInt32 <<< 24 ||| b.toUInt32 <<< 16 ||| c.toUInt32 <<< 8 ||| d.toUInt32

/-- The 64-bit number that two 32-bit halves spell. -/
def toUInt64 (high low : UInt32) : UInt64 :=
  high.toUInt64 <<< 32 ||| low.toUInt64

/-! ## Counts -/

/-- The length of a list in an 8-bit field, cut to the width of the field. -/
def count8 {α : Type} (rows : List α) : Bytes :=
  [UInt8.ofNat rows.length]

/-- The length of a list in a 16-bit field, cut to the width of the field. -/
def count16 {α : Type} (rows : List α) : Bytes :=
  ofUInt16 (UInt16.ofNat rows.length)

/-- The length of a list in a 32-bit field, cut to the width of the field. -/
def count32 {α : Type} (rows : List α) : Bytes :=
  ofUInt32 (UInt32.ofNat rows.length)

@[simp] theorem length_ofUInt16 (n : UInt16) : (ofUInt16 n).length = 2 := rfl

@[simp] theorem length_ofUInt32 (n : UInt32) : (ofUInt32 n).length = 4 := rfl

@[simp] theorem length_ofUInt64 (n : UInt64) : (ofUInt64 n).length = 8 := rfl

end Bytes

end JarRemap
