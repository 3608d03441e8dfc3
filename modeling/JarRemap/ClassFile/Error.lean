import JarRemap.Text.Number

/-!
# Why a class file is refused

`ClassError` has one constructor per cause; `ClassError.message` is the only place that words them.
-/

namespace JarRemap

/-- What a reference into the constant pool expects to find. -/
inductive ExpectedEntry where
  | text
  | classEntry
  | nameAndType
  | memberReference
  /-- An entry that takes up as many slots as the one it replaces. -/
  | sameWidth
  deriving DecidableEq, Repr

/-- The words for an expectation. -/
def ExpectedEntry.words : ExpectedEntry → String
  | .text => "Utf8"
  | .classEntry => "Class"
  | .nameAndType => "NameAndType"
  | .memberReference => "member reference"
  | .sameWidth => "entry of the same width"

/-- Why reading, building or resolving a class file fails. -/
inductive ClassError where
  /-- The file does not start with the magic number. -/
  | badMagic (magic : UInt32)
  /-- The data ends inside a field that starts at this offset. -/
  | truncated (offset : Nat)
  /-- The index is zero, beyond the pool, or the second slot of a wide entry. -/
  | badIndex (index : UInt16)
  /-- The pool entry that would get this index has an unknown tag. -/
  | badTag (tag : UInt8) (index : UInt16)
  /-- The entry at this index is of another kind than its user needs. -/
  | wrongKind (index : UInt16) (expected : ExpectedEntry)
  /-- The bytes of this text entry are no modified UTF-8, or no text. -/
  | badText (index : UInt16)
  /-- A text needs more bytes than its length field can count. -/
  | textTooLong (size : Nat)
  /-- An attribute body, or the part of the file named here, does not fill exactly its bytes. -/
  | badAttribute (part : String)
  /-- The pool has no free slot left. While a pool is read this stands for the end of the program,
  at a slot number that does not fit in its 16 bits. -/
  | poolOverflow
  deriving DecidableEq, Repr

/-- The text of an error. -/
def ClassError.message : ClassError → String
  | .badMagic magic => s!"bad magic number {Text.hex32 magic}"
  | .truncated offset => s!"unexpected end of class data at offset {offset}"
  | .badIndex index => s!"invalid constant pool index {index}"
  | .badTag tag index => s!"unknown constant pool tag {tag} at index {index}"
  | .wrongKind index expected => s!"constant pool index {index} is not a {expected.words}"
  | .badText index => s!"malformed modified utf-8 in constant pool index {index}"
  | .textTooLong size => s!"string constant of {size} bytes exceeds the 65535 byte limit"
  | .badAttribute part => s!"malformed {part} attribute"
  | .poolOverflow => "constant pool overflow"

end JarRemap
