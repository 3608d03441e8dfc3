import JarRemap.Bytes
import JarRemap.ClassFile.Error

/-!
# Reading a class file

A reader moves a cursor over the bytes that are left. A field that is cut off moves the cursor
nowhere and reports the offset at which it starts; a field made of two smaller ones keeps the move
of the first when the second is cut off. The cursor is therefore kept beside the outcome.
-/

namespace JarRemap

/-- A place in a byte string: how much is behind it and what is ahead. -/
structure Cursor where
  position : Nat
  rest : Bytes
  deriving DecidableEq, Repr

/-- A computation that reads from a cursor and may fail. -/
abbrev Reader := ExceptT ClassError (StateM Cursor)

namespace Reader

/-- Runs a reader at the beginning of `data`. -/
def runOn {α : Type} (r : Reader α) (data : Bytes) : Except ClassError α × Cursor :=
  r.run.run ⟨0, data⟩

/-! ## Fields -/

/-- One byte. -/
def u8 : Reader UInt8 := fun c =>
  match c.rest with
  | a :: rest => (.ok a, ⟨c.position + 1, rest⟩)
  | _ => (.error (.truncated c.position), c)

/-- A 16-bit field. -/
def u16 : Reader UInt16 := fun c =>
  match c.rest with
  | a :: b :: rest => (.ok (Bytes.toUInt16 a b), ⟨c.position + 2, rest⟩)
  | _ => (.error (.truncated c.position), c)

/-- A 32-bit field. -/
def u32 : Reader UInt32 := fun c =>
  match c.rest with
  | a :: b :: d :: e :: rest => (.ok (Bytes.toUInt32 a b d e), ⟨c.position + 4, rest⟩)
  | _ => (.error (.truncated c.position), c)

/-- A 64-bit field, read as two 32-bit ones. -/
def u64 : Reader UInt64 := do
  let high ← u32
  let low ← u32
  return Bytes.toUInt64 high low

/-- The next `n` bytes. -/
def bytes (n : Nat) : Reader Bytes := fun c =>
  let taken := c.rest.take n
  if taken.length < n then (.error (.truncated c.position), c)
  else (.ok taken, ⟨c.position + n, c.rest.drop n⟩)

/-! ## Rows -/

/-- Reads `n` rows after those in `done`, which stand in reverse. -/
def rowsAfter {α : Type} (row : Reader α) : Nat → List α → Reader (List α)
  | 0, done => pure done.reverse
  | n + 1, done => do
    let a ← row
    rowsAfter row n (a :: done)

/-- Reads `n` rows one after the other. -/
def rows {α : Type} (n : Nat) (row : Reader α) : Reader (List α) :=
  rowsAfter row n []

/-- Reads an 8-bit count and as many rows. -/
def rows8 {α : Type} (row : Reader α) : Reader (List α) := do
  let count ← u8
  rows count.toNat row

/-- Reads a 16-bit count and as many rows. -/
def rows16 {α : Type} (row : Reader α) : Reader (List α) := do
  let count ← u16
  rows count.toNat row

/-- How far the cursor has come. -/
def position : Reader Nat := do
  return (← get).position

/-- Whether nothing is left to read. -/
def atEnd : Reader Bool := do
  return (← get).rest.isEmpty

end Reader

end JarRemap
