import JarRemap.ClassFile.Reader
import JarRemap.ConstantPool.Basic

/-!
# The constant pool in bytes

Each entry is a tag and its fields. `Constant.encode` writes one entry and `Constant.read` reads it
back; `ConstantPool.encode` and `ConstantPool.read` do the same for a pool, whose count is the
number of its slots.
-/

namespace JarRemap

namespace Constant

/-! ## One entry -/

/-- The bytes of a text entry. -/
def encodeText (bytes : Bytes) : Bytes :=
  1 :: (Bytes.count16 bytes ++ bytes)

/-- The bytes of an entry. -/
def encode : Constant → Bytes
  | .utf8 text => encodeText (Text.ModifiedUtf8.encode text)
  | .rawUtf8 bytes => encodeText bytes
  | .integer value => 3 :: Bytes.ofUInt32 value.toUInt32
  | .float bits => 4 :: Bytes.ofUInt32 bits
  | .long value => 5 :: Bytes.ofUInt64 value.toUInt64
  | .double bits => 6 :: Bytes.ofUInt64 bits
  | .classEntry name => 7 :: Bytes.ofUInt16 name
  | .string text => 8 :: Bytes.ofUInt16 text
  | .fieldRef owner nat => 9 :: (Bytes.ofUInt16 owner ++ Bytes.ofUInt16 nat)
  | .methodRef owner nat => 10 :: (Bytes.ofUInt16 owner ++ Bytes.ofUInt16 nat)
  | .interfaceMethodRef owner nat => 11 :: (Bytes.ofUInt16 owner ++ Bytes.ofUInt16 nat)
  | .nameAndType name descriptor => 12 :: (Bytes.ofUInt16 name ++ Bytes.ofUInt16 descriptor)
  | .methodHandle kind reference => 15 :: kind :: Bytes.ofUInt16 reference
  | .methodType descriptor => 16 :: Bytes.ofUInt16 descriptor
  | .dynamic bootstrap nat => 17 :: (Bytes.ofUInt16 bootstrap ++ Bytes.ofUInt16 nat)
  | .invokeDynamic bootstrap nat => 18 :: (Bytes.ofUInt16 bootstrap ++ Bytes.ofUInt16 nat)
  | .module name => 19 :: Bytes.ofUInt16 name
  | .package name => 20 :: Bytes.ofUInt16 name

/-- The text entry that these bytes make: a text if they are one, else the bytes if they are at
least well formed. -/
def ofTextBytes (bytes : Bytes) (index : UInt16) : Except ClassError Constant :=
  match Text.ModifiedUtf8.units? bytes with
  | none => .error (.badText index)
  | some units =>
    match Text.Utf16.decode? units with
    | some chars => .ok (.utf8 (String.ofList chars))
    | none => .ok (.rawUtf8 bytes)

/-- Reads the entry that gets the slot `index`. -/
def read (index : UInt16) : Reader Constant := do
  let tag ← Reader.u8
  match tag.toNat with
  | 1 =>
    let length ← Reader.u16
    let bytes ← Reader.bytes length.toNat
    ofTextBytes bytes index
  | 3 => return .integer (← Reader.u32).toInt32
  | 4 => return .float (← Reader.u32)
  | 5 => return .long (← Reader.u64).toInt64
  | 6 => return .double (← Reader.u64)
  | 7 => return .classEntry (← Reader.u16)
  | 8 => return .string (← Reader.u16)
  | 9 => return .fieldRef (← Reader.u16) (← Reader.u16)
  | 10 => return .methodRef (← Reader.u16) (← Reader.u16)
  | 11 => return .interfaceMethodRef (← Reader.u16) (← Reader.u16)
  | 12 => return .nameAndType (← Reader.u16) (← Reader.u16)
  | 15 => return .methodHandle (← Reader.u8) (← Reader.u16)
  | 16 => return .methodType (← Reader.u16)
  | 17 => return .dynamic (← Reader.u16) (← Reader.u16)
  | 18 => return .invokeDynamic (← Reader.u16) (← Reader.u16)
  | 19 => return .module (← Reader.u16)
  | 20 => return .package (← Reader.u16)
  | _ => throw (.badTag tag index)

end Constant

namespace ConstantPool

/-! ## The pool -/

/-- Adds an entry that has been read. Of equal entries the directory leads to the first one. -/
def addRead : ConstantPool → Constant → ConstantPool
  | ⟨slots, directory⟩, c =>
    let index := UInt16.ofNat slots.size
    ⟨slots ++ slotsOf c, directory.insertIfNew c.code index⟩

/-- The program stops. This is no refusal of the pool that is read: there is no result at all, and
an error stands for that here. -/
def stop {α : Type} : Reader α :=
  throw .poolOverflow

/-- The slot behind this one. Slots have numbers of 16 bits, and the program stops at a sum that
does not fit. -/
def slotBehind (index : UInt16) : Reader UInt16 :=
  if index.toNat + 1 < UInt16.size then pure (index + 1) else stop

/-- Reads entries into a pool, from the slot `index` on, until the given number of slots is
filled. -/
def readAfter (pool : ConstantPool) (index : UInt16) : Nat → Reader ConstantPool
  | 0 => pure pool
  | missing + 1 => do
    let c ← Constant.read index
    let pool := pool.addRead c
    let index ← slotBehind index
    if c.isWide then
      let index ← slotBehind index
      match missing with
      | 0 => pure pool
      | missing + 1 => readAfter pool index missing
    else
      readAfter pool index missing

/-- Reads a pool. A wide entry may begin in the last slot that is counted. -/
def read : Reader ConstantPool := do
  let count ← Reader.u16
  readAfter empty 1 (count.toNat - 1)

/-- The bytes of a pool. -/
def encode (pool : ConstantPool) : Bytes :=
  Bytes.ofUInt16 (UInt16.ofNat pool.size) ++
    pool.slots.toList.flatMap fun slot => (slot.map Constant.encode).getD []

end ConstantPool

end JarRemap
