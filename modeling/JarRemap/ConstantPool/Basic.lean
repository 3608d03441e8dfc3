import JarRemap.ClassFile.Error
import JarRemap.ConstantPool.Constant
import Std.Data.TreeMap.Basic

/-!
# The constant pool

A pool is a row of slots. Slot zero and the second slot of a wide entry hold nothing. Entries never
move: an entry is replaced in its slot or a new one is appended, so every slot number in code and in
unread attributes stays good.

Beside the slots the pool keeps a directory, which leads from the code of an entry to a slot.
Appending an entry points the directory to the new slot, replacing one does so only if the directory
leads nowhere yet, and nothing is ever taken out: `ConstantPool.find?` therefore checks what stands
in the slot.
-/

namespace JarRemap

/-- A constant pool. -/
structure ConstantPool where
  slots : Array (Option Constant)
  directory : Std.TreeMap (List Nat) UInt16

/-- The owner, name and descriptor that a member reference stands for. -/
structure MemberReference where
  owner : String
  name : String
  descriptor : String
  deriving DecidableEq, Repr

namespace ConstantPool

/-- The pool with no entries: slot zero alone. -/
def empty : ConstantPool := ⟨#[none], ∅⟩

instance : Inhabited ConstantPool := ⟨empty⟩

/-- The number of slots, slot zero included. -/
def size (pool : ConstantPool) : Nat :=
  pool.slots.size

/-- Whether slot zero is the only one. -/
def isEmpty (pool : ConstantPool) : Bool :=
  pool.size ≤ 1

/-- The entry in a slot, if the slot holds one. -/
def entry? (pool : ConstantPool) (index : UInt16) : Option Constant :=
  (pool.slots[index.toNat]?).join

/-- The entries with their slots, in order. -/
def toList (pool : ConstantPool) : List (UInt16 × Constant) :=
  pool.slots.toList.zipIdx.filterMap fun (slot, i) => slot.map fun c => (UInt16.ofNat i, c)

/-! ## Resolving -/

/-- The entry in a slot. -/
def get (pool : ConstantPool) (index : UInt16) : Except ClassError Constant :=
  match pool.entry? index with
  | some c => .ok c
  | none => .error (.badIndex index)

/-- The text in a slot. -/
def text (pool : ConstantPool) (index : UInt16) : Except ClassError String := do
  match ← pool.get index with
  | .utf8 s => return s
  | .rawUtf8 _ => throw (.badText index)
  | _ => throw (.wrongKind index .text)

/-- The name that a class entry refers to. -/
def className (pool : ConstantPool) (index : UInt16) : Except ClassError String := do
  match ← pool.get index with
  | .classEntry name => pool.text name
  | _ => throw (.wrongKind index .classEntry)

/-- The name and the descriptor that an entry for both refers to. -/
def nameAndType (pool : ConstantPool) (index : UInt16) : Except ClassError (String × String) := do
  match ← pool.get index with
  | .nameAndType name descriptor => return (← pool.text name, ← pool.text descriptor)
  | _ => throw (.wrongKind index .nameAndType)

/-- What a reference to a field or method stands for. The name is resolved before the owner. -/
def memberReference (pool : ConstantPool) (index : UInt16) :
    Except ClassError MemberReference := do
  match ← pool.get index with
  | .fieldRef owner nat | .methodRef owner nat | .interfaceMethodRef owner nat =>
    let (name, descriptor) ← pool.nameAndType nat
    return { owner := ← pool.className owner, name, descriptor }
  | _ => throw (.wrongKind index .memberReference)

/-! ## Changing -/

/-- The most slots that a pool may have. -/
def maxSize : Nat := 65535

/-- The most bytes that a text entry may have. -/
def maxTextSize : Nat := 65535

/-- Why a text entry is too long for its length field, if it is. -/
def textRefusal? (c : Constant) : Option ClassError :=
  match c.textSize? with
  | some n => if n > maxTextSize then some (.textTooLong n) else none
  | none => none

/-- Why an entry cannot be appended, if it cannot. -/
def pushRefusal? (pool : ConstantPool) (c : Constant) : Option ClassError :=
  match textRefusal? c with
  | some e => some e
  | none => if pool.size + c.width > maxSize then some .poolOverflow else none

/-- The slots that an entry fills. -/
def slotsOf (c : Constant) : List (Option Constant) :=
  if c.isWide then [some c, none] else [some c]

/-- Appends an entry. -/
def append : ConstantPool → Constant → ConstantPool
  | ⟨slots, directory⟩, c =>
    let index := UInt16.ofNat slots.size
    ⟨slots ++ slotsOf c, directory.insert c.code index⟩

/-- The slot of an equal entry, if the directory still leads to one. -/
def find? (pool : ConstantPool) (c : Constant) : Option UInt16 :=
  pool.directory[c.code]?.filter fun index => pool.entry? index == some c

/-- Why the entry in a slot cannot be replaced by this one, if it cannot. -/
def setRefusal? (pool : ConstantPool) (index : UInt16) (c : Constant) : Option ClassError :=
  match textRefusal? c with
  | some e => some e
  | none =>
    match pool.entry? index with
    | none => some (.badIndex index)
    | some current =>
      if current.isWide != c.isWide then some (.wrongKind index .sameWidth) else none

/-- Replaces the entry in a slot. -/
def replace : ConstantPool → UInt16 → Constant → ConstantPool
  | ⟨slots, directory⟩, index, c =>
    ⟨slots.setIfInBounds index.toNat (some c), directory.insertIfNew c.code index⟩

end ConstantPool

end JarRemap
