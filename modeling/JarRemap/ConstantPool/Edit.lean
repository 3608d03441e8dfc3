import JarRemap.ConstantPool.Basic

/-!
# Editing a pool step by step

Adding a class name takes two steps, the text and then the entry that refers to it. The pool is a
state that survives an error: what the first step has appended stays when the second one fails. A
single step that fails leaves the pool alone.
-/

namespace JarRemap

/-- A computation that changes a pool and may fail. -/
abbrev PoolEdit := ExceptT ClassError (StateM ConstantPool)

namespace PoolEdit

/-- Appends an entry, whether the pool has an equal one or not, and gives its slot. -/
def push (c : Constant) : PoolEdit UInt16 := fun pool =>
  match pool.pushRefusal? c with
  | some e => (.error e, pool)
  | none =>
    let index := UInt16.ofNat pool.size
    (.ok index, pool.append c)

/-- Gives the slot of an equal entry, or appends one where the directory leads to none. -/
def put (c : Constant) : PoolEdit UInt16 := fun pool =>
  match pool.find? c with
  | some index => (.ok index, pool)
  | none => push c pool

/-- Replaces the entry in a slot by one of the same width. -/
def set (index : UInt16) (c : Constant) : PoolEdit Unit := fun pool =>
  match pool.setRefusal? index c with
  | some e => (.error e, pool)
  | none => (.ok (), pool.replace index c)

/-- Gives the slot of a text. -/
def putText (s : String) : PoolEdit UInt16 :=
  put (.utf8 s)

/-- Gives the slot of a class entry for this name. -/
def putClass (name : String) : PoolEdit UInt16 := do
  let name ← putText name
  put (.classEntry name)

/-- Gives the slot of an entry for this name and this descriptor. -/
def putNameAndType (name descriptor : String) : PoolEdit UInt16 := do
  let name ← putText name
  let descriptor ← putText descriptor
  put (.nameAndType name descriptor)

end PoolEdit

end JarRemap
