import JarRemap.ClassFile.Basic
import JarRemap.ConstantPool.Edit

/-!
# Building a class step by step

A class is built on a state that survives an error, as its pool is. An attribute is made first,
which puts its name and its text into the pool, and then given a place.
-/

namespace JarRemap

/-- A computation that changes a class and may fail. -/
abbrev ClassEdit := ExceptT ClassError (StateM ClassFile)

namespace ClassEdit

/-- Edits the pool of the class. -/
def onPool {α : Type} (edit : PoolEdit α) : ClassEdit α := fun c =>
  match edit c.pool with
  | (outcome, pool) => (outcome, { c with pool })

/-! ## Attributes -/

/-- Makes an attribute with this name and body. -/
def makeAttribute (name : String) (info : Bytes) : ClassEdit Attribute := do
  let nameIndex ← onPool (PoolEdit.putText name)
  return { nameIndex, name, info }

/-- Makes an attribute whose body is the slot of a text. -/
def makeTextAttribute (name text : String) : ClassEdit Attribute := do
  let index ← onPool (PoolEdit.putText text)
  makeAttribute name (Bytes.ofUInt16 index)

/-- Gives the class an attribute, in the place of one with its name. -/
def setClassAttribute (a : Attribute) : ClassEdit Unit :=
  modify fun c => { c with attributes := setAttribute a c.attributes }

/-! ## Members -/

/-- Adds an interface. -/
def addInterface (name : String) : ClassEdit Unit := do
  let index ← onPool (PoolEdit.putClass name)
  modify fun c => { c with interfaces := c.interfaces ++ [index] }

/-- Makes a member without attributes. -/
def makeMember (access : AccessFlags) (name descriptor : String) : ClassEdit Member := do
  let name ← onPool (PoolEdit.putText name)
  let descriptor ← onPool (PoolEdit.putText descriptor)
  return { access, name, descriptor, attributes := [] }

/-- Adds a field and gives its position. -/
def addField (access : AccessFlags) (name descriptor : String) : ClassEdit Nat := do
  let member ← makeMember access name descriptor
  let position := (← get).fields.length
  modify fun c => { c with fields := c.fields ++ [member] }
  return position

/-- Adds a method and gives its position. -/
def addMethod (access : AccessFlags) (name descriptor : String) : ClassEdit Nat := do
  let member ← makeMember access name descriptor
  let position := (← get).methods.length
  modify fun c => { c with methods := c.methods ++ [member] }
  return position

/-- Puts a reference to a field into the pool and gives its slot. -/
def addFieldRef (owner name descriptor : String) : ClassEdit UInt16 := onPool do
  let owner ← PoolEdit.putClass owner
  let nat ← PoolEdit.putNameAndType name descriptor
  PoolEdit.put (.fieldRef owner nat)

/-- Puts a reference to a method, which may be that of an interface, into the pool and gives its
slot. -/
def addMethodRef (owner name descriptor : String) (ofInterface : Bool) : ClassEdit UInt16 :=
  onPool do
    let owner ← PoolEdit.putClass owner
    let nat ← PoolEdit.putNameAndType name descriptor
    PoolEdit.put (if ofInterface then .interfaceMethodRef owner nat else .methodRef owner nat)

end ClassEdit

namespace ClassFile

/-- The version that a new class gets. -/
def defaultMajorVersion : UInt16 := 61

/-- A class with a name and perhaps a superclass and nothing else. -/
def create (access : AccessFlags) (name : String) (superName : Option String) :
    Except ClassError ClassFile :=
  let names : PoolEdit (UInt16 × UInt16) := do
    let thisClass ← PoolEdit.putClass name
    let superClass ←
      match superName with
      | some s => PoolEdit.putClass s
      | none => pure 0
    return (thisClass, superClass)
  match names ConstantPool.empty with
  | (.error e, _) => .error e
  | (.ok (thisClass, superClass), pool) =>
    .ok { minorVersion := 0, majorVersion := defaultMajorVersion, pool, access, thisClass,
          superClass, interfaces := [], fields := [], methods := [], attributes := [] }

end ClassFile

end JarRemap
