import JarRemap.Access
import JarRemap.ConstantPool.Basic

/-!
# Class files

A class file keeps the body of every attribute as bytes. What the passes need to look into is read
by the formats under `JarRemap.Attribute`; all else is written out as it was read.
-/

namespace JarRemap

/-- An attribute. Its name is the text in the slot `nameIndex` of the pool. -/
structure Attribute where
  nameIndex : UInt16
  name : String
  info : Bytes
  deriving DecidableEq, Repr

/-- A field or a method. Name and descriptor are slots of the pool. -/
structure Member where
  access : AccessFlags
  name : UInt16
  descriptor : UInt16
  attributes : List Attribute
  deriving DecidableEq, Repr

/-- A class file. -/
structure ClassFile where
  minorVersion : UInt16
  majorVersion : UInt16
  pool : ConstantPool
  access : AccessFlags
  thisClass : UInt16
  /-- Zero for a class without superclass. -/
  superClass : UInt16
  interfaces : List UInt16
  fields : List Member
  methods : List Member
  attributes : List Attribute

/-- The name of the attribute that holds a generic signature. -/
def signatureName : String := "Signature"

/-- The name of the attribute that holds the name of the source file. -/
def sourceFileName : String := "SourceFile"

/-! ## Attributes -/

/-- The first attribute with a name. -/
def findAttribute? (name : String) (attributes : List Attribute) : Option Attribute :=
  attributes.find? (·.name == name)

/-- Puts an attribute in the place of the first one with its name, or at the end. -/
def setAttribute (new : Attribute) : List Attribute → List Attribute
  | [] => [new]
  | a :: rest => if a.name = new.name then new :: rest else a :: setAttribute new rest

/-- The slot that makes up the body of an attribute. -/
def Attribute.index (a : Attribute) : Except ClassError UInt16 :=
  match a.info with
  | [high, low] => .ok (Bytes.toUInt16 high low)
  | _ => .error (.badAttribute "single-index")

/-- The text whose slot makes up the body of the attribute with this name, if there is one. -/
def textAttribute (pool : ConstantPool) (name : String) (attributes : List Attribute) :
    Except ClassError (Option String) := do
  match findAttribute? name attributes with
  | none => return none
  | some a => return some (← pool.text (← a.index))

/-- The generic signature among some attributes, if there is one. -/
def signatureAmong (pool : ConstantPool) (attributes : List Attribute) :
    Except ClassError (Option String) :=
  textAttribute pool signatureName attributes

/-! ## Names -/

namespace ClassFile

/-- The binary name of the class. -/
def name (c : ClassFile) : Except ClassError String :=
  c.pool.className c.thisClass

/-- The binary name of the superclass, if there is one. -/
def superName (c : ClassFile) : Except ClassError (Option String) :=
  if c.superClass = 0 then .ok none else (c.pool.className c.superClass).map some

/-- The binary names of the interfaces. -/
def interfaceNames (c : ClassFile) : Except ClassError (List String) :=
  c.interfaces.mapM c.pool.className

/-- The generic signature of the class, if there is one. -/
def signature (c : ClassFile) : Except ClassError (Option String) :=
  signatureAmong c.pool c.attributes

/-- The name of the source file, if there is one. -/
def sourceFile (c : ClassFile) : Except ClassError (Option String) :=
  textAttribute c.pool sourceFileName c.attributes

end ClassFile

end JarRemap
