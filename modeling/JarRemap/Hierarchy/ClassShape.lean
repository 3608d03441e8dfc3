import JarRemap.ClassFile.Codec

/-!
# The shape of a class

What the hierarchy needs to know of a class: its supertypes and what it declares.
-/

namespace JarRemap

/-- A declared field or method. -/
structure MemberShape where
  name : String
  descriptor : String
  access : AccessFlags
  deriving DecidableEq, Repr

/-- The shape of a class. -/
structure ClassShape where
  name : String
  access : AccessFlags
  superName : Option String
  interfaces : List String
  fields : List MemberShape
  methods : List MemberShape
  deriving DecidableEq, Repr

/-- The shape of a member. -/
def MemberShape.ofMember (pool : ConstantPool) (m : Member) : Except ClassError MemberShape := do
  let name ← pool.text m.name
  let descriptor ← pool.text m.descriptor
  return { name, descriptor, access := m.access }

namespace ClassShape

/-- The shape of a class file. -/
def ofClass (c : ClassFile) : Except ClassError ClassShape := do
  let name ← c.name
  let superName ← c.superName
  let interfaces ← c.interfaceNames
  let fields ← c.fields.mapM (MemberShape.ofMember c.pool)
  let methods ← c.methods.mapM (MemberShape.ofMember c.pool)
  return { name, access := c.access, superName, interfaces, fields, methods }

/-- The shape of the class file with these bytes. -/
def parse (data : Bytes) : Except ClassError ClassShape := do
  ofClass (← ClassFile.parse data)

/-- Whether the class is an interface. -/
def isInterface (c : ClassShape) : Bool :=
  c.access.contains .interfaceFlag

/-- The supertypes that the class names: its superclass, then its interfaces. -/
def parents (c : ClassShape) : List String :=
  c.superName.toList ++ c.interfaces

/-- The first declared method with a name and a descriptor. -/
def method? (c : ClassShape) (name descriptor : String) : Option MemberShape :=
  c.methods.find? fun m => m.name == name && m.descriptor == descriptor

/-- The first declared field with a name and, if one is given, a descriptor. -/
def field? (c : ClassShape) (name : String) (descriptor : Option String) : Option MemberShape :=
  c.fields.find? fun f => f.name == name && descriptor.all (f.descriptor == ·)

end ClassShape

end JarRemap
