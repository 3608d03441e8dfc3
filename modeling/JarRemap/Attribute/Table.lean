import JarRemap.Attribute.Format

/-!
# Attributes that are tables

Formats whose bodies are rows of fixed fields: nested classes, the enclosing method, local
variables, method parameters and bootstrap methods.
-/

namespace JarRemap

/-! ## Nested classes -/

/-- One nested class. The slots for the class around it and for its simple name may be zero. -/
structure InnerClass where
  innerClass : UInt16
  outerClass : UInt16
  innerName : UInt16
  access : AccessFlags
  deriving DecidableEq, Repr

/-- Reads one nested class. -/
def InnerClass.read : Reader InnerClass := do
  let innerClass ← Reader.u16
  let outerClass ← Reader.u16
  let innerName ← Reader.u16
  let access ← Reader.u16
  return { innerClass, outerClass, innerName, access := ⟨access⟩ }

/-- The bytes of one nested class. -/
def InnerClass.encode (c : InnerClass) : Bytes :=
  Bytes.ofUInt16 c.innerClass ++ (Bytes.ofUInt16 c.outerClass ++
    (Bytes.ofUInt16 c.innerName ++ Bytes.ofUInt16 c.access.bits))

/-- The nested classes that a class mentions. -/
def AttributeFormat.innerClasses : AttributeFormat (List InnerClass) where
  name := "InnerClasses"
  read _ := Reader.rows16 InnerClass.read
  encode rows := Bytes.count16 rows ++ rows.flatMap InnerClass.encode

/-! ## The enclosing method -/

/-- Where a local class is declared. The slot for the method is zero outside of methods. -/
structure EnclosingMethod where
  owner : UInt16
  method : UInt16
  deriving DecidableEq, Repr

/-- Where a local class is declared. -/
def AttributeFormat.enclosingMethod : AttributeFormat EnclosingMethod where
  name := "EnclosingMethod"
  read _ := do
    let owner ← Reader.u16
    let method ← Reader.u16
    return { owner, method }
  encode e := Bytes.ofUInt16 e.owner ++ Bytes.ofUInt16 e.method

/-! ## Local variables -/

/-- A local variable: the code range in which it lives, its name, its descriptor or signature, and
its slot among the locals. -/
structure LocalVariable where
  start : UInt16
  length : UInt16
  name : UInt16
  descriptor : UInt16
  slot : UInt16
  deriving DecidableEq, Repr

/-- Reads one local variable. -/
def LocalVariable.read : Reader LocalVariable := do
  let start ← Reader.u16
  let length ← Reader.u16
  let name ← Reader.u16
  let descriptor ← Reader.u16
  let slot ← Reader.u16
  return { start, length, name, descriptor, slot }

/-- The bytes of one local variable. -/
def LocalVariable.encode (v : LocalVariable) : Bytes :=
  Bytes.ofUInt16 v.start ++ (Bytes.ofUInt16 v.length ++ (Bytes.ofUInt16 v.name ++
    (Bytes.ofUInt16 v.descriptor ++ Bytes.ofUInt16 v.slot)))

/-- Local variables with their descriptors. -/
def AttributeFormat.localVariables : AttributeFormat (List LocalVariable) where
  name := "LocalVariableTable"
  read _ := Reader.rows16 LocalVariable.read
  encode rows := Bytes.count16 rows ++ rows.flatMap LocalVariable.encode

/-- Local variables with their generic signatures. -/
def AttributeFormat.localVariableTypes : AttributeFormat (List LocalVariable) where
  name := "LocalVariableTypeTable"
  read _ := Reader.rows16 LocalVariable.read
  encode rows := Bytes.count16 rows ++ rows.flatMap LocalVariable.encode

/-! ## Method parameters -/

/-- A parameter. The slot for its name is zero when it has none. -/
structure MethodParameter where
  name : UInt16
  access : AccessFlags
  deriving DecidableEq, Repr

/-- Reads one parameter. -/
def MethodParameter.read : Reader MethodParameter := do
  let name ← Reader.u16
  let access ← Reader.u16
  return { name, access := ⟨access⟩ }

/-- The bytes of one parameter. -/
def MethodParameter.encode (p : MethodParameter) : Bytes :=
  Bytes.ofUInt16 p.name ++ Bytes.ofUInt16 p.access.bits

/-- The parameters of a method, which are counted in one byte. -/
def AttributeFormat.methodParameters : AttributeFormat (List MethodParameter) where
  name := "MethodParameters"
  read _ := Reader.rows8 MethodParameter.read
  encode rows := Bytes.count8 rows ++ rows.flatMap MethodParameter.encode

/-! ## Bootstrap methods -/

/-- A method that links call sites, with the constants that it is given. -/
structure BootstrapMethod where
  method : UInt16
  arguments : List UInt16
  deriving DecidableEq, Repr

/-- Reads one bootstrap method. -/
def BootstrapMethod.read : Reader BootstrapMethod := do
  let method ← Reader.u16
  let arguments ← Reader.rows16 Reader.u16
  return { method, arguments }

/-- The bytes of one bootstrap method. -/
def BootstrapMethod.encode (b : BootstrapMethod) : Bytes :=
  Bytes.ofUInt16 b.method ++ (Bytes.count16 b.arguments ++ b.arguments.flatMap Bytes.ofUInt16)

/-- The bootstrap methods of a class. -/
def AttributeFormat.bootstrapMethods : AttributeFormat (List BootstrapMethod) where
  name := "BootstrapMethods"
  read _ := Reader.rows16 BootstrapMethod.read
  encode rows := Bytes.count16 rows ++ rows.flatMap BootstrapMethod.encode

end JarRemap
