import JarRemap.ClassFile.Basic
import JarRemap.ConstantPool.Codec

/-!
# Class files in bytes

`ClassFile.parse` reads a whole class file and `ClassFile.encode` writes one. What is read has names
for the class, its superclass and its interfaces, for every member and for every attribute, and
nothing follows it.
-/

namespace JarRemap

/-! ## Reading -/

/-- Reads an attribute. Its name is looked up when its body has been read. -/
def Attribute.read (pool : ConstantPool) : Reader Attribute := do
  let nameIndex ← Reader.u16
  let length ← Reader.u32
  let info ← Reader.bytes length.toNat
  let name ← pool.text nameIndex
  return { nameIndex, name, info }

/-- Reads a list of attributes. -/
def Attribute.readAll (pool : ConstantPool) : Reader (List Attribute) :=
  Reader.rows16 (Attribute.read pool)

/-- Reads a member. Its name and descriptor are checked before its attributes are read. -/
def Member.read (pool : ConstantPool) : Reader Member := do
  let access ← Reader.u16
  let name ← Reader.u16
  let descriptor ← Reader.u16
  let _ ← pool.text name
  let _ ← pool.text descriptor
  let attributes ← Attribute.readAll pool
  return { access := ⟨access⟩, name, descriptor, attributes }

/-- The number that begins every class file. -/
def ClassFile.magic : UInt32 := 0xcafebabe

/-- Reads a class file up to the end of its attributes. -/
def ClassFile.read : Reader ClassFile := do
  let magic ← Reader.u32
  if magic ≠ ClassFile.magic then throw (.badMagic magic)
  let minorVersion ← Reader.u16
  let majorVersion ← Reader.u16
  let pool ← ConstantPool.read
  let access ← Reader.u16
  let thisClass ← Reader.u16
  let superClass ← Reader.u16
  let interfaces ← Reader.rows16 Reader.u16
  let fields ← Reader.rows16 (Member.read pool)
  let methods ← Reader.rows16 (Member.read pool)
  let attributes ← Attribute.readAll pool
  return { minorVersion, majorVersion, pool, access := ⟨access⟩, thisClass, superClass, interfaces,
           fields, methods, attributes }

/-- Refuses a class whose own name, or that of a supertype, cannot be resolved. -/
def ClassFile.checkNames (c : ClassFile) : Except ClassError Unit := do
  let _ ← c.name
  let _ ← c.superName
  let _ ← c.interfaceNames

/-- Reads a whole class file. -/
def ClassFile.parse (data : Bytes) : Except ClassError ClassFile :=
  match ClassFile.read.runOn data with
  | (.error e, _) => .error e
  | (.ok c, cursor) => do
    if !cursor.rest.isEmpty then throw (.badAttribute "trailing class data")
    c.checkNames
    return c

/-! ## Writing -/

/-- The bytes of an attribute. -/
def Attribute.encode (a : Attribute) : Bytes :=
  Bytes.ofUInt16 a.nameIndex ++ (Bytes.count32 a.info ++ a.info)

/-- The bytes of a list of attributes. -/
def Attribute.encodeAll (attributes : List Attribute) : Bytes :=
  Bytes.count16 attributes ++ attributes.flatMap Attribute.encode

/-- The bytes of a member. -/
def Member.encode (m : Member) : Bytes :=
  Bytes.ofUInt16 m.access.bits ++ (Bytes.ofUInt16 m.name ++ (Bytes.ofUInt16 m.descriptor ++
    Attribute.encodeAll m.attributes))

/-- The bytes of a list of members. -/
def Member.encodeAll (members : List Member) : Bytes :=
  Bytes.count16 members ++ members.flatMap Member.encode

/-- The bytes of a class file. -/
def ClassFile.encode (c : ClassFile) : Bytes :=
  Bytes.ofUInt32 ClassFile.magic ++ (Bytes.ofUInt16 c.minorVersion ++
    (Bytes.ofUInt16 c.majorVersion ++ (c.pool.encode ++ (Bytes.ofUInt16 c.access.bits ++
    (Bytes.ofUInt16 c.thisClass ++ (Bytes.ofUInt16 c.superClass ++
    (Bytes.count16 c.interfaces ++ (c.interfaces.flatMap Bytes.ofUInt16 ++
    (Member.encodeAll c.fields ++ (Member.encodeAll c.methods ++
    Attribute.encodeAll c.attributes))))))))))

end JarRemap
