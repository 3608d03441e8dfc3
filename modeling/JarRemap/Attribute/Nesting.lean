import JarRemap.Attribute.Format

/-!
# Attributes that hold attributes

Method bodies and record components.
-/

namespace JarRemap

/-! ## Method bodies -/

/-- A range of code and where exceptions that it throws are handled. -/
structure ExceptionHandler where
  start : UInt16
  stop : UInt16
  handler : UInt16
  /-- Zero for a handler of everything. -/
  catchType : UInt16
  deriving DecidableEq, Repr

/-- Reads one handler. -/
def ExceptionHandler.read : Reader ExceptionHandler := do
  let start ← Reader.u16
  let stop ← Reader.u16
  let handler ← Reader.u16
  let catchType ← Reader.u16
  return { start, stop, handler, catchType }

/-- The bytes of one handler. -/
def ExceptionHandler.encode (h : ExceptionHandler) : Bytes :=
  Bytes.ofUInt16 h.start ++ (Bytes.ofUInt16 h.stop ++ (Bytes.ofUInt16 h.handler ++
    Bytes.ofUInt16 h.catchType))

/-- The body of a method. Instructions are not looked into. -/
structure CodeBody where
  maxStack : UInt16
  maxLocals : UInt16
  code : Bytes
  handlers : List ExceptionHandler
  attributes : List Attribute
  deriving DecidableEq, Repr

/-- The body of a method. -/
def AttributeFormat.code : AttributeFormat CodeBody where
  name := "Code"
  read pool := do
    let maxStack ← Reader.u16
    let maxLocals ← Reader.u16
    let length ← Reader.u32
    let code ← Reader.bytes length.toNat
    let handlers ← Reader.rows16 ExceptionHandler.read
    let attributes ← Attribute.readAll pool
    return { maxStack, maxLocals, code, handlers, attributes }
  encode body :=
    Bytes.ofUInt16 body.maxStack ++ (Bytes.ofUInt16 body.maxLocals ++
      (Bytes.count32 body.code ++ (body.code ++ (Bytes.count16 body.handlers ++
      (body.handlers.flatMap ExceptionHandler.encode ++ Attribute.encodeAll body.attributes)))))

/-! ## Record components -/

/-- A component of a record. -/
structure RecordComponent where
  name : UInt16
  descriptor : UInt16
  attributes : List Attribute
  deriving DecidableEq, Repr

/-- Reads one component. -/
def RecordComponent.read (pool : ConstantPool) : Reader RecordComponent := do
  let name ← Reader.u16
  let descriptor ← Reader.u16
  let attributes ← Attribute.readAll pool
  return { name, descriptor, attributes }

/-- The bytes of one component. -/
def RecordComponent.encode (c : RecordComponent) : Bytes :=
  Bytes.ofUInt16 c.name ++ (Bytes.ofUInt16 c.descriptor ++ Attribute.encodeAll c.attributes)

/-- The components of a record. -/
def AttributeFormat.recordComponents : AttributeFormat (List RecordComponent) where
  name := "Record"
  read pool := Reader.rows16 (RecordComponent.read pool)
  encode rows := Bytes.count16 rows ++ rows.flatMap RecordComponent.encode

end JarRemap
