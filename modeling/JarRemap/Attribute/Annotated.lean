import JarRemap.Attribute.Format

/-!
# Annotations

An annotation has named elements, and the value of an element may be an annotation again or an array
of values. Every value takes at least the byte of its tag, so the number of bytes ahead bounds the
depth to which reading can go.
-/

namespace JarRemap

mutual

/-- The use of an annotation: the slot of its type, and its elements. -/
inductive AnnotationUse where
  | mk (type : UInt16) (elements : List ElementPair)

/-- A named element. -/
inductive ElementPair where
  | mk (name : UInt16) (value : ElementValue)

/-- The value of an element. -/
inductive ElementValue where
  /-- A number, a character, a truth value or a text. -/
  | constant (tag : UInt8) (value : UInt16)
  | enumConstant (typeName constantName : UInt16)
  /-- A class, by the descriptor of its type. -/
  | classLiteral (descriptor : UInt16)
  | nested (use : AnnotationUse)
  | array (values : List ElementValue)

end

instance : Inhabited ElementValue := ⟨.constant 0 0⟩

instance : Inhabited AnnotationUse := ⟨.mk 0 []⟩

/-- The slot of the type of an annotation. -/
def AnnotationUse.type : AnnotationUse → UInt16
  | .mk type _ => type

/-- The elements of an annotation. -/
def AnnotationUse.elements : AnnotationUse → List ElementPair
  | .mk _ elements => elements

/-! ## Reading -/

/-- Whether a tag is that of a constant: one of `BCDFIJSZ` or `s`. -/
def ElementValue.isConstantTag (tag : UInt8) : Bool :=
  [0x42, 0x43, 0x44, 0x46, 0x49, 0x4a, 0x53, 0x5a, 0x73].contains tag

/-- Reads a named element whose value `value` reads. -/
def ElementPair.readWith (value : Reader ElementValue) : Reader ElementPair := do
  let name ← Reader.u16
  let value ← value
  return .mk name value

/-- Reads an annotation whose values `value` reads. -/
def AnnotationUse.readWith (value : Reader ElementValue) : Reader AnnotationUse := do
  let type ← Reader.u16
  let elements ← Reader.rows16 (ElementPair.readWith value)
  return .mk type elements

/-- Reads a value that goes no deeper than the bound, which is at least the number of bytes
ahead. -/
def ElementValue.readWithin : Nat → Reader ElementValue
  | 0 => do throw (.truncated (← Reader.position))
  | depth + 1 => do
    let tag ← Reader.u8
    if ElementValue.isConstantTag tag then return .constant tag (← Reader.u16)
    else if tag = 0x65 then return .enumConstant (← Reader.u16) (← Reader.u16)
    else if tag = 0x63 then return .classLiteral (← Reader.u16)
    else if tag = 0x40 then
      return .nested (← AnnotationUse.readWith (ElementValue.readWithin depth))
    else if tag = 0x5b then return .array (← Reader.rows16 (ElementValue.readWithin depth))
    else throw (.badAttribute "element_value")

/-- Reads the value of an element. -/
def ElementValue.read : Reader ElementValue := do
  ElementValue.readWithin (← get).rest.length

/-- Reads a list of annotations whose values go no deeper than the bound. -/
def AnnotationUse.readListWithin (depth : Nat) : Reader (List AnnotationUse) :=
  Reader.rows16 (AnnotationUse.readWith (ElementValue.readWithin depth))

/-! ## Writing

Parts are written in front of a rest, so that what is nested deeply is not copied at every level.
-/

mutual

/-- The bytes of an annotation in front of `rest`. -/
def AnnotationUse.spell : AnnotationUse → Bytes → Bytes
  | .mk type elements, rest =>
    Bytes.ofUInt16 type ++ (Bytes.count16 elements ++ ElementPair.spellAll elements rest)

/-- The bytes of a named element in front of `rest`. -/
def ElementPair.spell : ElementPair → Bytes → Bytes
  | .mk name value, rest => Bytes.ofUInt16 name ++ value.spell rest

/-- The bytes of named elements in front of `rest`. -/
def ElementPair.spellAll : List ElementPair → Bytes → Bytes
  | [], rest => rest
  | e :: more, rest => e.spell (ElementPair.spellAll more rest)

/-- The bytes of a value in front of `rest`. -/
def ElementValue.spell : ElementValue → Bytes → Bytes
  | .constant tag value, rest => tag :: (Bytes.ofUInt16 value ++ rest)
  | .enumConstant typeName constantName, rest =>
    0x65 :: (Bytes.ofUInt16 typeName ++ (Bytes.ofUInt16 constantName ++ rest))
  | .classLiteral descriptor, rest => 0x63 :: (Bytes.ofUInt16 descriptor ++ rest)
  | .nested use, rest => 0x40 :: use.spell rest
  | .array values, rest => 0x5b :: (Bytes.count16 values ++ ElementValue.spellAll values rest)

/-- The bytes of values in front of `rest`. -/
def ElementValue.spellAll : List ElementValue → Bytes → Bytes
  | [], rest => rest
  | v :: more, rest => v.spell (ElementValue.spellAll more rest)

end

/-- The bytes of an annotation. -/
def AnnotationUse.encode (use : AnnotationUse) : Bytes :=
  use.spell []

/-- The bytes of the value of an element. -/
def ElementValue.encode (value : ElementValue) : Bytes :=
  value.spell []

/-! ## The attributes -/

/-- The default value of an element. -/
def AttributeFormat.annotationDefault : AttributeFormat ElementValue where
  name := "AnnotationDefault"
  read _ := ElementValue.read
  encode := ElementValue.encode

namespace AnnotationUse

/-- Reads a list of annotations. -/
def readList : Reader (List AnnotationUse) := do
  readListWithin (← get).rest.length

/-- Reads the lists of annotations of some parameters. -/
def readLists : Reader (List (List AnnotationUse)) := do
  let depth := (← get).rest.length
  Reader.rows8 (readListWithin depth)

/-- The bytes of a list of annotations. -/
def encodeList (uses : List AnnotationUse) : Bytes :=
  Bytes.count16 uses ++ uses.flatMap AnnotationUse.encode

/-- The attributes that hold the annotations of a declaration. -/
def attributeNames : List String :=
  ["RuntimeVisibleAnnotations", "RuntimeInvisibleAnnotations"]

/-- Reads the annotations of a declaration, visible or not. A body that is cut off reports where. -/
def parse (info : Bytes) : Except ClassError (List AnnotationUse) :=
  Reader.whole "RuntimeVisibleAnnotations" readList info

/-- The attributes that hold the annotations of parameters. -/
def parameterAttributeNames : List String :=
  ["RuntimeVisibleParameterAnnotations", "RuntimeInvisibleParameterAnnotations"]

/-- Reads the annotations of each parameter, visible or not. A body that is cut off reports
where. -/
def parseForParameters (info : Bytes) : Except ClassError (List (List AnnotationUse)) :=
  Reader.whole "RuntimeVisibleParameterAnnotations" readLists info

/-- The bytes of the annotations of each parameter. Parameters are counted in one byte. -/
def encodeForParameters (params : List (List AnnotationUse)) : Bytes :=
  Bytes.count8 params ++ params.flatMap encodeList

end AnnotationUse

end JarRemap
