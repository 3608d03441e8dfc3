import JarRemap.Text.Split

/-!
# Descriptors

The type of a field, and the parameter and return types of a method, as class files write them:
`[[I`, `La/B;`, `(ILa/B;)V`. This module holds the types and their written form; reading is in
`JarRemap.Descriptor.Parser`.
-/

namespace JarRemap

/-! ## Types -/

/-- A primitive type. -/
inductive Primitive where
  | byte
  | char
  | double
  | float
  | int
  | long
  | short
  | boolean
  deriving DecidableEq, Repr

/-- The letter of a primitive type. -/
def Primitive.letter : Primitive → Char
  | .byte => 'B'
  | .char => 'C'
  | .double => 'D'
  | .float => 'F'
  | .int => 'I'
  | .long => 'J'
  | .short => 'S'
  | .boolean => 'Z'

/-- The primitive type with this letter. -/
def Primitive.ofLetter? : Char → Option Primitive
  | 'B' => some .byte
  | 'C' => some .char
  | 'D' => some .double
  | 'F' => some .float
  | 'I' => some .int
  | 'J' => some .long
  | 'S' => some .short
  | 'Z' => some .boolean
  | _ => none

/-- What an array holds in the end, or the type itself when it is no array. -/
inductive BaseType where
  | primitive (p : Primitive)
  /-- A class by its binary name, `a/b/C`. -/
  | object (name : String)
  deriving DecidableEq, Repr

/-- A field type: a base type under up to 255 array dimensions. -/
structure FieldType where
  dimensions : UInt8
  base : BaseType
  deriving DecidableEq, Repr

/-- The type of a method. A method that returns nothing has no return type. -/
structure MethodDescriptor where
  params : List FieldType
  ret : Option FieldType
  deriving DecidableEq, Repr

/-! ## Written form -/

/-- The written form of a base type. -/
def BaseType.chars : BaseType → List Char
  | .primitive p => [p.letter]
  | .object name => 'L' :: (name.toList ++ [';'])

/-- The written form of a field type. -/
def FieldType.chars (t : FieldType) : List Char :=
  List.replicate t.dimensions.toNat '[' ++ t.base.chars

/-- The written form of a method descriptor. -/
def MethodDescriptor.chars (d : MethodDescriptor) : List Char :=
  '(' :: (d.params.flatMap FieldType.chars ++
    ')' :: (d.ret.map FieldType.chars).getD ['V'])

/-- The descriptor of a field type. -/
def FieldType.text (t : FieldType) : String :=
  String.ofList t.chars

/-- The text of a method descriptor. -/
def MethodDescriptor.text (d : MethodDescriptor) : String :=
  String.ofList d.chars

/-! ## Local-variable slots -/

/-- How many slots a value of this type takes up. -/
def FieldType.slotSize (t : FieldType) : Nat :=
  match t.dimensions, t.base with
  | 0, .primitive .long | 0, .primitive .double => 2
  | _, _ => 1

/-- How many slots the parameters take up, the receiver not counted. The sum is one of 16 bits and
wraps around. -/
def MethodDescriptor.paramSlots (d : MethodDescriptor) : Nat :=
  (d.params.foldl (fun slots t => slots + UInt16.ofNat t.slotSize) (0 : UInt16)).toNat

/-- The slots that values of these types get from `first` on, numbered in 16 bits that wrap
around. -/
def slotsFrom (first : UInt16) : List FieldType → List UInt16
  | [] => []
  | t :: rest => first :: slotsFrom (first + UInt16.ofNat t.slotSize) rest

/-- The number of the slot of each parameter. Slot zero holds the receiver unless the method is
static. -/
def MethodDescriptor.paramSlotIndices (d : MethodDescriptor) (isStatic : Bool) : List Nat :=
  (slotsFrom (if isStatic then 0 else 1) d.params).map UInt16.toNat

/-! ## Parts -/

/-- Whether the type is an array. -/
def FieldType.isArray (t : FieldType) : Bool :=
  0 < t.dimensions

/-- The name of the type as a class entry of the pool holds it: the name of a class, else the
descriptor. -/
def FieldType.internalName (t : FieldType) : String :=
  match t.base, t.dimensions with
  | .object name, 0 => name
  | _, _ => t.text

/-- The type without its array dimensions. -/
def FieldType.element (t : FieldType) : FieldType :=
  { t with dimensions := 0 }

/-! ## Renaming -/

/-- The class a base type names, if it names one. -/
def BaseType.className? : BaseType → Option String
  | .primitive _ => none
  | .object name => some name

/-- Renames the class of a base type. -/
def BaseType.rename (f : String → String) : BaseType → BaseType
  | .primitive p => .primitive p
  | .object name => .object (f name)

/-- Renames the class of a field type. -/
def FieldType.rename (f : String → String) (t : FieldType) : FieldType :=
  { t with base := t.base.rename f }

/-- Renames every class in a method descriptor. -/
def MethodDescriptor.rename (f : String → String) (d : MethodDescriptor) : MethodDescriptor :=
  { params := d.params.map (FieldType.rename f), ret := d.ret.map (FieldType.rename f) }

/-! The same, where the new names are asked for one by one. -/

section

variable {m : Type → Type} [Monad m]

/-- Renames the class of a base type to the answer of `f`. -/
def BaseType.renameWith (f : String → m String) : BaseType → m BaseType
  | .primitive p => return .primitive p
  | .object name => return .object (← f name)

/-- Renames the class of a field type to the answer of `f`. -/
def FieldType.renameWith (f : String → m String) (t : FieldType) : m FieldType := do
  return { t with base := ← t.base.renameWith f }

/-- Renames the classes in a method descriptor to the answers of `f`. -/
def MethodDescriptor.renameWith (f : String → m String) (d : MethodDescriptor) :
    m MethodDescriptor := do
  let params ← d.params.mapM (FieldType.renameWith f)
  let ret ← d.ret.mapM (FieldType.renameWith f)
  return { params, ret }

end

/-- The classes that a method descriptor names, from left to right. -/
def MethodDescriptor.classNames (d : MethodDescriptor) : List String :=
  (d.params ++ d.ret.toList).filterMap fun t => t.base.className?

/-- A descriptor of either kind. -/
inductive Descriptor where
  | field (t : FieldType)
  | method (d : MethodDescriptor)
  deriving DecidableEq, Repr

namespace Descriptor

/-- The text of a descriptor. -/
def text : Descriptor → String
  | .field t => t.text
  | .method d => d.text

/-- Renames every class in a descriptor. -/
def rename (f : String → String) : Descriptor → Descriptor
  | .field t => .field (t.rename f)
  | .method d => .method (d.rename f)

/-- Renames the classes in a descriptor to the answers of `f`. -/
def renameWith {m : Type → Type} [Monad m] (f : String → m String) : Descriptor → m Descriptor
  | .field t => return .field (← t.renameWith f)
  | .method d => return .method (← d.renameWith f)

/-- The classes that a descriptor names, from left to right. -/
def classNames : Descriptor → List String
  | .field t => t.base.className?.toList
  | .method d => d.classNames

end Descriptor

end JarRemap
