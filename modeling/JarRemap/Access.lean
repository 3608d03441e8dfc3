/-!
# Access flags

The sixteen access and property bits of classes, fields, methods and nested-class rows. Some bits
mean different things in different places; `AccessFlags.names` lists each under its first meaning.
-/

namespace JarRemap

/-- A set of access flags, as the bits of its field. -/
structure AccessFlags where
  bits : UInt16
  deriving DecidableEq, Repr

namespace AccessFlags

/-- Only the declaring class may use the member. -/
def privateFlag : AccessFlags := ⟨0x0002⟩

/-- The member belongs to the class and not to its instances. -/
def staticFlag : AccessFlags := ⟨0x0008⟩

/-- The member is assigned or defined once. -/
def finalFlag : AccessFlags := ⟨0x0010⟩

/-- The method is implemented outside the class file. -/
def nativeFlag : AccessFlags := ⟨0x0100⟩

/-- The class is an interface. -/
def interfaceFlag : AccessFlags := ⟨0x0200⟩

/-- The class or method is not complete. -/
def abstractFlag : AccessFlags := ⟨0x0400⟩

/-- The three bits that say who may use something. -/
def visibility : AccessFlags := ⟨0x0007⟩

/-- The names of the flags, in the order of their bits. -/
def names : List String :=
  ["PUBLIC", "PRIVATE", "PROTECTED", "STATIC", "FINAL", "SUPER", "VOLATILE", "TRANSIENT", "NATIVE",
   "INTERFACE", "ABSTRACT", "STRICT", "SYNTHETIC", "ANNOTATION", "ENUM", "MODULE"]

/-- Whether every flag of `other` is set. -/
def contains (flags other : AccessFlags) : Bool :=
  flags.bits &&& other.bits == other.bits

/-- Whether some flag of `other` is set. -/
def intersects (flags other : AccessFlags) : Bool :=
  flags.bits &&& other.bits != 0

/-- The same flags with the visibility bits replaced by all bits of `new`. -/
def withVisibility (flags new : AccessFlags) : AccessFlags :=
  ⟨(flags.bits &&& ~~~visibility.bits) ||| new.bits⟩

/-- The names of the flags that are set, with a bar between them. -/
def text (flags : AccessFlags) : String :=
  let isSet := fun (i : Nat) => flags.bits.toNat.testBit i
  " | ".intercalate ((names.zipIdx.filter fun (_, i) => isSet i).map Prod.fst)

end AccessFlags

end JarRemap
