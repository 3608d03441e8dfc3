import JarRemap.Descriptor.Basic

/-!
# Generic signatures

The trees behind `Signature` attributes. A class type names an outermost class and then, each with
its own arguments, the classes nested in it: `La/Outer<TT;>.Inner<*>;`.

## Written form

`TypeSignature.spell t rest` is the written form of `t` followed by `rest`, and likewise for the
other parts; writing in front of a rest is what reading takes apart.
-/

namespace JarRemap

/-! ## Trees -/

/-- How a type argument bounds its type. -/
inductive ArgumentBound where
  /-- The type itself. -/
  | exactly
  /-- The type or one below it, written `+`. -/
  | below
  /-- The type or one above it, written `-`. -/
  | above
  deriving DecidableEq, Repr

mutual

/-- A type. -/
inductive TypeSignature where
  | primitive (p : Primitive)
  | typeVariable (name : String)
  | array (element : TypeSignature)
  | classType (c : ClassType)

/-- A class type: the outermost class and the nested classes that lead to the one meant. -/
inductive ClassType where
  | mk (outer : ClassSegment) (inner : List ClassSegment)

/-- One class on the way, with its type arguments. -/
inductive ClassSegment where
  | mk (name : String) (args : List TypeArgument)

/-- A type argument. -/
inductive TypeArgument where
  /-- Any type, written `*`. -/
  | any
  | bounded (bound : ArgumentBound) (t : TypeSignature)

end

instance : Inhabited TypeSignature := ⟨.primitive .int⟩

/-- The name of a segment. The outermost one carries the package. -/
def ClassSegment.name : ClassSegment → String
  | .mk name _ => name

/-- The type arguments of a segment. -/
def ClassSegment.args : ClassSegment → List TypeArgument
  | .mk _ args => args

/-- The segments of a class type, outermost first. -/
def ClassType.segments : ClassType → List ClassSegment
  | .mk outer inner => outer :: inner

/-- A formal type parameter. -/
structure TypeParameter where
  name : String
  classBound : Option TypeSignature
  interfaceBounds : List TypeSignature

/-- The signature of a class. -/
structure ClassSignature where
  typeParams : List TypeParameter
  superclass : ClassType
  interfaces : List ClassType

/-- The signature of a method. -/
structure MethodSignature where
  typeParams : List TypeParameter
  params : List TypeSignature
  ret : Option TypeSignature
  throws : List TypeSignature

/-- Which of the three grammars a signature follows. The place of its attribute decides. -/
inductive SignatureKind where
  | ofClass
  | ofMethod
  | ofField
  deriving DecidableEq, Repr

/-- A signature of any kind. That of a field is a type. -/
inductive Signature where
  | ofClass (s : ClassSignature)
  | ofMethod (s : MethodSignature)
  | ofField (t : TypeSignature)

/-- The grammar that a signature follows. -/
def Signature.kind : Signature → SignatureKind
  | .ofClass _ => .ofClass
  | .ofMethod _ => .ofMethod
  | .ofField _ => .ofField

/-- The class type for a class that is neither nested nor generic. -/
def ClassType.simple (name : String) : ClassType :=
  .mk (.mk name []) []

/-- The binary name of the class that a class type means: its segments with `$` between them. -/
def ClassType.binaryName (c : ClassType) : String :=
  "$".intercalate (c.segments.map ClassSegment.name)

/-! ## Written form -/

/-- The mark of a bound in front of `rest`. -/
def ArgumentBound.spell (rest : List Char) : ArgumentBound → List Char
  | .exactly => rest
  | .below => '+' :: rest
  | .above => '-' :: rest

mutual

/-- The written form of a type in front of `rest`. -/
def TypeSignature.spell : TypeSignature → List Char → List Char
  | .primitive p, rest => p.letter :: rest
  | .typeVariable name, rest => 'T' :: (name.toList ++ ';' :: rest)
  | .array element, rest => '[' :: element.spell rest
  | .classType c, rest => c.spell rest

/-- The written form of a class type in front of `rest`. -/
def ClassType.spell : ClassType → List Char → List Char
  | .mk outer inner, rest => 'L' :: outer.spell (ClassSegment.spellInner inner (';' :: rest))

/-- The written form of a segment in front of `rest`. -/
def ClassSegment.spell : ClassSegment → List Char → List Char
  | .mk name args, rest =>
    name.toList ++
      (if args.isEmpty then rest else '<' :: TypeArgument.spellAll args ('>' :: rest))

/-- The nested segments of a class type in front of `rest`. -/
def ClassSegment.spellInner : List ClassSegment → List Char → List Char
  | [], rest => rest
  | s :: more, rest => '.' :: s.spell (ClassSegment.spellInner more rest)

/-- The written form of a type argument in front of `rest`. -/
def TypeArgument.spell : TypeArgument → List Char → List Char
  | .any, rest => '*' :: rest
  | .bounded bound t, rest => bound.spell (t.spell rest)

/-- Type arguments in front of `rest`. -/
def TypeArgument.spellAll : List TypeArgument → List Char → List Char
  | [], rest => rest
  | a :: more, rest => a.spell (TypeArgument.spellAll more rest)

end

/-- Interface bounds in front of `rest`, each after a colon. -/
def spellInterfaceBounds (bounds : List TypeSignature) (rest : List Char) : List Char :=
  bounds.foldr (fun t rest => ':' :: t.spell rest) rest

/-- The written form of a type parameter in front of `rest`. -/
def TypeParameter.spell (p : TypeParameter) (rest : List Char) : List Char :=
  let bounds := spellInterfaceBounds p.interfaceBounds rest
  p.name.toList ++ ':' :: ((p.classBound.map fun t => t.spell bounds).getD bounds)

/-- Type parameters in front of `rest`. Where there are none, nothing is written. -/
def TypeParameter.spellAll (params : List TypeParameter) (rest : List Char) : List Char :=
  if params.isEmpty then rest else '<' :: params.foldr TypeParameter.spell ('>' :: rest)

/-- The written form of a class signature. -/
def ClassSignature.chars (s : ClassSignature) : List Char :=
  TypeParameter.spellAll s.typeParams
    (s.superclass.spell (s.interfaces.foldr ClassType.spell []))

/-- The written form of a method signature. -/
def MethodSignature.chars (s : MethodSignature) : List Char :=
  let throws := s.throws.foldr (fun t rest => '^' :: t.spell rest) []
  let ret := (s.ret.map fun t => t.spell throws).getD ('V' :: throws)
  TypeParameter.spellAll s.typeParams ('(' :: s.params.foldr TypeSignature.spell (')' :: ret))

/-- The text of a class signature. -/
def ClassSignature.text (s : ClassSignature) : String :=
  String.ofList s.chars

/-- The text of a method signature. -/
def MethodSignature.text (s : MethodSignature) : String :=
  String.ofList s.chars

/-- The text of a type. -/
def TypeSignature.text (t : TypeSignature) : String :=
  String.ofList (t.spell [])

/-- The text of a signature. -/
def Signature.text : Signature → String
  | .ofClass s => s.text
  | .ofMethod s => s.text
  | .ofField t => t.text

end JarRemap
