import JarRemap.Signature.Basic

/-!
# Renaming in signatures

A class type of several segments means a class for each of them: the outermost one, and for every
nested one the binary name that leads to it. Each of these binary names is mapped as a whole, and
the simple name of a nested class is then what its mapped name adds to that of the class around it.

`Signature.classNames` lists the binary names that a signature mentions, in the order in which
`Signature.rename` maps them: the arguments of a segment before the class that the segment ends at.
-/

namespace JarRemap

/-- The simple name of a nested class, from the mapped names of the class around it and its own:
what follows the former and a `$`, or else what follows the last `$`. -/
def simpleNameWithin (outer nested : String) : String :=
  match Text.afterStart? (outer ++ "$") nested with
  | some simple => simple
  | none =>
    match Text.splitLast? '$' nested with
    | some (_, simple) => simple
    | none => nested

/-! ## Renaming -/

mutual

/-- Renames every class in a type. -/
def TypeSignature.rename (f : String → String) : TypeSignature → TypeSignature
  | .primitive p => .primitive p
  | .typeVariable name => .typeVariable name
  | .array element => .array (element.rename f)
  | .classType c => .classType (c.rename f)

/-- Renames every class in a class type. -/
def ClassType.rename (f : String → String) : ClassType → ClassType
  | .mk (.mk name args) inner =>
    .mk (.mk (f name) (TypeArgument.renameAll f args)) (ClassSegment.renameInner f name inner)

/-- Renames the nested segments that follow the class `outer`. -/
def ClassSegment.renameInner (f : String → String) (outer : String) :
    List ClassSegment → List ClassSegment
  | [] => []
  | .mk name args :: more =>
    let nested := outer ++ "$" ++ name
    .mk (simpleNameWithin (f outer) (f nested)) (TypeArgument.renameAll f args) ::
      ClassSegment.renameInner f nested more

/-- Renames every class in a type argument. -/
def TypeArgument.rename (f : String → String) : TypeArgument → TypeArgument
  | .any => .any
  | .bounded bound t => .bounded bound (t.rename f)

/-- Renames every class in type arguments. -/
def TypeArgument.renameAll (f : String → String) : List TypeArgument → List TypeArgument
  | [] => []
  | a :: more => a.rename f :: TypeArgument.renameAll f more

end

/-- Renames every class in the bounds of a type parameter. -/
def TypeParameter.rename (f : String → String) (p : TypeParameter) : TypeParameter :=
  { p with
    classBound := p.classBound.map (TypeSignature.rename f)
    interfaceBounds := p.interfaceBounds.map (TypeSignature.rename f) }

/-- Renames every class in a class signature. -/
def ClassSignature.rename (f : String → String) (s : ClassSignature) : ClassSignature :=
  { typeParams := s.typeParams.map (TypeParameter.rename f)
    superclass := s.superclass.rename f
    interfaces := s.interfaces.map (ClassType.rename f) }

/-- Renames every class in a method signature. -/
def MethodSignature.rename (f : String → String) (s : MethodSignature) : MethodSignature :=
  { typeParams := s.typeParams.map (TypeParameter.rename f)
    params := s.params.map (TypeSignature.rename f)
    ret := s.ret.map (TypeSignature.rename f)
    throws := s.throws.map (TypeSignature.rename f) }

/-- Renames every class in a signature. -/
def Signature.rename (f : String → String) : Signature → Signature
  | .ofClass s => .ofClass (s.rename f)
  | .ofMethod s => .ofMethod (s.rename f)
  | .ofField t => .ofField (t.rename f)

/-! ## The classes mentioned -/

mutual

/-- The classes that a type mentions. -/
def TypeSignature.classNames : TypeSignature → List String
  | .primitive _ => []
  | .typeVariable _ => []
  | .array element => element.classNames
  | .classType c => c.classNames

/-- The classes that a class type mentions. -/
def ClassType.classNames : ClassType → List String
  | .mk (.mk name args) inner =>
    TypeArgument.classNamesAll args ++ name :: ClassSegment.classNamesInner name inner

/-- The classes that the nested segments after the class `outer` mention. -/
def ClassSegment.classNamesInner (outer : String) : List ClassSegment → List String
  | [] => []
  | .mk name args :: more =>
    let nested := outer ++ "$" ++ name
    TypeArgument.classNamesAll args ++ nested :: ClassSegment.classNamesInner nested more

/-- The classes that a type argument mentions. -/
def TypeArgument.classNames : TypeArgument → List String
  | .any => []
  | .bounded _ t => t.classNames

/-- The classes that type arguments mention. -/
def TypeArgument.classNamesAll : List TypeArgument → List String
  | [] => []
  | a :: more => a.classNames ++ TypeArgument.classNamesAll more

end

/-- The classes that the bounds of a type parameter mention. -/
def TypeParameter.classNames (p : TypeParameter) : List String :=
  (p.classBound.toList ++ p.interfaceBounds).flatMap TypeSignature.classNames

/-- The classes that a signature mentions. -/
def Signature.classNames : Signature → List String
  | .ofClass s =>
    s.typeParams.flatMap TypeParameter.classNames ++
      (s.superclass :: s.interfaces).flatMap ClassType.classNames
  | .ofMethod s =>
    s.typeParams.flatMap TypeParameter.classNames ++
      (s.params ++ s.ret.toList ++ s.throws).flatMap TypeSignature.classNames
  | .ofField t => t.classNames

end JarRemap
