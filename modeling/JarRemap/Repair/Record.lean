import JarRemap.Attribute.Nesting
import JarRemap.Hierarchy.ClassPath
import JarRemap.Repair.Basic

/-!
# Records

Shrinkers drop the list of components and the generic signature of records. Both follow from what is
left: the components from the final instance fields, and the type parameters from the type variables
that the signatures of the members use.

A type variable is bounded by the class that stands in its place in a descriptor, where the variable
is the whole type of something or what an array of it holds. Of several such places the first one
counts; a variable that occurs only inside of other types is bounded by nothing.
-/

namespace JarRemap

/-- The superclass of every record. -/
def recordName : String := "java/lang/Record"

/-- The class that bounds every type. -/
def objectName : String := "java/lang/Object"

/-- Which parts of a record are repaired. -/
structure RecordParts where
  components : Bool
  signature : Bool
  deriving DecidableEq, Repr

/-! ## Components -/

/-- Whether a field may be that of a component. -/
def isComponentField (field : Member) : Bool :=
  field.access.contains .finalFlag && !field.access.contains .staticFlag

/-- The fields of components with whether each one is the first of its name and descriptor. Those
met before are in `seen`. -/
def markComponents (pool : ConstantPool) (seen : List (String × String)) :
    List Member → Except ClassError (List (Member × Bool))
  | [] => .ok []
  | field :: rest => do
    if isComponentField field then
      let key := (← pool.text field.name, ← pool.text field.descriptor)
      if seen.contains key then return (field, false) :: (← markComponents pool seen rest)
      return (field, true) :: (← markComponents pool (key :: seen) rest)
    else return (field, false) :: (← markComponents pool seen rest)

/-- The component that a field belongs to. -/
def RecordComponent.ofField (field : Member) : RecordComponent :=
  { name := field.name, descriptor := field.descriptor,
    attributes := (findAttribute? signatureName field.attributes).toList }

/-- The field with nothing but private use. -/
def Member.makePrivate (field : Member) : Member :=
  { field with access := field.access.withVisibility .privateFlag }

/-- Gives the class the components that its fields stand for, if there are any, and makes these
fields private. -/
def repairComponents : RepairEdit Bool := do
  let c ← get
  let marked ← orFail .classFile (markComponents c.pool [] c.fields)
  if !marked.any (·.2) then return false
  let components := (marked.filter (·.2)).map fun (field, _) => RecordComponent.ofField field
  let fields := marked.map fun (field, isFirst) => if isFirst then field.makePrivate else field
  modify fun c => { c with fields }
  RepairEdit.edit do
    let a ← ClassEdit.makeAttribute AttributeFormat.recordComponents.name
      (AttributeFormat.recordComponents.encode components)
    ClassEdit.setClassAttribute a
  return true

/-! ## Type variables -/

/-- The type variables met so far in order, each with the class that bounds it if that is known. -/
abbrev VariableBounds := List (String × Option String)

/-- Notes a type variable and a class that may bound it. The first known bound stays. -/
def noteVariable (declared : List String) (name : String) (bound : Option String)
    (bounds : VariableBounds) : VariableBounds :=
  if declared.contains name then bounds
  else
    upsert (·.1 == name) (fun (name, known) => (name, known.or bound)) (name, bound) bounds

mutual

/-- Notes the type variables inside of a type. Those in `declared` belong to a method. -/
def noteInside (declared : List String) : TypeSignature → VariableBounds → VariableBounds
  | .primitive _, bounds => bounds
  | .typeVariable name, bounds => noteVariable declared name none bounds
  | .array element, bounds => noteInside declared element bounds
  | .classType c, bounds => noteInClass declared c bounds

/-- Notes the type variables in the arguments of a class type. -/
def noteInClass (declared : List String) : ClassType → VariableBounds → VariableBounds
  | .mk outer inner, bounds => noteInSegments declared inner (noteInSegment declared outer bounds)

/-- Notes the type variables in the arguments of a segment. -/
def noteInSegment (declared : List String) : ClassSegment → VariableBounds → VariableBounds
  | .mk _ args, bounds => noteInArguments declared args bounds

/-- Notes the type variables in the arguments of segments. -/
def noteInSegments (declared : List String) : List ClassSegment → VariableBounds → VariableBounds
  | [], bounds => bounds
  | s :: more, bounds => noteInSegments declared more (noteInSegment declared s bounds)

/-- Notes the type variables in a type argument. -/
def noteInArgument (declared : List String) : TypeArgument → VariableBounds → VariableBounds
  | .any, bounds => bounds
  | .bounded _ t, bounds => noteInside declared t bounds

/-- Notes the type variables in type arguments. -/
def noteInArguments (declared : List String) : List TypeArgument → VariableBounds → VariableBounds
  | [], bounds => bounds
  | a :: more, bounds => noteInArguments declared more (noteInArgument declared a bounds)

end

/-- The class that an erased type gives as a bound. A primitive type gives none. -/
def boundOf (erased : FieldType) : Option String :=
  match erased.base, erased.dimensions with
  | .primitive _, 0 => none
  | _, _ => some erased.internalName

/-- What an array type holds. -/
def elementOf (erased : FieldType) : Option FieldType :=
  if erased.isArray then some { erased with dimensions := erased.dimensions - 1 } else none

/-- Notes the type variables of a whole type, beside which stands its erasure. -/
def noteWhole (declared : List String) :
    TypeSignature → Option FieldType → VariableBounds → VariableBounds
  | .primitive _, _, bounds => bounds
  | .typeVariable name, erased, bounds => noteVariable declared name (erased.bind boundOf) bounds
  | .array element, erased, bounds => noteWhole declared element (erased.bind elementOf) bounds
  | .classType c, _, bounds => noteInClass declared c bounds

/-- Notes the type variables of a field. -/
def noteField (signature descriptor : String) (bounds : VariableBounds) :
    Except TransformError VariableBounds := do
  let type ← (TypeSignature.parse signature).mapError .signature
  let erased ← (FieldType.parse descriptor).mapError .descriptor
  return noteWhole [] type (some erased) bounds

/-- Notes the type variables of whole types with their erasures, as far as there are any. -/
def noteAll (declared : List String) : List TypeSignature → List FieldType → VariableBounds →
    VariableBounds
  | [], _, bounds => bounds
  | t :: types, erased, bounds =>
    noteAll declared types erased.tail (noteWhole declared t erased.head? bounds)

/-- Notes the type variables of a method, those that it declares itself apart. -/
def noteMethod (signature descriptor : String) (bounds : VariableBounds) :
    Except TransformError VariableBounds := do
  let type ← (MethodSignature.parse signature).mapError .signature
  let erased ← (MethodDescriptor.parse descriptor).mapError .descriptor
  let declared := type.typeParams.map (·.name)
  let formal := type.typeParams.flatMap fun p => p.classBound.toList ++ p.interfaceBounds
  let bounds := formal.foldl (fun bounds t => noteInside declared t bounds) bounds
  let bounds := noteAll declared type.params erased.params bounds
  let bounds :=
    match type.ret with
    | some t => noteWhole declared t erased.ret bounds
    | none => bounds
  return type.throws.foldl (fun bounds t => noteInside declared t bounds) bounds

/-! ## The signature -/

/-- Notes the type variables of something with attributes and a descriptor, if it has a
signature. -/
def noteSignature (pool : ConstantPool)
    (note : String → String → VariableBounds → Except TransformError VariableBounds)
    (attributes : List Attribute) (descriptor : UInt16) (bounds : VariableBounds) :
    Except TransformError VariableBounds := do
  match ← (signatureAmong pool attributes).mapError .classFile with
  | none => return bounds
  | some signature =>
    let descriptor ← (pool.text descriptor).mapError .classFile
    note signature descriptor bounds

/-- The type variables that a class uses: in its record components, its fields and its methods, in
this order. -/
def ClassFile.variableBounds (c : ClassFile) : Except TransformError VariableBounds := do
  let components ←
    (AttributeFormat.recordComponents.parseAmong c.pool c.attributes).mapError .classFile
  let bounds ← (components.getD []).foldlM
    (fun bounds r => noteSignature c.pool noteField r.attributes r.descriptor bounds) []
  let bounds ← c.fields.foldlM
    (fun bounds f => noteSignature c.pool noteField f.attributes f.descriptor bounds) bounds
  c.methods.foldlM
    (fun bounds m => noteSignature c.pool noteMethod m.attributes m.descriptor bounds) bounds

/-- The type parameter for a type variable, with the class that bounds it and whether this is an
interface. -/
def TypeParameter.ofBound (name : String) : Option (String × Bool) → TypeParameter
  | some (bound, true) =>
    { name, classBound := none, interfaceBounds := [.classType (.simple bound)] }
  | some (bound, false) =>
    { name, classBound := some (.classType (.simple bound)), interfaceBounds := [] }
  | none =>
    { name, classBound := some (.classType (.simple objectName)), interfaceBounds := [] }

/-- The signature of a record with these type parameters and interfaces. -/
def ClassSignature.ofRecord (typeParams : List TypeParameter) (interfaces : List String) :
    ClassSignature :=
  { typeParams, superclass := .simple recordName, interfaces := interfaces.map .simple }

section

variable {m : Type → Type} [Monad m] (find : String → m (Option ClassShape))

/-- The type parameter for a type variable. A bound that cannot be found is none. -/
def typeParameterFor (name : String) : Option String → m TypeParameter
  | none => return .ofBound name none
  | some bound => do
    let found ← find bound
    return .ofBound name (found.map fun c => (bound, c.isInterface))

/-- Gives the class a signature that declares the type variables that it uses, if there are any. -/
def repairRecordSignature : RepairEditOver m Bool := do
  let c ← get
  let bounds ← orFail id c.variableBounds
  if bounds.isEmpty then return false
  let typeParams ← liftM (bounds.mapM fun (name, bound) => typeParameterFor find name bound)
  let interfaces ← orFail .classFile c.interfaceNames
  RepairEdit.unaided <| RepairEdit.edit do
    let signature := ClassSignature.ofRecord typeParams interfaces
    let a ← ClassEdit.makeTextAttribute signatureName signature.text
    ClassEdit.setClassAttribute a
  return true

end

/-! ## The record -/

/-- Gives the class its components, unless it has some. -/
def restoreComponents : RepairEdit Bool := do
  let c ← get
  let components ← orFail .classFile
    (AttributeFormat.recordComponents.parseAmong c.pool c.attributes)
  if (components.getD []).isEmpty then repairComponents else return false

section

variable {m : Type → Type} [Monad m] (find : String → m (Option ClassShape))

/-- Gives the class its signature, unless it has one. -/
def restoreSignature : RepairEditOver m Bool := do
  let c ← get
  let signature ← orFail .classFile c.signature
  if signature.isNone then repairRecordSignature find else return false

/-- Repairs the given parts of a class that is a record. -/
def repairRecord (parts : RecordParts) : RepairEditOver m Bool := do
  let c ← get
  let superName ← orFail .classFile c.superName
  if superName ≠ some recordName then return false
  let first ← RepairEdit.ifChosen parts.components restoreComponents.unaided
  let second ← RepairEdit.ifChosen parts.signature (restoreSignature find)
  return first || second

end

end JarRemap
