import JarRemap.Attribute.Nesting
import JarRemap.Attribute.Table
import JarRemap.Repair.Basic
import JarRemap.Text.Letter

/-!
# Names of local variables

Obfuscated classes name local variables in ways that a compiler refuses. The repair gives every such
variable a new name made of its slot and a counter. Within one method body, rows of both tables that
begin at the same instruction in the same slot are the same variable and get the same name.
-/

namespace JarRemap

/-! ## Identifiers -/

/-- The words that are no identifiers, the receiver apart. -/
def keywords : List String :=
  ["_", "abstract", "assert", "boolean", "break", "byte", "case", "catch", "char", "class", "const",
   "continue", "default", "do", "double", "else", "enum", "extends", "false", "final", "finally",
   "float", "for", "goto", "if", "implements", "import", "instanceof", "int", "interface", "long",
   "native", "new", "null", "package", "private", "protected", "public", "return", "short",
   "static", "strictfp", "super", "switch", "synchronized", "throw", "throws", "transient",
   "true", "try", "void", "volatile", "while"]

/-- Whether an identifier may begin with a character. -/
def isIdentifierStart (c : Char) : Bool :=
  Text.isLetter c || c == '$' || c == '_'

/-- Whether an identifier may go on with a character. -/
def isIdentifierPart (c : Char) : Bool :=
  isIdentifierStart c || Text.isNumeric c

/-- Whether a name is an identifier. -/
def isIdentifier (name : String) : Bool :=
  match name.toList with
  | [] => false
  | c :: rest => isIdentifierStart c && rest.all isIdentifierPart && !keywords.contains name

/-- Which names of local variables are replaced. -/
inductive IdentifierScope where
  /-- All that are no identifiers. -/
  | all
  /-- Only the snowman, which some obfuscators use throughout. -/
  | snowmen
  deriving DecidableEq, Repr

/-- The name that `IdentifierScope.snowmen` is about. -/
def snowman : String := "\u2603"

/-- Whether a name is replaced. -/
def IdentifierScope.offends (scope : IdentifierScope) (name : String) : Bool :=
  match scope with
  | .all => !isIdentifier name
  | .snowmen => name == snowman

/-! ## One method body -/

/-- The names given so far in a method body, by slot and first instruction. -/
abbrev GivenNames := List ((UInt16 × UInt16) × String)

/-- A computation that renames the variables of a method body. -/
abbrev NameEdit := ExceptT TransformError (StateM (ConstantPool × GivenNames))

namespace NameEdit

/-- Reads from the pool. -/
def read {α : Type} (f : ConstantPool → Except ClassError α) : NameEdit α := fun s =>
  ((f s.1).mapError .classFile, s)

/-- The slot of a text. -/
def putText (text : String) : NameEdit UInt16 := fun (pool, given) =>
  match PoolEdit.putText text pool with
  | (outcome, pool) => (outcome.mapError .classFile, (pool, given))

/-- The name for the variable with this slot and first instruction. The counter is the number of
names given before. -/
def nameFor (key : UInt16 × UInt16) : NameEdit String := do
  let (pool, given) ← get
  match given.lookup key with
  | some name => return name
  | none =>
    let name := s!"lvt_{key.1}_{given.length}_"
    set (pool, (key, name) :: given)
    return name

end NameEdit

/-- Renames a variable if its name offends, and says whether it did. -/
def repairVariable (scope : IdentifierScope) (v : LocalVariable) :
    NameEdit (LocalVariable × Bool) := do
  let old ← NameEdit.read (·.text v.name)
  if !scope.offends old then return (v, false)
  let new ← NameEdit.nameFor (v.slot, v.start)
  let name ← NameEdit.putText new
  return ({ v with name }, true)

/-- Repairs a local-variable table in the given format, and says whether it changed. -/
def repairVariables (scope : IdentifierScope) (format : AttributeFormat (List LocalVariable))
    (a : Attribute) : NameEdit (Attribute × Bool) := do
  let rows ← NameEdit.read (format.parse · a.info)
  let repaired ← rows.mapM (repairVariable scope)
  if repaired.any (·.2) then return ({ a with info := format.encode (repaired.map (·.1)) }, true)
  return (a, false)

/-- Repairs an attribute of a method body, and says whether it changed. -/
def repairCodeAttribute (scope : IdentifierScope) (a : Attribute) : NameEdit (Attribute × Bool) :=
  if a.name = AttributeFormat.localVariables.name then
    repairVariables scope .localVariables a
  else if a.name = AttributeFormat.localVariableTypes.name then
    repairVariables scope .localVariableTypes a
  else return (a, false)

/-- The repaired form of a method body, if it changes. -/
def repairCode (scope : IdentifierScope) (info : Bytes) : NameEdit (Option Bytes) := do
  let body ← NameEdit.read (AttributeFormat.code.parse · info)
  let repaired ← body.attributes.mapM (repairCodeAttribute scope)
  if repaired.any (·.2) then
    return some (AttributeFormat.code.encode { body with attributes := repaired.map (·.1) })
  return none

/-! ## The class -/

/-- Repairs an attribute of a method if it is a body. The state is the pool and whether anything
has changed. -/
def repairMethodAttribute (scope : IdentifierScope) (a : Attribute) :
    StateM (ConstantPool × Bool) (Attribute × Option TransformError) := fun (pool, changed) =>
  if a.name = AttributeFormat.code.name then
    match repairCode scope a.info (pool, []) with
    | (.error e, (pool, _)) => ((a, some e), (pool, changed))
    | (.ok none, (pool, _)) => ((a, none), (pool, changed))
    | (.ok (some info), (pool, _)) => (({ a with info }, none), (pool, true))
  else ((a, none), (pool, changed))

/-- Repairs a method. -/
def repairMethod (scope : IdentifierScope) (method : Member) :
    StateM (ConstantPool × Bool) (Member × Option TransformError) := do
  let (attributes, failure) ← repairEach (repairMethodAttribute scope) method.attributes
  return ({ method with attributes }, failure)

/-- Gives every local variable with an offending name a new one. -/
def repairIdentifiers (scope : IdentifierScope) : RepairEdit Bool := fun c =>
  match (repairEach (repairMethod scope) c.methods).run (c.pool, false) with
  | ((methods, failure), (pool, changed)) =>
    let c := { c with methods, pool }
    match failure with
    | some e => (.error e, c)
    | none => (.ok changed, c)

end JarRemap
