import JarRemap.Repair.Identifier
import JarRemap.Repair.Record
import JarRemap.Repair.Source
import JarRemap.Text.Blank

/-!
# Choosing repairs

The repairs that a run can make, how a text chooses one, and how a chosen repair is made on a class
of an archive. Choices are written in ASCII letters of either case.
-/

namespace JarRemap

/-! ## Choices in text -/

/-- A text that chooses nothing, in lower case. -/
inductive ChoiceError where
  | recordPart (text : String)
  | sourceNaming (text : String)
  | identifierScope (text : String)
  deriving DecidableEq, Repr

/-- The text of an error. -/
def ChoiceError.message : ChoiceError → String
  | .recordPart text => s!"unknown record fix '{text}'"
  | .sourceNaming text => s!"unknown source fix mode '{text}'"
  | .identifierScope text => s!"unknown identifier fix mode '{text}'"

/-- The text with its ASCII letters in lower case. -/
def lowerCase (text : String) : String :=
  text.map Char.toLower

namespace RecordParts

/-- No part at all. -/
def nothing : RecordParts := ⟨false, false⟩

/-- Every part. -/
def everything : RecordParts := ⟨true, true⟩

/-- Adds the part with this name. -/
def addNamed (parts : RecordParts) (name : String) : Except ChoiceError RecordParts :=
  match lowerCase name with
  | "components" => .ok { parts with components := true }
  | "signature" => .ok { parts with signature := true }
  | other => .error (.recordPart other)

/-- The parts in a list with commas. Blanks around a name and empty names do not count. -/
def ofText (text : String) : Except ChoiceError RecordParts :=
  let names := (text.toList.splitOn ',').map Text.trim
  (names.filter (!·.isEmpty)).foldlM (fun parts name => parts.addNamed (String.ofList name)) nothing

/-- The names of the parts, with a bar between them. -/
def text (parts : RecordParts) : String :=
  " | ".intercalate
    ((if parts.components then ["COMPONENTS"] else []) ++
      (if parts.signature then ["SIGNATURE"] else []))

/-- The parts as the log shows them. -/
def logText (parts : RecordParts) : String :=
  if parts = nothing then "RecordFixFlags(0x0)" else s!"RecordFixFlags({parts.text})"

end RecordParts

namespace SourceNaming

/-- The naming with this name. -/
def ofText (text : String) : Except ChoiceError SourceNaming :=
  match lowerCase text with
  | "java" => .ok .outermost
  | "basic" => .ok .binaryName
  | other => .error (.sourceNaming other)

/-- The naming as the log shows it. -/
def logText : SourceNaming → String
  | .outermost => "Java"
  | .binaryName => "Basic"

end SourceNaming

namespace IdentifierScope

/-- The scope with this name. -/
def ofText (text : String) : Except ChoiceError IdentifierScope :=
  match lowerCase text with
  | "all" => .ok .all
  | "snowmen" => .ok .snowmen
  | other => .error (.identifierScope other)

/-- The scope as the log shows it. -/
def logText : IdentifierScope → String
  | .all => "All"
  | .snowmen => "Snowmen"

end IdentifierScope

/-! ## Repairs -/

/-- A chosen repair. -/
inductive Repair where
  | record (parts : RecordParts)
  | identifiers (scope : IdentifierScope)
  | source (naming : SourceNaming)
  deriving DecidableEq, Repr

namespace Repair

/-- The name of a repair in reports and messages. -/
def name : Repair → String
  | .record _ => "record-fix"
  | .identifiers _ => "identifier-fix"
  | .source _ => "source-fix"

section

variable {m : Type → Type} [Monad m] (find : String → m (Option ClassShape))

/-- Makes a repair on a class, and says whether that changed it. Shapes are looked up with
`find`. -/
def applyWith : Repair → RepairEditOver m Bool
  | .record parts => repairRecord find parts
  | .identifiers scope => (repairIdentifiers scope).unaided
  | .source naming => (repairSource naming).unaided

/-- The repaired form of a class of an archive, if it changes. It gets the name that its class file
has. Shapes are looked up with `find`. -/
def repairedWith? (r : Repair) (e : ClassEntry) : ExceptT TransformError m (Option ClassEntry) := do
  let c ← orFail .classFile (ClassFile.parse e.data)
  match ← liftM (n := ExceptT TransformError m) ((r.applyWith find).run.run c) with
  | (.error cause, _) => throw cause
  | (.ok false, _) => return none
  | (.ok true, c) =>
    let name ← orFail .classFile c.name
    return some { e with name, data := c.encode }

end

/-- Makes a repair on a class, and says whether that changed it. -/
def apply (path : ClassPath) (r : Repair) : RepairEdit Bool :=
  r.applyWith (m := Id) path.find?

/-- The repaired form of a class of an archive, if it changes. -/
def repaired? (path : ClassPath) (r : Repair) (e : ClassEntry) :
    Except TransformError (Option ClassEntry) :=
  r.repairedWith? (m := Id) path.find? e

end Repair

/-- The repairs that a run makes. -/
structure Repairs where
  record : Option RecordParts
  source : Option SourceNaming
  identifiers : Option IdentifierScope
  deriving DecidableEq, Repr

namespace Repairs

/-- No repair at all. -/
def nothing : Repairs := ⟨none, none, none⟩

/-- The repairs in the order in which a class goes through them. -/
def toList (r : Repairs) : List Repair :=
  (r.record.map .record).toList ++ (r.identifiers.map .identifiers).toList ++
    (r.source.map .source).toList

end Repairs

end JarRemap
