import JarRemap.Attribute.Nesting
import JarRemap.Hierarchy.ClassShape
import JarRemap.Text.Json

/-!
# Class reports

What a class declares, in texts instead of slots, and the report as JSON.
-/

namespace JarRemap

/-- A component of a record. -/
structure ComponentReport where
  name : String
  descriptor : String
  signature : Option String
  deriving DecidableEq, Repr

/-- The declarations of a class. -/
structure ClassReport where
  shape : ClassShape
  signature : Option String
  sourceFile : Option String
  /-- The components of a record. There are none where the class has no list of them. -/
  components : Option (List ComponentReport)
  deriving DecidableEq, Repr

/-- The report on a component. -/
def ComponentReport.ofComponent (pool : ConstantPool) (c : RecordComponent) :
    Except ClassError ComponentReport := do
  let signature ← signatureAmong pool c.attributes
  let name ← pool.text c.name
  let descriptor ← pool.text c.descriptor
  return { name, descriptor, signature }

/-- A member as a JSON value. -/
def MemberShape.json (m : MemberShape) : JsonValue :=
  .object [("name", .string m.name), ("descriptor", .string m.descriptor),
    ("access", .string m.access.text)]

/-- The shape of a class as members of a JSON value. -/
def ClassShape.jsonMembers (c : ClassShape) : List (String × JsonValue) :=
  [("name", .string c.name), ("access", .string c.access.text),
   ("super_name", .ofOption .string c.superName),
   ("interfaces", .array (c.interfaces.map .string)),
   ("fields", .array (c.fields.map MemberShape.json)),
   ("methods", .array (c.methods.map MemberShape.json))]

/-- A component as a JSON value. -/
def ComponentReport.json (c : ComponentReport) : JsonValue :=
  .object [("name", .string c.name), ("descriptor", .string c.descriptor),
    ("signature", .ofOption .string c.signature)]

namespace ClassReport

/-- The report on a class. Components are looked at first. -/
def ofClass (c : ClassFile) : Except ClassError ClassReport := do
  let components ← AttributeFormat.recordComponents.parseAmong c.pool c.attributes
  let components ← components.mapM fun rows => rows.mapM (ComponentReport.ofComponent c.pool)
  let shape ← ClassShape.ofClass c
  let signature ← c.signature
  let sourceFile ← c.sourceFile
  return { shape, signature, sourceFile, components }

/-- The report as a JSON value. -/
def json (r : ClassReport) : JsonValue :=
  .object (r.shape.jsonMembers ++
    [("signature", .ofOption .string r.signature),
     ("source_file", .ofOption .string r.sourceFile),
     ("record_components", .ofOption (fun rows => .array (rows.map ComponentReport.json))
       r.components)])

/-- The text of a report. -/
def text (r : ClassReport) : String :=
  r.json.text

end ClassReport

end JarRemap
