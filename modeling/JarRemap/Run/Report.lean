import JarRemap.Archive.Entry
import JarRemap.Text.Json

/-!
# Run reports

What a run counts, and the report as JSON.
-/

namespace JarRemap

/-- The summary of a run. -/
structure RunReport where
  classesIn : Nat
  classesOut : Nat
  /-- The manifest counts as a resource. -/
  resourcesIn : Nat
  /-- Generated entries count, too. -/
  resourcesOut : Nat
  /-- How many classes each stage changed. -/
  changed : List (String × Nat)
  /-- The paths of the generated entries. -/
  extras : List String
  deriving DecidableEq, Repr

/-- How many of some entries are classes. -/
def classCount (entries : List Entry) : Nat :=
  (entries.filter (·.class?.isSome)).length

/-- How many of some entries are no classes. -/
def resourceCount (entries : List Entry) : Nat :=
  (entries.filter (·.class?.isNone)).length

namespace RunReport

/-- The report as a JSON value. -/
def json (r : RunReport) : JsonValue :=
  .object [("classes_in", .number r.classesIn), ("classes_out", .number r.classesOut),
    ("resources_in", .number r.resourcesIn), ("resources_out", .number r.resourcesOut),
    ("changed", .object (r.changed.map fun (name, n) => (name, .number n))),
    ("extras", .array (r.extras.map .string))]

/-- The text of a report. -/
def text (r : RunReport) : String :=
  r.json.text

end RunReport

end JarRemap
