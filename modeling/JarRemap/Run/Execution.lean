import JarRemap.Archive.Zip
import JarRemap.RenameTable.Format
import JarRemap.Run.Chain
import JarRemap.Run.Settings

/-!
# Runs

A run reads an archive, takes its entries through the chain of stages and writes the result. The
settings are checked, and the table is read, before the archive is looked at. The class path of the
chain is the archive itself and then the libraries.
-/

namespace JarRemap

/-! ## Errors -/

/-- Why a run fails. -/
inductive RunError where
  | settings (e : SettingsError)
  /-- The result cannot be written. -/
  | output
  | archive (e : ArchiveError)
  | table (e : TableError)
  | hierarchy (e : HierarchyError)
  | transform (e : TransformError)
  deriving DecidableEq, Repr

/-- The text of an error. -/
def RunError.message : RunError → String
  | .settings e => s!"invalid configuration: {e.message}"
  | .output => "file error"
  | .archive e => s!"archive error: {e.message}"
  | .table e => s!"mapping error: {e.message}"
  | .hierarchy e => s!"hierarchy error: {e.message}"
  | .transform e => s!"transform error: {e.message}"

/-! ## Reading -/

section

variable {m : Type → Type} [Monad m] (host : Host m)

/-- The entries of the jar at a path. -/
def Host.entries (path : String) : ExceptT ArchiveError m (List Entry) := do
  match ← host.look path with
  | .nothing => throw .inaccessible
  | .directory => throw .notJar
  | .file data => (Jar.decode data).bind Jar.entries

/-- The rename table in the file at a path. -/
def Host.table (path : String) : ExceptT TableError m RenameTable := do
  match ← host.text? path with
  | none => throw (.unreadable path)
  | some text => RenameTable.parse text

/-- The rename table in the file at a path, or its inverse. -/
def Host.tableFor (path : String) (reverse : Bool) : ExceptT TableError m RenameTable := do
  let table ← host.table path
  if reverse then failWith .descriptor table.reverse else return table

/-- The classes of the library at a path. -/
def Host.library (path : String) : ExceptT HierarchyError m ClassSource := do
  match ← host.file? path with
  | none => throw (.library path)
  | some data =>
    match Jar.decode data with
    | .ok jar => return jar.classSource
    | .error _ => throw (.library path)

namespace RunSettings

/-! ## Running -/

/-- Checks the settings and reads the table, if there is one. -/
def prepare (s : RunSettings) : ExceptT RunError m (Option RenameTable) := do
  (s.check host).adapt .settings
  match s.mapping with
  | none => return none
  | some path =>
    let table ← (host.tableFor path s.reverse).adapt .table
    host.log s!"loaded {table.size} class mappings from {path}"
    return some table

/-- Takes the entries of an archive through the chain. -/
def process (s : RunSettings) (table : Option RenameTable) (entries : List Entry) :
    ExceptT RunError m (List Entry × RunReport) := do
  let libraries ← s.libraries.mapM fun path => (host.library path).adapt .hierarchy
  let chain : Chain :=
    { classPath := ⟨Entry.classSource entries :: libraries⟩, table, repairs := s.repairs.toList }
  failWith .transform (chain.process entries)

/-- Writes entries as a jar to a path. The place is looked at first. -/
def writeJar (path : String) (entries : List Entry) : ExceptT RunError m Unit := do
  if !(← host.hasPlace path) then throw .output
  let jar ← failWith .archive (Jar.ofEntries entries)
  if !(← host.write path (Zip.encode jar)) then throw .output

/-- Reads the archive, processes it and writes the result. -/
def execute (s : RunSettings) (table : Option RenameTable) : ExceptT RunError m RunReport := do
  host.log s!"Processing {s.input}"
  let entries ← (host.entries s.input).adapt .archive
  let (output, report) ← s.process host table entries
  writeJar host s.outputPath output
  let contents := s!"{report.classesOut} classes, {report.resourcesOut} other entries"
  host.log s!"Wrote {s.outputPath} ({contents})"
  return report

end RunSettings

end

end JarRemap
