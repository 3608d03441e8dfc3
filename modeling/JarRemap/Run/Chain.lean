import JarRemap.Run.Report
import JarRemap.Run.Shared

/-!
# The chain of stages

Every class of an archive goes through the renaming, if there is a table, and then through the
chosen repairs. The manifest and the resources pass, but a renaming drops the resource that an
earlier one generated and adds its own at the end.

A class that a stage cannot process ends the run with an error that names the stage and the class,
by the name that it has at that stage.
-/

namespace JarRemap

/-- The stages of a run. -/
structure Chain where
  classPath : ClassPath
  table : Option RenameTable
  repairs : List Repair

/-- The name of the renaming in reports and messages. -/
def renamingName : String := "rename"

namespace Chain

/-! ## One entry -/

/-- Renames a class, if there is a table. -/
def renameClass (chain : Chain) (e : ClassEntry) : Task ClassEntry :=
  match chain.table with
  | none => pure e
  | some table =>
    tryCatch
      (e.renamed table (Task.memberName ⟨table, chain.classPath⟩) Task.note Task.countRenamed)
      fun cause => throw (cause.within renamingName e.name)

/-- Makes a repair on a class. -/
def repairClass (chain : Chain) (e : ClassEntry) (r : Repair) : Task ClassEntry := do
  let found ← tryCatch (r.repairedWith? (Work.shape chain.classPath) e) fun cause =>
    throw (cause.within r.name e.name)
  match found with
  | none => return e
  | some repaired =>
    Task.countRepaired r
    return repaired

/-- Takes a class through all stages. -/
def processClass (chain : Chain) (e : ClassEntry) : Task ClassEntry := do
  chain.repairs.foldlM chain.repairClass (← chain.renameClass e)

/-- What the run leaves of a resource. -/
def processResource (chain : Chain) (r : ResourceEntry) : Option ResourceEntry :=
  if chain.table.isSome then renameResource r else some r

/-- Takes an entry through all stages, after which there may be none. -/
def processEntry (chain : Chain) : Entry → Task (Option Entry)
  | .ofClass c => do return some (.ofClass (← chain.processClass c))
  | .manifest r => return some (.manifest r)
  | .resource r => return (chain.processResource r).map .resource

/-! ## All entries -/

/-- How many classes each stage has changed. -/
def changes (chain : Chain) (s : RunState) : List (String × Nat) :=
  (if chain.table.isSome then [(renamingName, s.renames.changed)] else []) ++
    chain.repairs.map fun r => (r.name, s.made.count r)

/-- What becomes of entries once all have gone through the stages, with the generated entries
behind, and a report. -/
def conclude (chain : Chain) (entries : List Entry) (processed : List (Option Entry))
    (s : RunState) : List Entry × RunReport :=
  let extras := s.renames.extras
  let output := processed.filterMap id ++ extras
  (output,
    { classesIn := classCount entries, classesOut := classCount output
      resourcesIn := resourceCount entries, resourcesOut := resourceCount output
      changed := chain.changes s, extras := extras.map Entry.path })

/-- Takes entries through all stages, one after the other. -/
def process (chain : Chain) (entries : List Entry) :
    Except TransformError (List Entry × RunReport) :=
  match (entries.mapM fun e => (chain.processEntry e).perform) RunState.start with
  | (.error cause, _) => .error cause
  | (.ok processed, s) => .ok (chain.conclude entries processed s)

end Chain

end JarRemap
