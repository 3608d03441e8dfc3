import JarRemap.ClassReport
import JarRemap.CommandLine.ArgumentFile
import JarRemap.CommandLine.Command
import JarRemap.Run.Execution

/-!
# Carrying out commands

What each command does on its host, and the whole program: it puts the arguments together, reads the
command, opens the log and carries the command out.
-/

namespace JarRemap

/-- Why a command fails. -/
inductive CommandError where
  | arguments (e : ArgumentFileError)
  | unreadable (path : String)
  | unwritable (path : String)
  | noReport (path : String)
  | noLog (path : String)
  /-- The file holds no class by itself, and no class is named. -/
  | noClassNamed (path : String)
  | noSuchClass (name path : String)
  | classFile (e : ClassError)
  | archive (e : ArchiveError)
  | table (e : TableError)
  | run (e : RunError)
  deriving DecidableEq, Repr

/-- The text of an error. -/
def CommandError.message : CommandError → String
  | .arguments e => e.message
  | .unreadable path => s!"reading {path}"
  | .unwritable path => s!"writing {path}"
  | .noReport path => s!"writing report to {path}"
  | .noLog path => s!"creating log file {path}"
  | .noClassNamed path => s!"{path} is not a class file; pass --class to pick a class from the jar"
  | .noSuchClass name path => s!"class {name} not found in {path}"
  | .classFile e => e.message
  | .archive e => e.message
  | .table e => e.message
  | .run e => e.message

section

variable {m : Type → Type} [Monad m] (host : Host m)

/-! ## `run` -/

/-- The lines that begin the log of a run. -/
def RunSettings.summary (s : RunSettings) : List String :=
  let mapping :=
    match s.mapping with
    | some path => if s.reverse then s!"{path} (reversed)" else path
    | none => "none"
  let choice := fun (text : Option String) => text.getD "off"
  [s!"Input:   {s.input}", s!"Output:  {s.outputPath}", s!"Mapping: {mapping}"] ++
    s.libraries.map (fun path => s!"Library: {path}") ++
    [s!"Threads: {s.threads}",
     s!"Record fix:     {choice (s.repairs.record.map RecordParts.logText)}",
     s!"Source fix:     {choice (s.repairs.source.map SourceNaming.logText)}",
     s!"Identifier fix: {choice (s.repairs.identifiers.map IdentifierScope.logText)}"]

/-- Renames and repairs a jar. -/
def runCommand (s : RunSettings) (emit : Option String) : ExceptT CommandError m Unit := do
  s.summary.forM fun line => host.log line
  let table ← (s.prepare host).adapt .run
  let report ← (s.execute host table).adapt .run
  report.changed.forM fun (name, n) => host.log s!"  {name}: {n} classes changed"
  match emit with
  | none => return
  | some path =>
    if !(← host.writeText path report.text) then throw (.noReport path)
    host.log s!"Report written to {path}"

/-! ## `inspect` -/

/-- The last name of a path, if it is one of a file. -/
def fileName? (path : String) : Option (List Char) :=
  ((path.toList.splitOn '/').filter fun name => !name.isEmpty && name != ['.']).getLast?

/-- Whether a path has the ending of class files behind a name. -/
def isClassPath (path : String) : Bool :=
  (fileName? path).any fun name =>
    match Text.dropEnd? classEnding.toList name with
    | some stem => !stem.isEmpty
    | none => false

/-- The name without the endings of class files behind it. -/
def stripClassEndings (name : String) : String :=
  go name.length name
where
  /-- Strips at most this many endings. -/
  go : Nat → String → String
    | 0, name => name
    | n + 1, name =>
      match Text.beforeEnd? classEnding name with
      | some stem => go n stem
      | none => name

/-- The binary name that a user means, who may write dots and the ending of class files. -/
def binaryNameOf (name : String) : String :=
  (stripClassEndings name).map fun c => if c = '.' then '/' else c

/-- The class with a name among some entries. An unversioned one goes before versioned ones. -/
def findClass? (name : String) (entries : List Entry) : Option ClassEntry :=
  let classes := (entries.filterMap Entry.class?).filter (·.name == name)
  -- Of several unversioned ones the last counts, of versioned ones the first.
  (classes.filter (·.version.isNone)).getLast?.or classes.head?

/-- The class that a user wants to see. -/
def inspectedClass (input : String) (className : Option String) :
    ExceptT CommandError m ClassFile := do
  if isClassPath input then
    match ← host.file? input with
    | none => throw (.unreadable input)
    | some data => failWith .classFile (ClassFile.parse data)
  else
    match className with
    | none => throw (.noClassNamed input)
    | some className =>
      let name := binaryNameOf className
      let entries ← (host.entries input).adapt .archive
      match findClass? name entries with
      | none => throw (.noSuchClass name input)
      | some e => failWith .classFile (ClassFile.parse e.data)

/-- Shows a class. -/
def inspectCommand (input : String) (className : Option String) :
    ExceptT CommandError m Unit := do
  let c ← inspectedClass host input className
  let report ← failWith .classFile (ClassReport.ofClass c)
  host.print (report.text ++ "\n")

/-! ## `reverse` -/

/-- Writes the inverse of a rename table. -/
def reverseCommand (mapping output : String) : ExceptT CommandError m Unit := do
  let table ← (host.tableFor mapping true).adapt .table
  if !(← host.writeText output table.write) then throw (.unwritable output)
  host.log s!"Wrote {table.size} reversed class mappings to {output}"

/-! ## The program -/

/-- Carries out a command. -/
def Command.execute : Command → ExceptT CommandError m Unit
  | .run settings _ emit => runCommand host settings emit
  | .inspect input className => inspectCommand host input className
  | .reverse mapping output => reverseCommand host mapping output

/-- How the program ends. -/
inductive Ending where
  | done
  | refused (r : Refusal)
  | failed (e : CommandError)
  deriving DecidableEq, Repr

/-- The exit code of the program. -/
def Ending.exitCode : Ending → UInt8
  | .done => 0
  | .refused .help => 0
  | .refused .usage => 2
  | .failed _ => 1

/-- Runs the program. Its own name is the first argument. -/
def runProgram (machineThreads : Nat) (arguments : List String) : m Ending := do
  match ← (expandArguments host arguments).run with
  | .error e => return .failed (.arguments e)
  | .ok arguments =>
    match Command.parse machineThreads (arguments.drop 1) with
    | .error r => return .refused r
    | .ok command =>
      if let some path := command.logPath? then
        if !(← host.openLog path) then return .failed (.noLog path)
      match ← (command.execute host).run with
      | .ok () => return .done
      | .error e => return .failed e

end

end JarRemap
