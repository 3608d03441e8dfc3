import JarRemap.Bytes
import JarRemap.Text.Control
import JarRemap.Text.Split

/-!
# What a command needs of its host

Commands read and write files, print, and log. They are written over a `Host`, so that they can be
run on a machine as well as on a value that stands for a directory
(`JarRemap.Host.Directory`).
-/

namespace JarRemap

/-- What lies at a path. -/
inductive Found where
  | nothing
  | directory
  | file (data : Bytes)
  deriving DecidableEq, Repr

/-- The path without its last name. -/
def parentPath (path : String) : String :=
  let names := (path.toList.splitOn '/').filter fun name => !name.isEmpty && name != ['.']
  (if Text.beginsWith '/' path then "/" else "./") ++
    String.ofList (['/'].intercalate names.dropLast)

/-- The file, if there is one. -/
def Found.file? : Found → Option Bytes
  | .file data => some data
  | .nothing | .directory => none

/-- The host of a command. -/
structure Host (m : Type → Type) where
  /-- What lies at a path. -/
  look : String → m Found
  /-- Whether there is a directory in which a file at this path would lie. -/
  hasPlace : String → m Bool
  /-- Puts a file at a path, in the place of one that is there, and says whether that went well. -/
  write : String → Bytes → m Bool
  /-- Prints some text. -/
  print : String → m Unit
  /-- Begins a file in which the log is kept as well, and says whether that went well. -/
  openLog : String → m Bool
  /-- Adds a line to the log as it stands. -/
  addToLog : String → m Unit

namespace Host

variable {m : Type → Type} [Monad m]

/-- The file at a path, if there is one. -/
def file? (host : Host m) (path : String) : m (Option Bytes) := do
  return (← host.look path).file?

/-- The text in the file at a path, if there is one and it holds text. -/
def text? (host : Host m) (path : String) : m (Option String) := do
  return (← host.file? path).bind fun data => String.fromUTF8? ⟨data.toArray⟩

/-- Puts a file with some text at a path, and says whether that went well. -/
def writeText (host : Host m) (path text : String) : m Bool :=
  host.write path text.toUTF8.toList

/-- Adds a line to the log, with its control characters spelled. -/
def log (host : Host m) (line : String) : m Unit :=
  host.addToLog (Text.spellControls line)

end Host

/-- Goes on with a value, or fails with the error that `wrap` makes of the cause. -/
def failWith {m : Type → Type} [Monad m] {ε ε' α : Type} (wrap : ε → ε') (outcome : Except ε α) :
    ExceptT ε' m α :=
  ExceptT.mk (pure (outcome.mapError wrap))

end JarRemap
