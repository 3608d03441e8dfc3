import JarRemap.Host.Basic
import JarRemap.Repair.Choice

/-!
# Settings of a run

What a run is told to do, and the check of the settings before any work starts.
-/

namespace JarRemap

/-- The settings of a run. -/
structure RunSettings where
  input : String
  /-- The input is replaced where there is none. -/
  output : Option String
  libraries : List String
  /-- The file of the rename table. Without one nothing is renamed. -/
  mapping : Option String
  /-- Whether the inverse of the table is used. -/
  reverse : Bool
  threads : Nat
  repairs : Repairs
  deriving DecidableEq, Repr

/-- Where the result goes. -/
def RunSettings.outputPath (s : RunSettings) : String :=
  s.output.getD s.input

/-- Why settings are refused. -/
inductive SettingsError where
  | noThreads
  | noInput (path : String)
  | noLibrary (path : String)
  | nothingToReverse
  deriving DecidableEq, Repr

/-- The text of an error. -/
def SettingsError.message : SettingsError → String
  | .noThreads => "thread count must be at least 1"
  | .noInput path => s!"input '{path}' does not exist"
  | .noLibrary path => s!"library '{path}' does not exist"
  | .nothingToReverse => "--reverse needs a mapping"

/-- Refuses settings that cannot work. -/
def RunSettings.check {m : Type → Type} [Monad m] (host : Host m) (s : RunSettings) :
    ExceptT SettingsError m Unit := do
  if s.threads = 0 then throw .noThreads
  if (← host.file? s.input).isNone then throw (.noInput s.input)
  s.libraries.forM fun path => do
    if (← host.file? path).isNone then throw (.noLibrary path)
  if s.reverse && s.mapping.isNone then throw .nothingToReverse

end JarRemap
