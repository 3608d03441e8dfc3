import JarRemap.CommandLine.Options
import JarRemap.Run.Settings

/-!
# Commands

The three commands and their arguments: `run` renames and repairs a jar, `inspect` shows a class,
and `reverse` writes the inverse of a rename table.
-/

namespace JarRemap

/-! ## Arguments -/

/-- The arguments of `run`. -/
structure RunArguments where
  input : Option String
  output : Option String
  mapping : Option String
  reverse : Bool
  libraries : List String
  threads : Option Nat
  repairs : Repairs
  /-- Where the log goes as well. -/
  log : Option String
  /-- Where the report goes. -/
  emit : Option String

/-- The arguments of `inspect`. -/
structure InspectArguments where
  input : Option String
  className : Option String

/-- The arguments of `reverse`. -/
structure ReverseArguments where
  mapping : Option String
  output : Option String

/-- An option that takes the path of a file. A path is not empty. -/
def pathOption {σ : Type} (names : List String) (store : String → σ → σ) : OptionRule σ :=
  { names, letter := none, value := .always, repeats := false
    store := fun path s => if path.isEmpty then none else some (store path s) }

/-- An option that chooses a repair. -/
def repairOption {α : Type} (name otherwise : String) (read : String → Except ChoiceError α)
    (store : α → Repairs → Repairs) : OptionRule RunArguments :=
  { names := [name], letter := none, value := .afterEquals otherwise, repeats := false
    store := fun text a =>
      (read text).toOption.map fun choice => { a with repairs := store choice a.repairs } }

/-- No argument stands at a position. -/
def noPosition {σ : Type} (_ : Nat) (_ : String) (_ : σ) : Option σ :=
  none

/-- The options of `run`. -/
def RunArguments.grammar : ArgumentGrammar RunArguments where
  options :=
    [pathOption ["input"] fun path a => { a with input := some path },
     pathOption ["output"] fun path a => { a with output := some path },
     pathOption ["map", "names"] fun path a => { a with mapping := some path },
     { names := ["reverse"], letter := none, value := .never, repeats := false
       store := fun _ a => some { a with reverse := true } },
     { pathOption ["lib"] fun path (a : RunArguments) =>
         { a with libraries := a.libraries ++ [path] } with
       letter := some 'e', repeats := true },
     { names := ["threads"], letter := none, value := .always, repeats := false
       store := fun text a =>
         (Text.unsigned? UInt64.size text.toList).map fun n => { a with threads := some n } },
     repairOption "record-fix" "components,signature" RecordParts.ofText fun parts r =>
       { r with record := some parts },
     repairOption "src-fix" "java" SourceNaming.ofText fun naming r =>
       { r with source := some naming },
     repairOption "ids-fix" "all" IdentifierScope.ofText fun scope r =>
       { r with identifiers := some scope },
     pathOption ["log"] fun path a => { a with log := some path },
     pathOption ["emit"] fun path a => { a with emit := some path }]
  position := noPosition

/-- The options of `inspect`, and the file that it shows. -/
def InspectArguments.grammar : ArgumentGrammar InspectArguments where
  options :=
    [{ names := ["class"], letter := none, value := .always, repeats := false
       store := fun name a => some { a with className := some name } }]
  position
    | 0, path, a => if path.isEmpty then none else some { a with input := some path }
    | _, _, _ => none

/-- The options of `reverse`. -/
def ReverseArguments.grammar : ArgumentGrammar ReverseArguments where
  options :=
    [pathOption ["map", "names"] fun path a => { a with mapping := some path },
     pathOption ["output"] fun path a => { a with output := some path }]
  position := noPosition

/-! ## Commands -/

/-- A command with its arguments. -/
inductive Command where
  /-- Renames and repairs a jar. -/
  | run (settings : RunSettings) (log emit : Option String)
  /-- Shows a class. -/
  | inspect (input : String) (className : Option String)
  /-- Writes the inverse of a rename table. -/
  | reverse (mapping output : String)
  deriving DecidableEq, Repr

namespace Command

/-- The names of the commands. -/
def names : List String := ["run", "inspect", "reverse"]

/-- What has to be given. -/
def required {α : Type} (a : Option α) : Except Refusal α :=
  match a with
  | some a => .ok a
  | none => .error .usage

/-- Reads the arguments of `run`. -/
def parseRun (arguments : List String) : Except Refusal RunArguments := do
  let a ← RunArguments.grammar.parse
    ⟨none, none, none, false, [], none, .nothing, none, none⟩ arguments
  let _ ← required a.input
  return a

/-- The settings that arguments give. Without a number of threads there are as many as the machine
has. -/
def settings (machineThreads : Nat) (a : RunArguments) : RunSettings :=
  { input := a.input.getD "", output := a.output, libraries := a.libraries, mapping := a.mapping
    reverse := a.reverse, threads := a.threads.getD machineThreads, repairs := a.repairs }

/-- The request for help on commands, which is refused when there is no such command. -/
def helpOn (arguments : List String) : Refusal :=
  match arguments with
  | [] => .help
  | [name] => if ("help" :: names).contains name then .help else .usage
  | _ => .usage

/-- Reads a command. -/
def parse (machineThreads : Nat) : List String → Except Refusal Command
  | "run" :: arguments => do
    let a ← parseRun arguments
    return .run (settings machineThreads a) a.log a.emit
  | "inspect" :: arguments => do
    let a ← InspectArguments.grammar.parse ⟨none, none⟩ arguments
    return .inspect (← required a.input) a.className
  | "reverse" :: arguments => do
    let a ← ReverseArguments.grammar.parse ⟨none, none⟩ arguments
    return .reverse (← required a.mapping) (← required a.output)
  | "help" :: arguments => .error (helpOn arguments)
  | argument :: _ =>
    match ArgumentGrammar.look argument with
    | .long "help" none | .short 'h' _ => .error .help
    | _ => .error .usage
  | [] => .error .usage

/-- The file to which a command logs as well. -/
def logPath? : Command → Option String
  | .run _ log _ => log
  | .inspect .. | .reverse .. => none

end Command

end JarRemap
