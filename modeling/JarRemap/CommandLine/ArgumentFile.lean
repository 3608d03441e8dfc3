import JarRemap.Host.Basic
import JarRemap.Text.Blank
import JarRemap.Text.Split

/-!
# Argument files

The lines of a file may stand in the place of arguments: `--cfg FILE` or `--cfg=FILE`. Every line is
one argument, blanks around it apart; empty lines and lines that begin with `#` are none. What a
file says is not looked through for further files.
-/

namespace JarRemap

/-- Why arguments cannot be put together. -/
inductive ArgumentFileError where
  /-- The path of the file is missing. -/
  | noPath
  | unreadable (path : String)
  deriving DecidableEq, Repr

/-- The text of an error. -/
def ArgumentFileError.message : ArgumentFileError → String
  | .noPath => "--cfg needs a file argument"
  | .unreadable path => s!"reading config file {path}"

/-- The arguments in a text. -/
def argumentsIn (text : String) : List String :=
  let lines := (Text.lines text.toList).map Text.trim
  (lines.filter fun line => !line.isEmpty && line.head? != some '#').map String.ofList

section

variable {m : Type → Type} [Monad m] (host : Host m)

/-- The arguments in the file at a path. -/
def argumentsAt (path : String) : ExceptT ArgumentFileError m (List String) := do
  match ← host.text? path with
  | some text => return argumentsIn text
  | none => throw (.unreadable path)

/-- Puts the lines of files in the place of the arguments that name them. -/
def expandArguments : List String → ExceptT ArgumentFileError m (List String)
  | [] => return []
  | ["--cfg"] => throw .noPath
  | "--cfg" :: path :: rest => do
    let arguments ← argumentsAt host path
    return arguments ++ (← expandArguments rest)
  | argument :: rest => do
    match Text.afterStart? "--cfg=" argument with
    | some path =>
      let arguments ← argumentsAt host path
      return arguments ++ (← expandArguments rest)
    | none => return argument :: (← expandArguments rest)

end

end JarRemap
