import JarRemap.Repair.Basic

/-!
# Source file names

After a renaming the name of the source file no longer fits the class. The repair derives it from
the name of the class.
-/

namespace JarRemap

/-- How the name of the source file follows from that of the class. -/
inductive SourceNaming where
  /-- The simple name of the outermost class and the ending of a source file. -/
  | outermost
  /-- The name of the class as it is. -/
  | binaryName
  deriving DecidableEq, Repr

/-- The name of the source file of a class. -/
def SourceNaming.sourceName (mode : SourceNaming) (className : String) : String :=
  match mode with
  | .binaryName => className
  | .outermost =>
    let simple :=
      match Text.splitLast? '/' className with
      | some (_, simple) => simple
      | none => className
    let outer :=
      match Text.splitFirst? '$' simple with
      | some (outer, _) => outer
      | none => simple
    outer ++ ".java"

/-- Gives the class the name of its source file, unless it has it. -/
def repairSource (mode : SourceNaming) : RepairEdit Bool := do
  let c ← get
  let expected := mode.sourceName (← orFail .classFile c.name)
  let current ← orFail .classFile c.sourceFile
  if current = some expected then return false
  RepairEdit.edit do
    let a ← ClassEdit.makeTextAttribute sourceFileName expected
    ClassEdit.setClassAttribute a
  return true

end JarRemap
