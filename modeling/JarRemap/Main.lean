import JarRemap.CommandLine.Execute

/-!
# The program

Runs a command on the machine: files are those of the file system, and the log goes to standard
error and to a file if one is asked for.
-/

namespace JarRemap

/-- Whether reading something goes well. -/
def succeeds {α : Type} (x : IO α) : IO Bool := do
  try
    let _ ← x
    return true
  catch _ => return false

/-- Whether there is a directory at a path of the file system. -/
def isDirectoryAt (path : String) : IO Bool := do
  try
    return ← (← IO.FS.realPath path).isDir
  catch _ => return false

/-- What lies at a path of the file system. -/
def lookAt (path : String) : IO Found := do
  try
    let data ← IO.FS.readBinFile path
    return .file data.toList
  catch _ =>
    return if ← isDirectoryAt path then .directory else .nothing

/-- Prints a line to standard error and to the file of the log. -/
def logLine (file : IO.Ref (Option IO.FS.Handle)) (line : String) : IO Unit := do
  let line := s!"INFO {line}"
  IO.eprintln line
  if let some handle ← file.get then handle.putStrLn line

/-- The machine as a host. The file of the log is kept in a reference. -/
def machine (file : IO.Ref (Option IO.FS.Handle)) : Host IO where
  look := lookAt
  hasPlace path := isDirectoryAt (parentPath path)
  write path data := succeeds (IO.FS.writeBinFile path ⟨data.toArray⟩)
  openLog path := succeeds do file.set (some (← IO.FS.Handle.mk path .write))
  print := IO.print
  addToLog := logLine file

/-- The lines that say how the program is used. -/
def usageLines : List String :=
  ["usage: jarremap run --input JAR [--output JAR] [--map FILE] [--reverse] [--lib JAR]...",
   "           [--threads N] [--record-fix[=PARTS]] [--src-fix[=MODE]] [--ids-fix[=MODE]]",
   "           [--log FILE] [--emit FILE]",
   "       jarremap inspect FILE [--class NAME]",
   "       jarremap reverse --map FILE --output FILE"]

/-- Tells the user how the program ended. -/
def Ending.tell : Ending → IO Unit
  | .done => return
  | .refused .help => usageLines.forM fun line => IO.println line
  | .refused .usage => usageLines.forM fun line => IO.eprintln line
  | .failed e => IO.eprintln s!"Error: {e.message}"

end JarRemap

open JarRemap in
/-- Runs the program on its arguments. -/
def main (arguments : List String) : IO UInt32 := do
  let file ← IO.mkRef none
  let ending ← runProgram (machine file) 1 ("jarremap" :: arguments)
  ending.tell
  return ending.exitCode.toUInt32
