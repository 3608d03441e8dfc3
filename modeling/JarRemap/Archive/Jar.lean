import JarRemap.Archive.Entry

/-!
# Jars

What a jar keeps of a list of entries and what is read back from it. The compressed form is no
concern of this module: a jar is the list of files in it, each with its path, content and time.
-/

namespace JarRemap

/-- Why an archive cannot be read or written. -/
inductive ArchiveError where
  /-- The file cannot be read or written. -/
  | inaccessible
  /-- The file is no jar. -/
  | notJar
  /-- Two entries would get the same path. -/
  | duplicate (path : String)
  /-- An entry would lie outside of the archive. -/
  | badPath (path : String)
  deriving DecidableEq, Repr

/-- The text of an error. -/
def ArchiveError.message : ArchiveError → String
  | .inaccessible => "archive i/o error"
  | .notJar => "zip error"
  | .duplicate path => s!"duplicate output entry '{path}'"
  | .badPath path => s!"invalid entry path '{path}'"

/-- A file in a jar. -/
structure JarFile where
  path : String
  data : Bytes
  time : Timestamp
  deriving DecidableEq, Repr

namespace JarFile

/-- Whether the file stands for a directory. -/
def isDirectory (f : JarFile) : Bool :=
  f.path.toList.getLast?.any fun c => c == '/' || c == '\\'

/-- Whether the path leads out of the place where an archive is unpacked. -/
def isOutside (f : JarFile) : Bool :=
  Text.beginsWith '/' f.path || (f.path.toList.splitOn '/').contains ['.', '.']

/-- The file that a jar keeps for an entry. -/
def ofEntry (e : Entry) : JarFile :=
  { path := e.path, data := e.data, time := e.time }

/-- The entry for a file. -/
def toEntry (f : JarFile) : Entry :=
  Entry.ofPath f.path f.data f.time

end JarFile

/-- A jar: its files in order. -/
abbrev Jar := List JarFile

namespace Jar

/-- The first path that an earlier one equals. -/
def duplicate? (seen : List String) : List Entry → Option String
  | [] => none
  | e :: rest => if seen.contains e.path then some e.path else duplicate? (e.path :: seen) rest

/-- The jar that holds entries in their order. -/
def ofEntries (entries : List Entry) : Except ArchiveError Jar :=
  match duplicate? [] entries with
  | some path => .error (.duplicate path)
  | none => .ok (entries.map JarFile.ofEntry)

/-- The entry for a file, if it is no directory. -/
def entry? (f : JarFile) : Except ArchiveError (Option Entry) :=
  if f.isDirectory then .ok none
  else if f.isOutside then .error (.badPath f.path)
  else .ok (some f.toEntry)

/-- The entries of a jar. Directories are skipped. -/
def entries (jar : Jar) : Except ArchiveError (List Entry) := do
  return (← jar.mapM entry?).filterMap id

end Jar

end JarRemap
