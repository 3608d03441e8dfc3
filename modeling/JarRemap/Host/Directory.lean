import JarRemap.Host.Basic

/-!
# A directory as a host

A directory is the files in it and below it. It is the working directory of a command: paths that
lead out of it lead to nothing.
-/

namespace JarRemap

/-- The names that lead from a directory to something below it. -/
abbrev Place := List String

/-- A directory: the files in and below it. Directories are there for what they hold. -/
structure Directory where
  files : List (Place × Bytes)

namespace Directory

/-- The directory without files. -/
def empty : Directory := ⟨[]⟩

/-! ## Paths -/

/-- Whether there is a directory at a place. -/
def isDirectory (d : Directory) (place : Place) : Bool :=
  place.isEmpty ||
    d.files.any fun (p, _) => place.length < p.length && place.isPrefixOf p

/-- Whether a file can have this name. -/
def isFileName (name : String) : Bool :=
  name.utf8ByteSize ≤ 255 && !name.toList.contains '\x00'

/-- Goes on from a place, where there has to be a directory. -/
def step (d : Directory) (place : Place) (name : String) : Option Place :=
  if !d.isDirectory place then none
  else if name == "" || name == "." then some place
  else if name == ".." then
    if place.isEmpty then none else some place.dropLast
  else if isFileName name then some (place ++ [name])
  else none

/-- How many bytes a path can have. -/
def maxPathBytes : Nat := 4095

/-- The place to which a path leads, if the directories on the way are there. -/
def place? (d : Directory) (path : String) : Option Place :=
  if path.isEmpty || path.utf8ByteSize > maxPathBytes || Text.beginsWith '/' path then none
  else ((path.toList.splitOn '/').map String.ofList).foldlM d.step []

/-! ## Files -/

/-- What lies at a path. -/
def look (d : Directory) (path : String) : Found :=
  match d.place? path with
  | none => .nothing
  | some place =>
    if d.isDirectory place then .directory
    else
      match d.files.lookup place with
      | some data => .file data
      | none => .nothing

/-- Whether there is a directory in which a file at this path would lie. -/
def hasPlace (d : Directory) (path : String) : Bool :=
  d.look (parentPath path) == .directory

/-- The directory with a file at a place. -/
def put (d : Directory) (place : Place) (data : Bytes) : Directory :=
  ⟨d.files.filter (·.1 != place) ++ [(place, data)]⟩

/-- The directory with a file at a path, if it can be put there. -/
def write (d : Directory) (path : String) (data : Bytes) : Option Directory :=
  match d.place? path with
  | none => none
  | some place => if d.isDirectory place then none else some (d.put place data)

end Directory

/-! ## The host -/

/-- What a command does to a directory, prints and logs. The lines of the log stand in reverse; a
file in which they are kept as well stays empty here. -/
structure Session where
  directory : Directory
  printed : String
  logged : List String

namespace Session

/-- The session before the first command. -/
def start (d : Directory) : Session := ⟨d, "", []⟩

/-- Puts a file at a path, and says whether that went well. -/
def write (path : String) (data : Bytes) : StateM Session Bool := fun s =>
  match s.directory.write path data with
  | some directory => (true, { s with directory })
  | none => (false, s)

/-- A session as a host. -/
def host : Host (StateM Session) where
  look path := return (← get).directory.look path
  hasPlace path := return (← get).directory.hasPlace path
  write := write
  openLog path := write path []
  print text := modify fun s => { s with printed := s.printed ++ text }
  addToLog line := modify fun s => { s with logged := line :: s.logged }

end Session

end JarRemap
