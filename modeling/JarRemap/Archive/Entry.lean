import JarRemap.Bytes
import JarRemap.Text.Number
import JarRemap.Text.Split

/-!
# Archive entries

A jar is a list of entries. The path of an entry tells what it is: a class, which is held under its
binary name and perhaps the release that it is for, the manifest, or some other resource.
-/

namespace JarRemap

/-- A date and a time of day, in steps of two seconds. -/
structure Timestamp where
  year : Nat
  month : Nat
  day : Nat
  hour : Nat
  minute : Nat
  /-- How many steps the minute is old. -/
  step : Nat
  deriving DecidableEq, Repr

namespace Timestamp

/-- The last step at this second or before it. A leap second belongs to the last step of its
minute, of which there are thirty. -/
def ofSecond (year month day hour minute second : Nat) : Timestamp :=
  ⟨year, month, day, hour, minute, min (second / 2) 29⟩

/-- The second of the minute, which is even. -/
def second (t : Timestamp) : Nat :=
  2 * t.step

/-- The time of every entry that a run generates. -/
def stable : Timestamp := ⟨2000, 1, 1, 0, 0, 0⟩

end Timestamp

/-- A class in an archive. -/
structure ClassEntry where
  /-- The path without the release and the ending. -/
  name : String
  data : Bytes
  time : Timestamp
  /-- The release that a versioned class is for. -/
  version : Option Nat
  deriving DecidableEq, Repr

/-- The manifest or some other file that is no class. -/
structure ResourceEntry where
  path : String
  data : Bytes
  time : Timestamp
  deriving DecidableEq, Repr

/-- An entry of an archive. -/
inductive Entry where
  | ofClass (c : ClassEntry)
  | manifest (r : ResourceEntry)
  | resource (r : ResourceEntry)
  deriving DecidableEq, Repr

/-! ## Paths -/

/-- The path of the manifest. -/
def manifestPath : String := "META-INF/MANIFEST.MF"

/-- The directory of the versioned classes. -/
def versionsDirectory : String := "META-INF/versions/"

/-- The ending of a class. -/
def classEnding : String := ".class"

/-- The release and the rest of the path of something in the directory of versioned classes. -/
def splitVersion? (stem : String) : Option (Nat × String) := do
  let rest ← Text.afterStart? versionsDirectory stem
  let (release, name) ← Text.splitFirst? '/' rest
  let version ← Text.unsigned? UInt32.size release.toList
  if name.isEmpty then none else some (version, name)

/-- The name and the release of the class with this path, if it is that of a class. -/
def splitClassPath? (path : String) : Option (String × Option Nat) := do
  let stem ← Text.beforeEnd? classEnding path
  match splitVersion? stem with
  | some (version, name) => some (name, some version)
  | none => if stem.isEmpty then none else some (stem, none)

namespace ClassEntry

/-- The class with this path, if it is that of a class. -/
def ofPath? (path : String) (data : Bytes) (time : Timestamp) : Option ClassEntry :=
  (splitClassPath? path).map fun (name, version) => { name, data, time, version }

/-- The path of a class. -/
def path (c : ClassEntry) : String :=
  match c.version with
  | some version => s!"{versionsDirectory}{version}/{c.name}{classEnding}"
  | none => c.name ++ classEnding

end ClassEntry

namespace Entry

/-- The entry with this path. -/
def ofPath (path : String) (data : Bytes) (time : Timestamp) : Entry :=
  if path = manifestPath then .manifest { path, data, time }
  else
    match ClassEntry.ofPath? path data time with
    | some c => .ofClass c
    | none => .resource { path, data, time }

/-- The path of an entry. -/
def path : Entry → String
  | .ofClass c => c.path
  | .manifest r | .resource r => r.path

/-- The content of an entry. -/
def data : Entry → Bytes
  | .ofClass c => c.data
  | .manifest r | .resource r => r.data

/-- The time of an entry. -/
def time : Entry → Timestamp
  | .ofClass c => c.time
  | .manifest r | .resource r => r.time

/-- The class that an entry holds, if it holds one. -/
def class? : Entry → Option ClassEntry
  | .ofClass c => some c
  | .manifest _ | .resource _ => none

end Entry

end JarRemap
