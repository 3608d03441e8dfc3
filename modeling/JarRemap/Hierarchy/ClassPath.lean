import JarRemap.Archive.Jar
import JarRemap.Hierarchy.ClassShape

/-!
# Class paths

A class path is a row of sources of class files, of which the first one that has a name answers for
it. `ClassPath.find?` says which shape a name has; `ClassPath.recall` gives the same answers and
keeps them, misses included, so that no class file is read twice.
-/

namespace JarRemap

/-- A source of class files: the files by name. Of two files with the same name the first counts. -/
abbrev ClassSource := List (String × Bytes)

/-- The class files of a library. Versioned classes are not looked up. -/
def Jar.classSource (jar : Jar) : ClassSource :=
  jar.filterMap fun f => do
    let name ← Text.beforeEnd? classEnding f.path
    if "META-INF/".toList.isPrefixOf name.toList then none else some (name, f.data)

/-- The class files of an archive. The unversioned file of a class goes before versioned ones. -/
def Entry.classSource (entries : List Entry) : ClassSource :=
  let classes := entries.filterMap Entry.class?
  let (base, versioned) := classes.partition (·.version.isNone)
  (base ++ versioned).map fun c => (c.name, c.data)

/-- A row of sources. -/
structure ClassPath where
  sources : List ClassSource

namespace ClassPath

/-- The bytes of a class. -/
def bytes? (path : ClassPath) (name : String) : Option Bytes :=
  path.sources.findSome? (·.lookup name)

/-- The names of all classes. -/
def names (path : ClassPath) : List String :=
  path.sources.flatMap fun source => source.map Prod.fst

/-- The shape of a class. Arrays have none, and neither has a file that is no class file. -/
def find? (path : ClassPath) (name : String) : Option ClassShape :=
  if Text.beginsWith '[' name then none
  else (path.bytes? name).bind fun data => (ClassShape.parse data).toOption

end ClassPath

/-! ## Remembered answers -/

/-- The answers that a class path has given. -/
abbrev ShapeMemory := List (String × Option ClassShape)

/-- The answer to a question, which is `known?` if it has been asked before. Otherwise it is found
out with `look` and kept with `keep`. -/
def memoized {m : Type → Type} [Monad m] {κ α : Type} (known? : κ → m (Option α))
    (keep : κ → α → m Unit) (look : κ → m α) (question : κ) : m α := do
  match ← known? question with
  | some known => return known
  | none =>
    let found ← look question
    keep question found
    return found

/-- The shape of a class, which is `known?` if it has been asked for before and is kept with `keep`
otherwise. -/
def ClassPath.recallWith {m : Type → Type} [Monad m]
    (known? : String → m (Option (Option ClassShape))) (keep : String → Option ClassShape → m Unit)
    (path : ClassPath) (name : String) : m (Option ClassShape) :=
  memoized known? keep (fun name => pure (path.find? name)) name

/-- The shape of a class, from memory if it has been asked for before. -/
def ClassPath.recall (path : ClassPath) (name : String) :
    StateM ShapeMemory (Option ClassShape) :=
  path.recallWith (fun name shapes => (shapes.lookup name, shapes))
    (fun name found => modify ((name, found) :: ·)) name

end JarRemap
