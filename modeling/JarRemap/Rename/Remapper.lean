import JarRemap.Hierarchy.Walk
import JarRemap.RenameTable.Basic
import JarRemap.Signature.Parser

/-!
# Names of inherited members

A table has rows only for the classes that declare a member, while code names members through any
subclass. The new name of a member is that in the row of its owner or else of the first ancestor
that declares the member for others to see and has a row for it.

`Remapper.memberName` says which name that is; `Remapper.recallMember` gives the same answers and
keeps them, together with the shapes of the classes that it meets.
-/

namespace JarRemap

/-- Why a class cannot be transformed. -/
inductive TransformError where
  | classFile (e : ClassError)
  | descriptor (e : DescriptorError)
  | signature (e : SignatureError)
  | hierarchy (e : HierarchyError)
  /-- The stage and the entry at which the cause arose. -/
  | inEntry (stage entry : String) (cause : TransformError)
  deriving DecidableEq, Repr

namespace TransformError

/-- The text of an error. -/
def message : TransformError → String
  | .classFile e => s!"class file error: {e.message}"
  | .descriptor e => s!"descriptor error: {e.message}"
  | .signature e => s!"signature error: {e.message}"
  | .hierarchy e => s!"hierarchy error: {e.message}"
  | .inEntry stage entry cause => s!"{stage} failed on '{entry}': {cause.message}"

/-- Adds the stage and the entry to an error that does not have them. -/
def within (stage entry : String) : TransformError → TransformError
  | .inEntry stage entry cause => .inEntry stage entry cause
  | cause => .inEntry stage entry cause

end TransformError

/-- Goes on with a value or fails with an error of another kind. -/
def orFail {m : Type → Type} [Monad m] [MonadExceptOf TransformError m] {ε α : Type}
    (wrap : ε → TransformError) : Except ε α → m α
  | .ok a => pure a
  | .error e => throw (wrap e)

/-! ## Members -/

/-- The two kinds of members. -/
inductive MemberKind where
  | field
  | method
  deriving DecidableEq, Repr

/-- A member as code names it. -/
structure MemberKey where
  kind : MemberKind
  owner : String
  name : String
  descriptor : String
  deriving DecidableEq, Repr

/-- Whether a member keeps its name whatever the table says: constructors, class initializers and
the members of arrays do. -/
def MemberKey.isFixed (k : MemberKey) : Bool :=
  k.name == "<init>" || k.name == "<clinit>" || Text.beginsWith '[' k.owner

/-- The new name in the row of a member. -/
def RenameTable.memberName? (t : RenameTable) (k : MemberKey) : Option String :=
  match k.kind with
  | .field => t.fieldName? k.owner k.name (some k.descriptor)
  | .method => t.methodName? k.owner k.name k.descriptor

/-- The declaration of a member in a class. -/
def ClassShape.declared? (c : ClassShape) (k : MemberKey) : Option MemberShape :=
  match k.kind with
  | .field => c.field? k.name (some k.descriptor)
  | .method => c.method? k.name k.descriptor

/-- The new name that an ancestor of the owner gives a member: it declares the member, not as a
private one, and has a row for it. -/
def RenameTable.nameFrom? (t : RenameTable) (k : MemberKey) (ancestor : ClassShape) :
    Option String := do
  let declared ← ancestor.declared? k
  if declared.access.contains .privateFlag then none
  else t.memberName? { k with owner := ancestor.name }

/-- The new name of a member, if its owner or an ancestor of it gives one. Classes are looked up
with `find`, and `names` are those that may be found. -/
def RenameTable.search {m : Type → Type} [Monad m] (t : RenameTable) (names : List String)
    (find : String → m (Option ClassShape)) (k : MemberKey) :
    m (Except HierarchyError (Option String)) :=
  match t.memberName? k with
  | some mapped => pure (.ok (some mapped))
  | none => Walk.ancestors find names (fun c => pure (t.nameFrom? k c)) k.owner

/-- The new name of a member, which is `known?` if it has been asked for before. Otherwise it is
found out with `search` and kept with `keep`, unless the search fails. -/
def MemberKey.nameWith {m : Type → Type} [Monad m] (known? : MemberKey → m (Option (Option String)))
    (keep : MemberKey → Option String → m Unit)
    (search : MemberKey → m (Except HierarchyError (Option String))) (k : MemberKey) :
    m (Except HierarchyError String) := do
  if k.isFixed then return .ok k.name
  match ← known? k with
  | some known => return .ok (known.getD k.name)
  | none =>
    match ← search k with
    | .error e => return .error e
    | .ok found =>
      keep k found
      return .ok (found.getD k.name)

/-- A rename table together with the classes that it is used on. -/
structure Remapper where
  table : RenameTable
  classPath : ClassPath

namespace Remapper

/-- The new name of a member, if its owner or an ancestor of it gives one. Classes are looked up
with `find`. -/
def search {m : Type → Type} [Monad m] (r : Remapper) (find : String → m (Option ClassShape))
    (k : MemberKey) : m (Except HierarchyError (Option String)) :=
  r.table.search r.classPath.names find k

/-- The new name of a member. -/
def memberName (r : Remapper) (k : MemberKey) : Except HierarchyError String :=
  if k.isFixed then .ok k.name
  else (Id.run (r.search (fun name => pure (r.classPath.find? name)) k)).map (·.getD k.name)

/-! ## Remembered answers -/

/-- What has been found out about classes and members. -/
structure Memory where
  shapes : ShapeMemory
  members : List (MemberKey × Option String)

/-- The memory before the first question. -/
def Memory.empty : Memory := ⟨[], []⟩

/-- The shape of a class, from memory if it has been asked for before. -/
def recallShape (r : Remapper) (name : String) : StateM Memory (Option ClassShape) := fun memory =>
  match (r.classPath.recall name).run memory.shapes with
  | (found, shapes) => (found, { memory with shapes })

/-- The new name of a member, which is `known?` if it has been asked for before and is kept with
`keep` otherwise. A search that fails is not kept. -/
def recallMemberWith {m : Type → Type} [Monad m] (r : Remapper)
    (find : String → m (Option ClassShape)) (known? : MemberKey → m (Option (Option String)))
    (keep : MemberKey → Option String → m Unit) (k : MemberKey) :
    m (Except HierarchyError String) :=
  k.nameWith known? keep (r.search find)

/-- The new name of a member, from memory if it has been asked for before. -/
def recallMember (r : Remapper) (k : MemberKey) : StateM Memory (Except HierarchyError String) :=
  r.recallMemberWith r.recallShape (fun k memory => (memory.members.lookup k, memory))
    (fun k found => modify fun memory => { memory with members := (k, found) :: memory.members }) k

end Remapper

/-! ## Classes, descriptors and parameters -/

namespace RenameTable

/-- The new form of the name in a class entry, which is a descriptor for an array. -/
def newClassConstant (t : RenameTable) (name : String) : Except DescriptorError String :=
  if Text.beginsWith '[' name then renameDescriptor t.newClassName name
  else .ok (t.newClassName name)

/-- The new name of a parameter, which is its old one if it has no row. -/
def newParameterName (t : RenameTable) (owner method descriptor : String) (slot : Nat)
    (old : String) : String :=
  (t.parameterName? owner method descriptor slot).getD old

/-- The end of a text from its last slash on, if it has one. -/
def fromLastSlash? (name : String) : Option String :=
  (Text.splitLast? '/' name).map fun (_, last) => "/" ++ last

/-- The new simple name of a nested class. It stays if the class keeps its name or moves to another
package with it. Otherwise it is what follows the last `$` of the new name and the digits there, and
again the old one if there is no `$`. -/
def newSimpleName (t : RenameTable) (name simple : String) : String :=
  let mapped := t.newClassName name
  if mapped = name then simple
  else if (fromLastSlash? name).any fun last => fromLastSlash? mapped = some last then simple
  else
    match Text.splitLast? '$' mapped with
    | some (_, last) => String.ofList (last.toList.dropWhile fun c => (Text.digit? c).isSome)
    | none => simple

end RenameTable

end JarRemap
