import JarRemap.Archive.Entry
import JarRemap.Rename.Pass

/-!
# Renaming an archive

The state of a renaming keeps what its remapper remembers, how many classes have changed, and one
line for each abstract or native method with parameters, which have no other place for their names.
The lines are noted as soon as a class is read, whether or not it can be renamed.
-/

namespace JarRemap

/-! ## One class -/

section

variable {m : Type → Type} [Monad m] [MonadExceptOf TransformError m]

/-- The line for a method of the class `owner`, if it needs one: the new names of the class and the
method, the new descriptor, and a name for each parameter, which is made from its slot if the table
has none. -/
def parameterLine? (table : RenameTable) (memberName : MemberKey → m String) (owner : String)
    (pool : ConstantPool) (method : Member) : m (Option String) := do
  if !method.access.intersects ⟨AccessFlags.abstractFlag.bits ||| AccessFlags.nativeFlag.bits⟩ then
    return none
  let name ← orFail .classFile (pool.text method.name)
  let descriptor ← orFail .classFile (pool.text method.descriptor)
  let type ← orFail .descriptor (MethodDescriptor.parse descriptor)
  if type.params.isEmpty then return none
  let slots := type.paramSlotIndices (method.access.contains .staticFlag)
  let names := slots.map fun slot => table.newParameterName owner name descriptor slot s!"var{slot}"
  let newName ← memberName { kind := .method, owner, name, descriptor }
  let newDescriptor ← orFail .descriptor (renameDescriptor table.newClassName descriptor)
  return some (" ".intercalate (table.newClassName owner :: newName :: newDescriptor :: names))

/-- Renames a class of an archive; gives nothing if that changes no byte. Members are named by
`memberName`, and `note` is told the lines of its abstract methods. -/
def ClassEntry.rename? (table : RenameTable) (memberName : MemberKey → m String)
    (note : String → m Unit) (e : ClassEntry) : m (Option ClassEntry) := do
  let c ← orFail .classFile (ClassFile.parse e.data)
  let owner ← orFail .classFile c.name
  c.methods.forM fun method => do
    match ← parameterLine? table memberName owner c.pool method with
    | some line => note line
    | none => return ()
  let c ← c.rename table memberName owner
  let data := c.encode
  if data = e.data then return none
  return some { e with name := table.newClassName owner, data }

/-- What becomes of a class of an archive; `count` is told if it changes. -/
def ClassEntry.renamed (table : RenameTable) (memberName : MemberKey → m String)
    (note : String → m Unit) (count : m Unit) (e : ClassEntry) : m ClassEntry := do
  match ← e.rename? table memberName note with
  | none => return e
  | some renamed =>
    count
    return renamed

end

/-! ## The state of a renaming -/

/-- What a renaming has gathered. -/
structure RenamingState where
  memory : Remapper.Memory
  lines : List String
  changed : Nat

/-- The state before the first class. -/
def RenamingState.start : RenamingState := ⟨.empty, [], 0⟩

/-- A computation in a renaming. -/
abbrev Renaming := ExceptT TransformError (StateM RenamingState)

namespace Renaming

/-- The new name of a member. -/
def memberName (r : Remapper) (k : MemberKey) : Renaming String := fun s =>
  match (r.recallMember k).run s.memory with
  | (outcome, memory) => (outcome.mapError .hierarchy, { s with memory })

/-- Notes the line of an abstract method. -/
def note (line : String) : Renaming Unit :=
  modify fun s => { s with lines := line :: s.lines }

/-- Counts a class that changes. -/
def count : Renaming Unit :=
  modify fun s => { s with changed := s.changed + 1 }

/-- Renames a class of an archive. -/
def processClass (r : Remapper) (e : ClassEntry) : Renaming ClassEntry :=
  e.renamed r.table (memberName r) note count

end Renaming

/-! ## Generated entries -/

/-- The path of the resource that holds the lines of abstract methods. -/
def parameterNamesPath : String := "fernflower_abstract_parameter_names.txt"

/-- The lines in order, each once. -/
def sortedLines (lines : List String) : List String :=
  (lines.mergeSort fun a b => !decide (b < a)).eraseReps

/-- The entries that a renaming generates. -/
def RenamingState.extras (s : RenamingState) : List Entry :=
  if s.lines.isEmpty then []
  else
    let text := "\n".intercalate (sortedLines s.lines)
    [.resource { path := parameterNamesPath, data := text.toUTF8.toList, time := .stable }]

/-- What a renaming leaves of a resource. One that an earlier run generated is dropped. -/
def renameResource (r : ResourceEntry) : Option ResourceEntry :=
  if r.path = parameterNamesPath then none else some r

end JarRemap
