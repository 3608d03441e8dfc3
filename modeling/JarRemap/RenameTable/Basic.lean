import JarRemap.Descriptor.Parser

/-!
# Rename tables

A table says which name a class, a field, a method or a parameter gets. Rows keep the order in which
they were first added, and each kind has a key of its own: classes and fields their old name,
methods their old name and descriptor, parameters their local-variable slot.

`RenameTable.newClassName` is how a table acts on class names: the longest beginning of a name that
has a row, and that ends where the name ends or before a `$`, is replaced.
-/

namespace JarRemap

/-- The new name of a parameter. Slot zero is the receiver of a method that is not static. -/
structure ParameterRename where
  slot : Nat
  oldName : String
  newName : String
  deriving DecidableEq, Repr

/-- The new name of a method. -/
structure MethodRename where
  oldName : String
  descriptor : String
  newName : String
  params : List ParameterRename
  deriving DecidableEq, Repr

/-- The new name of a field. Not every format gives a descriptor. -/
structure FieldRename where
  oldName : String
  newName : String
  descriptor : Option String
  deriving DecidableEq, Repr

/-- The new names of a class and of what it declares. -/
structure ClassRename where
  oldName : String
  newName : String
  fields : List FieldRename
  methods : List MethodRename
  deriving DecidableEq, Repr

/-- A rename table. -/
structure RenameTable where
  classes : List ClassRename
  deriving DecidableEq, Repr

/-- Changes the first row that `isRow` picks, or adds a fresh row at the end. -/
def upsert {α : Type} (isRow : α → Bool) (change : α → α) (fresh : α) : List α → List α
  | [] => [fresh]
  | row :: rest => if isRow row then change row :: rest else row :: upsert isRow change fresh rest

/-! ## Methods -/

namespace MethodRename

/-- Whether the row is that of a method. -/
def isFor (name descriptor : String) (m : MethodRename) : Bool :=
  m.oldName == name && m.descriptor == descriptor

/-- Renames the parameter in a slot. Its row becomes the last one. -/
def addParam (p : ParameterRename) (m : MethodRename) : MethodRename :=
  { m with params := m.params.filter (·.slot != p.slot) ++ [p] }

/-- The row of the parameter in a slot. -/
def param? (m : MethodRename) (slot : Nat) : Option ParameterRename :=
  m.params.find? (·.slot == slot)

end MethodRename

/-! ## Classes -/

namespace ClassRename

/-- A class that keeps its name. -/
def identity (name : String) : ClassRename :=
  { oldName := name, newName := name, fields := [], methods := [] }

/-- Renames a field. A row with the same old name is replaced in its place. -/
def addField (f : FieldRename) (c : ClassRename) : ClassRename :=
  { c with fields := upsert (·.oldName == f.oldName) (fun _ => f) f c.fields }

/-- Renames a method. A row for the same method keeps its place and its parameters. -/
def addMethod (name descriptor newName : String) (c : ClassRename) : ClassRename :=
  { c with
    methods := upsert (MethodRename.isFor name descriptor) (fun m => { m with newName })
      { oldName := name, descriptor, newName, params := [] } c.methods }

/-- Renames a parameter of a method that has a row. -/
def addParam (name descriptor : String) (p : ParameterRename) (c : ClassRename) : ClassRename :=
  { c with
    methods := c.methods.map fun m => if m.isFor name descriptor then m.addParam p else m }

/-- The row of a field. It does not count for another descriptor than its own. -/
def field? (c : ClassRename) (name : String) (descriptor : Option String) : Option FieldRename :=
  (c.fields.find? (·.oldName == name)).filter fun f =>
    match f.descriptor, descriptor with
    | some known, some wanted => known == wanted
    | _, _ => true

/-- The row of a method. -/
def method? (c : ClassRename) (name descriptor : String) : Option MethodRename :=
  c.methods.find? (MethodRename.isFor name descriptor)

end ClassRename

/-! ## Tables -/

namespace RenameTable

/-- The table without rows. -/
def empty : RenameTable := ⟨[]⟩

/-- The number of class rows. -/
def size (t : RenameTable) : Nat :=
  t.classes.length

/-- Whether there are no rows. -/
def isEmpty (t : RenameTable) : Bool :=
  t.classes.isEmpty

/-- Changes the row of a class. A class without one first gets a row that keeps its name. -/
def modifyClass (t : RenameTable) (oldName : String) (f : ClassRename → ClassRename) :
    RenameTable :=
  ⟨upsert (·.oldName == oldName) f (f (.identity oldName)) t.classes⟩

/-- Renames a class. What its row says of members stays. -/
def addClass (t : RenameTable) (oldName newName : String) : RenameTable :=
  t.modifyClass oldName fun c => { c with newName }

/-- Renames a field of a class. -/
def addField (t : RenameTable) (owner : String) (f : FieldRename) : RenameTable :=
  t.modifyClass owner (·.addField f)

/-- Renames a method of a class. -/
def addMethod (t : RenameTable) (owner name descriptor newName : String) : RenameTable :=
  t.modifyClass owner (·.addMethod name descriptor newName)

/-- Renames a parameter of a method that has a row. -/
def addParam (t : RenameTable) (owner name descriptor : String) (p : ParameterRename) :
    RenameTable :=
  t.modifyClass owner (·.addParam name descriptor p)

/-! ## Looking up -/

/-- The row of a class. -/
def class? (t : RenameTable) (oldName : String) : Option ClassRename :=
  t.classes.find? (·.oldName == oldName)

/-- The new name in the row of a class. -/
def className? (t : RenameTable) (oldName : String) : Option String :=
  (t.class? oldName).map (·.newName)

/-- The new name in the row of a field. -/
def fieldName? (t : RenameTable) (owner name : String) (descriptor : Option String) :
    Option String :=
  ((t.class? owner).bind (·.field? name descriptor)).map (·.newName)

/-- The new name in the row of a method. -/
def methodName? (t : RenameTable) (owner name descriptor : String) : Option String :=
  ((t.class? owner).bind (·.method? name descriptor)).map (·.newName)

/-- The new name in the row of a parameter. -/
def parameterName? (t : RenameTable) (owner method descriptor : String) (slot : Nat) :
    Option String :=
  (((t.class? owner).bind (·.method? method descriptor)).bind (·.param? slot)).map (·.newName)

/-! ## Class names -/

/-- Whether a class with a name of this length has a row. -/
def hasNameOfLength (t : RenameTable) (length : Nat) : Bool :=
  t.classes.any (·.oldName.length == length)

/-- The new name of the class `front ++ back`, where the front is given with its length and in
reverse, and the back holds no place at which the front should be cut. A front is looked up only if
its length is that of a name in the table. -/
def newNestedName? (t : RenameTable) : (length : Nat) → (front back : List Char) → Option String
  | length + 1, c :: front, back =>
    if c = '$' && t.hasNameOfLength length then
      match t.className? (String.ofList front.reverse) with
      | some newName => some (newName ++ String.ofList ('$' :: back))
      | none => t.newNestedName? length front (c :: back)
    else t.newNestedName? length front (c :: back)
  | _, _, _ => none

/-- The new name of a class. A nested class without a row of its own follows the closest class
around it that has one. -/
def newClassName (t : RenameTable) (name : String) : String :=
  match t.className? name with
  | some newName => newName
  | none => (t.newNestedName? name.length name.toList.reverse []).getD name

/-! ## Inverse -/

/-- Adds what another row says to a table. -/
def merge (t : RenameTable) (c : ClassRename) : RenameTable :=
  let t := t.addClass c.oldName c.newName
  let t := c.fields.foldl (fun t f => t.addField c.oldName f) t
  c.methods.foldl
    (fun t m =>
      m.params.foldl (fun t p => t.addParam c.oldName m.oldName m.descriptor p)
        (t.addMethod c.oldName m.oldName m.descriptor m.newName))
    t

/-- The row that undoes a row, with descriptors in the new names. -/
def reverseClass (t : RenameTable) (c : ClassRename) : Except DescriptorError ClassRename := do
  let fields ← c.fields.mapM fun f => do
    let descriptor ← f.descriptor.mapM (renameDescriptor t.newClassName)
    return { oldName := f.newName, newName := f.oldName, descriptor : FieldRename }
  let methods ← c.methods.mapM fun m => do
    let descriptor ← renameDescriptor t.newClassName m.descriptor
    let params := m.params.map fun p => { p with oldName := p.newName, newName := p.oldName }
    return { oldName := m.newName, descriptor, newName := m.oldName, params : MethodRename }
  return { oldName := c.newName, newName := c.oldName, fields, methods }

/-- The inverse table. -/
def reverse (t : RenameTable) : Except DescriptorError RenameTable := do
  return (← t.classes.mapM t.reverseClass).foldl merge empty

/-! ## Agreement -/

/-- Whether two lists of rows have the same rows in some order. Rows with the same key count as the
same if `same` says so. -/
def agreeBy {α : Type} (sameKey same : α → α → Bool) (a b : List α) : Bool :=
  a.length == b.length && a.all fun row => (b.find? (sameKey row)).any (same row)

/-- Whether two rows say the same of a class. Only the order of parameters counts. -/
def classesAgree (a b : ClassRename) : Bool :=
  a.oldName == b.oldName && a.newName == b.newName &&
    agreeBy (fun f g => f.oldName == g.oldName) (· == ·) a.fields b.fields &&
    agreeBy (fun m n => n.isFor m.oldName m.descriptor) (· == ·) a.methods b.methods

/-- Whether two tables say the same, the order of their rows aside. -/
def agrees (a b : RenameTable) : Bool :=
  agreeBy (fun c d => c.oldName == d.oldName) classesAgree a.classes b.classes

end RenameTable

end JarRemap
