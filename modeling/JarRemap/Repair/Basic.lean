import JarRemap.ClassFile.Edit
import JarRemap.Rename.Remapper

/-!
# Repairs

A repair changes a class only if something is wrong with it, and says whether it did. Its state is
the class; when it fails, the state is what it had made of the class by then.
-/

namespace JarRemap

/-- A computation that repairs a class and asks others for help in `m`. -/
abbrev RepairEditOver (m : Type → Type) := ExceptT TransformError (StateT ClassFile m)

/-- A computation that repairs a class on its own. -/
abbrev RepairEdit := RepairEditOver Id

namespace RepairEdit

/-- Edits the class. -/
def edit {α : Type} (x : ClassEdit α) : RepairEdit α := fun c =>
  match x c with
  | (outcome, c) => (outcome.mapError .classFile, c)

/-- Does without the help that there would be. -/
def unaided {m : Type → Type} [Monad m] {α : Type} (x : RepairEdit α) : RepairEditOver m α :=
  fun c => pure (x c)

/-- Makes a repair only if it is chosen. -/
def ifChosen {m : Type → Type} [Monad m] (chosen : Bool) (x : RepairEditOver m Bool) :
    RepairEditOver m Bool :=
  if chosen then x else pure false

end RepairEdit

/-- Repairs the rows of a list in order, up to the first that fails. That row is kept as far as it
was repaired, and those behind it as they were. -/
def repairEach {σ α ε : Type} (f : α → StateM σ (α × Option ε)) :
    List α → StateM σ (List α × Option ε)
  | [] => pure ([], none)
  | a :: rest => do
    let (a, failure) ← f a
    match failure with
    | some e => return (a :: rest, some e)
    | none =>
      let (rest, failure) ← repairEach f rest
      return (a :: rest, failure)

end JarRemap
