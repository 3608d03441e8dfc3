import JarRemap.Rename.Renaming
import JarRemap.Repair.Choice
import JarRemap.Run.Program

/-!
# What the classes of a run share

Classes are processed side by side. What they share is remembered answers about the hierarchy, the
lines of abstract methods, and counters. `SharedAccess` lists the ways in which the work on a class
gets at them; each is one step, between which others may have theirs. In particular an answer may be
looked for by several before the first of them keeps it.
-/

namespace JarRemap

/-- What a run gathers: the state of the renaming, and each repair once for every class that it has
changed. -/
structure RunState where
  renames : RenamingState
  made : List Repair

/-- The state before the first class. -/
def RunState.start : RunState := ⟨.start, []⟩

/-- One access to what is shared. -/
inductive SharedAccess where
  | knownShape (name : String)
  | keepShape (name : String) (found : Option ClassShape)
  | knownMember (k : MemberKey)
  | keepMember (k : MemberKey) (found : Option String)
  | note (line : String)
  | countRenamed
  | countRepaired (r : Repair)
  deriving DecidableEq

namespace SharedAccess

/-- What an access answers. A remembered answer is wrapped once more. -/
def Answer : SharedAccess → Type
  | knownShape _ => Option (Option ClassShape)
  | knownMember _ => Option (Option String)
  | keepShape .. | keepMember .. | note _ | countRenamed | countRepaired _ => Unit

/-- Does an access. -/
def perform : (access : SharedAccess) → StateM RunState access.Answer
  | knownShape name => fun s => (s.renames.memory.shapes.lookup name, s)
  | keepShape name found => fun s =>
    let memory := { s.renames.memory with shapes := (name, found) :: s.renames.memory.shapes }
    ((), { s with renames := { s.renames with memory } })
  | knownMember k => fun s => (s.renames.memory.members.lookup k, s)
  | keepMember k found => fun s =>
    let memory := { s.renames.memory with members := (k, found) :: s.renames.memory.members }
    ((), { s with renames := { s.renames with memory } })
  | note line => fun s =>
    ((), { s with renames := { s.renames with lines := line :: s.renames.lines } })
  | countRenamed => fun s =>
    ((), { s with renames := { s.renames with changed := s.renames.changed + 1 } })
  | countRepaired r => fun s => ((), { s with made := r :: s.made })

end SharedAccess

/-- Work that gets at what is shared. -/
abbrev Work := Program SharedAccess.Answer

/-- Work that may fail. -/
abbrev Task := ExceptT TransformError Work

namespace Work

/-- Gets at what is shared. -/
def access (a : SharedAccess) : Work a.Answer :=
  Program.ask a

/-- The shape of a class. -/
def shape (path : ClassPath) : String → Work (Option ClassShape) :=
  path.recallWith (fun name => access (.knownShape name)) fun name found =>
    access (.keepShape name found)

/-- The new name of a member. -/
def memberName (r : Remapper) : MemberKey → Work (Except HierarchyError String) :=
  r.recallMemberWith (shape r.classPath) (fun k => access (.knownMember k)) fun k found =>
    access (.keepMember k found)

end Work

namespace Task

/-- The new name of a member. -/
def memberName (r : Remapper) (k : MemberKey) : Task String :=
  ExceptT.mk do return (← Work.memberName r k).mapError .hierarchy

/-- Notes the line of an abstract method. -/
def note (line : String) : Task Unit :=
  liftM (Work.access (.note line))

/-- Counts a class that a renaming changes. -/
def countRenamed : Task Unit :=
  liftM (Work.access .countRenamed)

/-- Counts a class that a repair changes. -/
def countRepaired (r : Repair) : Task Unit :=
  liftM (Work.access (.countRepaired r))

/-- Does the work with nobody beside. -/
def perform {α : Type} (x : Task α) : ExceptT TransformError (StateM RunState) α :=
  ExceptT.mk (Program.run SharedAccess.perform x.run)

end Task

end JarRemap
