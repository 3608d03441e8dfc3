import JarRemap.Hierarchy.ClassPath

/-!
# Walking up the hierarchy

A walk visits the ancestors of a class: depth first, the superclass before the interfaces, and each
one once. It ends at the first ancestor for which the visit gives an answer. An ancestor that cannot
be found ends its branch, and one that is its own ancestor ends the walk with an error.

The walk is written over an arbitrary monad in which classes are looked up and visited, so that it
can be run on a class path alone or on one with a memory.

## Termination

Every class that is found and entered is struck off the list of names to be met, which the class
path bounds; between two of these steps the classes that wait only become fewer.
-/

namespace JarRemap

/-- Why the hierarchy gives no answer. -/
inductive HierarchyError where
  /-- The class is its own ancestor. -/
  | cycle (name : String)
  /-- The library cannot be opened. -/
  | library (path : String)
  deriving DecidableEq, Repr

/-- The text of an error. -/
def HierarchyError.message : HierarchyError → String
  | .cycle name => s!"class '{name}' is its own ancestor"
  | .library path => s!"could not open library '{path}'"

namespace Walk

/-- A class whose supertypes are being visited. -/
structure Frame where
  /-- The class itself and the classes through which the walk came to it. -/
  branch : List String
  /-- The supertypes that wait. -/
  waiting : List String

/-- How much waits in some frames. -/
def load (frames : List Frame) : Nat :=
  frames.foldr (fun f n => f.waiting.length + 1 + n) 0

/-- The frame of a class that is entered from another branch. -/
def Frame.enter (branch : List String) (c : ClassShape) : Frame :=
  ⟨c.name :: branch, c.parents⟩

/-- Goes on with the frames, innermost first. A name that is not `unmet` any more was visited on
another branch or has no class file; it is looked up, so that a memory keeps the miss, and
passed. -/
def run {m : Type → Type} [Monad m] {α : Type} (find : String → m (Option ClassShape))
    (visit : ClassShape → m (Option α)) (frames : List Frame) (unmet : List String) :
    m (Except HierarchyError (Option α)) :=
  match frames with
  | [] => pure (.ok none)
  | ⟨_, []⟩ :: frames => run find visit frames unmet
  | ⟨branch, parent :: waiting⟩ :: frames =>
    let frames := ⟨branch, waiting⟩ :: frames
    if branch.contains parent then pure (.error (.cycle parent))
    else do
      let found ← find parent
      if h : parent ∈ unmet then
        let unmet' := unmet.filter (· != parent)
        have : unmet'.length < unmet.length :=
          List.length_filter_lt_length_iff_exists.2 ⟨parent, h, by simp⟩
        match found with
        | none => run find visit frames unmet'
        | some c =>
          match ← visit c with
          | some a => pure (.ok (some a))
          | none => run find visit (.enter branch c :: frames) unmet'
      else run find visit frames unmet
termination_by (unmet.length, load frames)
decreasing_by
  all_goals simp only [load, List.foldr_cons, List.length_cons]
  · exact Prod.Lex.right _ (by omega)
  · exact Prod.Lex.left _ _ ‹_›
  · exact Prod.Lex.left _ _ ‹_›
  · exact Prod.Lex.right _ (by omega)

/-- Visits the ancestors of a class, if it can be found. -/
def ancestors {m : Type → Type} [Monad m] {α : Type} (find : String → m (Option ClassShape))
    (names : List String) (visit : ClassShape → m (Option α)) (name : String) :
    m (Except HierarchyError (Option α)) := do
  match ← find name with
  | none => return .ok none
  | some c => run find visit [.enter [] c] names

end Walk

end JarRemap
