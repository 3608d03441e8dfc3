/-!
# Programs

A program performs operations one at a time and goes on with what each of them answers. What an
operation does is not the business of the program: it can be run on a state by itself, or a step at
a time beside other programs.
-/

namespace JarRemap

/-- A computation that performs operations. -/
inductive Program {Op : Type} (Answer : Op → Type) (α : Type) where
  | done (a : α)
  | step (op : Op) (next : Answer op → Program Answer α)

namespace Program

variable {Op : Type} {Answer : Op → Type} {α β : Type}

/-- Goes on with another program. -/
def bind : Program Answer α → (α → Program Answer β) → Program Answer β
  | done a, f => f a
  | step op next, f => step op fun answer => (next answer).bind f

instance : Monad (Program Answer) where
  pure := done
  bind := bind

/-- Performs one operation. -/
def ask (op : Op) : Program Answer (Answer op) :=
  step op done

/-- Performs all operations with `perform`. -/
def run {m : Type → Type} [Monad m] (perform : (op : Op) → m (Answer op)) :
    Program Answer α → m α
  | done a => pure a
  | step op next => do run perform (next (← perform op))

end Program

end JarRemap
