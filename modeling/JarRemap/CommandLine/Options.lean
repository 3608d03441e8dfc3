import JarRemap.Text.Split

/-!
# Options

How arguments are taken apart: `--name value` and `--name=value`, `-n value`, `-nvalue` and
`-n=value`, and arguments that are no options. After `--` nothing is an option any more.

Arguments are read from left to right, and the first fault ends the reading, as does a request for
help. An option stores its value in a state of a type that the grammar chooses.
-/

namespace JarRemap

/-- Why arguments are not carried out. -/
inductive Refusal where
  | usage
  | help
  deriving DecidableEq, Repr

/-- How an option takes its value. -/
inductive ValueRule where
  /-- It has none. -/
  | never
  /-- It must have one. -/
  | always
  /-- It may have one after an equals sign, and else has this one. -/
  | afterEquals (otherwise : String)

/-- An option. -/
structure OptionRule (σ : Type) where
  /-- Its long names, without dashes. -/
  names : List String
  letter : Option Char
  value : ValueRule
  /-- Whether it may be given more than once. -/
  repeats : Bool
  /-- Stores the value, unless it is refused. -/
  store : String → σ → Option σ

/-- The options that may be given, and what becomes of the arguments that are no options. -/
structure ArgumentGrammar (σ : Type) where
  options : List (OptionRule σ)
  /-- Stores the argument at a position, unless there is no such position or the argument is
  refused. -/
  position : Nat → String → σ → Option σ

namespace ArgumentGrammar

variable {σ : Type} (g : ArgumentGrammar σ)

/-- What has been read: the state, the options that were given, by their first names, and how many
arguments stood at positions. -/
structure Progress (σ : Type) where
  state : σ
  given : List String
  positions : Nat

/-- The name under which an option counts as given. -/
def optionName (o : OptionRule σ) : String :=
  o.names.headD ""

/-- Stores the value of an option. -/
def give (o : OptionRule σ) (value : String) (p : Progress σ) : Except Refusal (Progress σ) :=
  if !o.repeats && p.given.contains (optionName o) then .error .usage
  else
    match o.store value p.state with
    | some state => .ok { p with state, given := optionName o :: p.given }
    | none => .error .usage

/-- Stores an argument at the next position. -/
def giveNext (value : String) (p : Progress σ) : Except Refusal (Progress σ) :=
  match g.position p.positions value p.state with
  | some state => .ok { p with state, positions := p.positions + 1 }
  | none => .error .usage

/-- Whether an argument looks like an option, so that it cannot be a value. -/
def looksLikeOption (argument : String) : Bool :=
  Text.beginsWith '-' argument && argument != "-"

/-- An argument by its looks. -/
inductive Look where
  | endOfOptions
  /-- A long name, and the value behind an equals sign. -/
  | long (name : String) (value : Option String)
  /-- A letter, and the value behind it. -/
  | short (letter : Char) (value : Option String)
  | plain

/-- How an argument looks. -/
def look (argument : String) : Look :=
  match argument.toList with
  | ['-', '-'] => .endOfOptions
  | '-' :: '-' :: rest =>
    match Text.cutFirst? '=' rest with
    | some (name, value) => .long (String.ofList name) (some (String.ofList value))
    | none => .long (String.ofList rest) none
  | ['-', letter] => .short letter none
  | '-' :: letter :: '=' :: value => .short letter (some (String.ofList value))
  | '-' :: letter :: value => .short letter (some (String.ofList value))
  | _ => .plain

/-- Takes an option with the value that belongs to it. Where the value has to be the next argument,
`next` goes on from there. -/
def takeOption (o : OptionRule σ) (value : Option String) (p : Progress σ)
    (done : Progress σ → Except Refusal (Progress σ))
    (next : (String → Except Refusal (Progress σ)) → Except Refusal (Progress σ)) :
    Except Refusal (Progress σ) :=
  match o.value, value with
  | .never, none => do done (← give o "" p)
  | .never, some _ => .error .usage
  | .afterEquals otherwise, value => do done (← give o (value.getD otherwise) p)
  | .always, some value => do done (← give o value p)
  | .always, none => next fun value => give o value p

/-- Reads arguments. -/
def read (p : Progress σ) : List String → Except Refusal (Progress σ)
  | [] => .ok p
  | argument :: rest =>
    let next := fun (store : String → Except Refusal (Progress σ)) =>
      match rest with
      | [] => .error .usage
      | value :: rest =>
        if looksLikeOption value then .error .usage else do read (← store value) rest
    match look argument with
    | .endOfOptions => rest.foldlM (fun p argument => g.giveNext argument p) p
    | .plain => do read (← g.giveNext argument p) rest
    | .long name value =>
      if name == "help" then .error (if value.isSome then .usage else .help)
      else
        match g.options.find? (·.names.contains name) with
        | some o => takeOption o value p (read · rest) next
        | none => .error .usage
    | .short letter value =>
      if letter == 'h' then .error .help
      else
        match g.options.find? (·.letter == some letter) with
        | some o => takeOption o value p (read · rest) next
        | none => .error .usage

/-- Reads all arguments into a state. -/
def parse (start : σ) (arguments : List String) : Except Refusal σ :=
  (g.read ⟨start, [], 0⟩ arguments).map (·.state)

end ArgumentGrammar

end JarRemap
