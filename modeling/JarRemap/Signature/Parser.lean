import JarRemap.Signature.Rename
import JarRemap.Text.Utf8

/-!
# Reading signatures

The functions named `read` take a part from the front of some characters and give the rest; a fault
holds the characters at which reading stopped. Types, segments and arguments contain each other, so
these three take a bound on the depth of the recursion; twice the length of the text is never
reached, because of two nested calls at least one takes a character. The same bound, which is
computed once for a text, serves for the number of parts in a row.
-/

namespace JarRemap

/-- Why a text is no signature. -/
inductive SignatureError where
  | truncated (text : String)
  | unexpected (text : String) (position : Nat) (char : Char)
  /-- Angle brackets do not match or hold nothing. -/
  | unbalanced (text : String)
  deriving DecidableEq, Repr

/-- The text of an error. -/
def SignatureError.message : SignatureError → String
  | .truncated text => s!"unexpected end of signature `{text}`"
  | .unexpected text position char =>
    s!"unexpected character '{char}' at {position} in signature `{text}`"
  | .unbalanced text => s!"unbalanced nesting in signature `{text}`"

/-- Where and why reading stopped. -/
inductive SignatureFault where
  | truncated
  | unexpected (char : Char) (after : List Char)
  | unbalanced
  deriving DecidableEq, Repr

/-- The error that a fault in a text amounts to. -/
def SignatureFault.toError (text : String) : SignatureFault → SignatureError
  | .truncated => .truncated text
  | .unexpected char after =>
    .unexpected text (Text.offsetOf text.toList (char :: after)) char
  | .unbalanced => .unbalanced text

namespace Signature

/-- Takes a part from the front of some characters and gives the rest. -/
abbrev Step (α : Type) := List Char → Except SignatureFault (α × List Char)

/-! ## Characters and names -/

/-- The fault of stopping here. -/
def faultAt : List Char → SignatureFault
  | [] => .truncated
  | c :: after => .unexpected c after

/-- Takes the character `c`. -/
def expect (c : Char) : Step Unit
  | [] => .error .truncated
  | d :: rest => if d = c then .ok ((), rest) else .error (.unexpected d rest)

/-- Takes a name, which is not empty and ends before the first of `stops`. -/
def readName (stops : List Char) : Step String := fun s =>
  match s.takeWhile fun c => !stops.contains c with
  | [] => .error (faultAt s)
  | name => .ok (String.ofList name, s.dropWhile fun c => !stops.contains c)

/-- What ends the name of a class. -/
def classStops : List Char := [';', '<', '>', '.']

/-- What ends the name of a type variable. -/
def variableStops : List Char := [';', '<', '>', '.', ':', '/']

/-- What ends the name of a type parameter. -/
def parameterStops : List Char := [':', ';', '<', '>', '.']

/-! ## Types -/

/-- Reads a primitive type, or a type that `reference` reads. -/
def readType (reference : Step TypeSignature) : Step TypeSignature := fun s =>
  match s with
  | [] => reference s
  | c :: rest =>
    match Primitive.ofLetter? c with
    | some p => .ok (.primitive p, rest)
    | none => reference s

mutual

/-- Reads a type that is not primitive. -/
def readReference : Nat → Step TypeSignature
  | 0, _ => .error .truncated
  | _ + 1, [] => .error .truncated
  | depth + 1, c :: rest =>
    if c = 'L' then do
      let (t, rest) ← readSegments depth rest
      .ok (.classType t, rest)
    else if c = 'T' then do
      let (name, rest) ← readName variableStops rest
      let (_, rest) ← expect ';' rest
      .ok (.typeVariable name, rest)
    else if c = '[' then do
      let (element, rest) ← readType (readReference depth) rest
      .ok (.array element, rest)
    else .error (.unexpected c rest)

/-- Reads the segments of a class type and the semicolon that ends it. -/
def readSegments : Nat → Step ClassType
  | 0, _ => .error .truncated
  | depth + 1, s => do
    let (name, rest) ← readName classStops s
    let (args, rest) ←
      match rest with
      | '<' :: rest => readArguments depth [] rest
      | _ => .ok ([], rest)
    match rest with
    | [] => .error .truncated
    | c :: rest =>
      if c = ';' then .ok (.mk (.mk name args) [], rest)
      else if c = '.' then do
        let (.mk next inner, rest) ← readSegments depth rest
        .ok (.mk (.mk name args) (next :: inner), rest)
      else if c = '>' then .error .unbalanced
      else .error (.unexpected c rest)

/-- Reads type arguments after those in `done`, which stand in reverse, and the bracket that closes
them. There is at least one. -/
def readArguments : Nat → List TypeArgument → Step (List TypeArgument)
  | 0, _, _ => .error .truncated
  | _ + 1, _, [] => .error .unbalanced
  | depth + 1, done, c :: rest =>
    if c = '>' then
      if done.isEmpty then .error .unbalanced else .ok (done.reverse, rest)
    else if c = '*' then readArguments depth (.any :: done) rest
    else do
      let (bound, rest) :=
        if c = '+' then (ArgumentBound.below, rest)
        else if c = '-' then (.above, rest)
        else (.exactly, c :: rest)
      let (t, rest) ← readReference depth rest
      readArguments depth (.bounded bound t :: done) rest

end

/-- A depth that reading these characters does not reach. -/
def depthFor (s : List Char) : Nat :=
  2 * s.length + 2

/-- Reads a class type. -/
def readClassType (depth : Nat) : Step ClassType := fun s => do
  let (_, rest) ← expect 'L' s
  readSegments depth rest

/-! ## Rows of parts -/

/-- Reads parts after those in `done`, which stand in reverse, as long as `more` asks for another.
There are at most `bound` of them. -/
def readWhile {α : Type} (more : List Char → Bool) (part : Step α) : Nat → List α → Step (List α)
  | bound, done, s =>
    if more s then
      match bound with
      | 0 => .error .truncated
      | bound + 1 => do
        let (a, rest) ← part s
        readWhile more part bound (a :: done) rest
    else .ok (done.reverse, s)

/-- Reads parts as long as `more` asks for another. -/
def readParts {α : Type} (bound : Nat) (more : List Char → Bool) (part : Step α) :
    Step (List α) :=
  readWhile more part bound []

/-- Reads types that each follow the character `mark`. -/
def readMarked (depth : Nat) (mark : Char) : Step (List TypeSignature) :=
  readParts depth (fun s => s.head? == some mark) fun s => do
    let (_, rest) ← expect mark s
    readReference depth rest

/-! ## Type parameters -/

/-- Whether a class bound begins here. -/
def beginsReference (s : List Char) : Bool :=
  match s with
  | c :: _ => c == 'L' || c == 'T' || c == '['
  | [] => false

/-- Reads a type parameter. -/
def readTypeParameter (depth : Nat) : Step TypeParameter := fun s => do
  let (name, rest) ← readName parameterStops s
  let (_, rest) ← expect ':' rest
  let (classBound, rest) ←
    if beginsReference rest then do
      let (t, rest) ← readReference depth rest
      .ok (some t, rest)
    else .ok (none, rest)
  let (interfaceBounds, rest) ← readMarked depth ':' rest
  .ok (⟨name, classBound, interfaceBounds⟩, rest)

/-- Reads the type parameters in front of a signature, if an angle bracket opens them. -/
def readTypeParameters (depth : Nat) : Step (List TypeParameter) := fun s =>
  match s with
  | '<' :: rest => do
    let (params, rest) ←
      readParts depth (fun s => !s.isEmpty && s.head? != some '>') (readTypeParameter depth) rest
    match rest with
    | [] => .error .unbalanced
    | _ :: rest => if params.isEmpty then .error (faultAt rest) else .ok (params, rest)
  | _ => .ok ([], s)

/-! ## Whole signatures -/

/-- Nothing may follow a signature. -/
def readEnd {α : Type} : α × List Char → Except SignatureFault α
  | (a, []) => .ok a
  | (_, rest) => .error (faultAt rest)

/-- Reads a return type, where `V` stands for none. -/
def readReturn (depth : Nat) : Step (Option TypeSignature)
  | 'V' :: rest => .ok (none, rest)
  | s => do
    let (t, rest) ← readType (readReference depth) s
    .ok (some t, rest)

/-- Reads a class signature. -/
def readClass (depth : Nat) : Step ClassSignature := fun s => do
  let (typeParams, rest) ← readTypeParameters depth s
  let (superclass, rest) ← readClassType depth rest
  let (interfaces, rest) ← readParts depth (fun s => !s.isEmpty) (readClassType depth) rest
  .ok (⟨typeParams, superclass, interfaces⟩, rest)

/-- Reads a method signature. -/
def readMethod (depth : Nat) : Step MethodSignature := fun s => do
  let (typeParams, rest) ← readTypeParameters depth s
  let (_, rest) ← expect '(' rest
  let (params, rest) ←
    readParts depth (fun s => s.head? != some ')') (readType (readReference depth)) rest
  let (_, rest) ← expect ')' rest
  let (ret, rest) ← readReturn depth rest
  let (throws, rest) ← readMarked depth '^' rest
  .ok (⟨typeParams, params, ret, throws⟩, rest)

/-- Reads all of a text with `read`, which is given a depth that it does not reach. -/
def whole {α : Type} (read : Nat → Step α) (text : String) : Except SignatureError α :=
  let s := text.toList
  (read (depthFor s) s >>= readEnd).mapError (·.toError text)

end Signature

/-- Reads a text that is a class signature. -/
def ClassSignature.parse : String → Except SignatureError ClassSignature :=
  Signature.whole Signature.readClass

/-- Reads a text that is a method signature. -/
def MethodSignature.parse : String → Except SignatureError MethodSignature :=
  Signature.whole Signature.readMethod

/-- Reads a text that is a field signature: a type that is not primitive. -/
def TypeSignature.parse : String → Except SignatureError TypeSignature :=
  Signature.whole Signature.readReference

/-- Reads a text that is a signature of the given kind. -/
def Signature.parse (kind : SignatureKind) (text : String) : Except SignatureError Signature :=
  match kind with
  | .ofClass => (ClassSignature.parse text).map .ofClass
  | .ofMethod => (MethodSignature.parse text).map .ofMethod
  | .ofField => (TypeSignature.parse text).map .ofField

/-- Renames every class in the text of a signature. -/
def renameSignature (f : String → String) (kind : SignatureKind) (text : String) :
    Except SignatureError String :=
  (Signature.parse kind text).map fun s => (s.rename f).text

end JarRemap
