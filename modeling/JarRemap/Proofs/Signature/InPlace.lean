import JarRemap.Bytes
import JarRemap.Signature.Parser

/-!
# Reading signatures in place

The readers of signatures take characters off the front of a list. The readers here follow the same
grammars over the whole text: a cursor counts the bytes of its UTF-8 form, looks at one of them at a
time and moves on by one. Names, and the characters that errors tell, are cut out of the text
between two positions, which is only possible where a character begins or the text ends. A cut
elsewhere stops the reading with an outcome of its own (`Stop.badCut`), as does the bound on the
depth (`Stop.tooDeep`), so that it can be told that neither happens.
-/

namespace JarRemap.Signature.InPlace

/-- Why reading in place stops. -/
inductive Stop where
  | truncated
  | unexpected (position : Nat) (char : Char)
  | unbalanced
  /-- A cut within a character or behind the end. -/
  | badCut
  /-- The bound on the depth has been reached. -/
  | tooDeep
  deriving DecidableEq, Repr

/-- The error that a stop in a text is reported with. A bad cut and a depth that was reached are no
errors of the text. -/
def Stop.toError? (text : String) : Stop → Option SignatureError
  | .truncated => some (.truncated text)
  | .unexpected position char => some (.unexpected text position char)
  | .unbalanced => some (.unbalanced text)
  | .badCut | .tooDeep => none

/-- A computation that moves the cursor. -/
abbrev Walk (α : Type) := StateT Nat (Except Stop) α

/-- The bytes of a text. -/
def bytesOf (text : String) : Bytes :=
  text.toUTF8.data.toList

/-! ## Cutting -/

/-- Whether a character begins at this position, or the text ends there. -/
def isBoundary (bytes : Bytes) (position : Nat) : Bool :=
  match bytes[position]? with
  | some b => b < 0x80 || 0xc0 ≤ b
  | none => position == bytes.length

/-- The text between two positions. -/
def cut (bytes : Bytes) (start stop : Nat) : Except Stop String :=
  if start ≤ stop && isBoundary bytes start && isBoundary bytes stop then
    match String.fromUTF8? ⟨((bytes.drop start).take (stop - start)).toArray⟩ with
    | some s => .ok s
    | none => .error .badCut
  else .error .badCut

section

variable (bytes : Bytes) {α : Type}

/-! ## The cursor -/

/-- The byte at the cursor. -/
def peek : Walk (Option UInt8) := do
  return bytes[← get]?

/-- Whether the cursor is at the end of the text. -/
def atEnd : Walk Bool := do
  return bytes.length ≤ (← get)

/-- Moves on by a byte. -/
def bump : Walk Unit :=
  modify (· + 1)

/-- Stops with the character at the cursor. -/
def unexpected : Walk α := do
  let position ← get
  let rest ← cut bytes position bytes.length
  match rest.toList with
  | [] => throw .truncated
  | c :: _ => throw (.unexpected position c)

/-- Takes the byte of `c`. -/
def expect (c : Char) : Walk Unit := do
  match ← peek bytes with
  | none => throw .truncated
  | some b => if b = c.toUInt8 then bump else unexpected bytes

/-- Nothing may follow. -/
def finish : Walk Unit := do
  if !(← atEnd bytes) then unexpected bytes

/-- The position of the first of `stops` among the bytes from a position on, or behind them. -/
def skip (stops : Bytes) : Bytes → Nat → Nat
  | [], position => position
  | b :: rest, position =>
    if stops.contains b then position else skip stops rest (position + 1)

/-- Takes a name, which is not empty and ends before the first of `stops`. -/
def name (stops : List Char) : Walk String := do
  let start ← get
  let stop := skip (stops.map Char.toUInt8) (bytes.drop start) start
  set stop
  if stop = start then
    if ← atEnd bytes then throw .truncated else unexpected bytes
  else cut bytes start stop

/-- Reads parts after those in `done`, which stand in reverse, as long as `more` asks for another.
There are at most `bound` of them. -/
def parts (more : Option UInt8 → Bool) (part : Walk α) : Nat → List α → Walk (List α)
  | bound, done => do
    if more (← peek bytes) then
      match bound with
      | 0 => throw .tooDeep
      | bound + 1 => do
        let a ← part
        parts more part bound (a :: done)
    else return done.reverse

/-! ## Types -/

/-- Reads a primitive type, or a type that `reference` reads. -/
def type (reference : Walk TypeSignature) : Walk TypeSignature := do
  match ← peek bytes with
  | none => reference
  | some b =>
    match Primitive.ofLetter? (Char.ofUInt8 b) with
    | none => reference
    | some p => do
      bump
      return .primitive p

/-- Reads the arguments of a segment with their brackets, if it has any. -/
def bracketed (arguments : Walk (List TypeArgument)) : Walk (List TypeArgument) := do
  if (← peek bytes) = some '<'.toUInt8 then do
    expect bytes '<'
    arguments
  else return []

/-- Reads what follows the segment `s` up to the end of the class type, where `segments` reads the
segments behind a dot. -/
def nested (segments : Walk ClassType) (s : ClassSegment) : Walk ClassType := do
  match ← peek bytes with
  | none => throw .truncated
  | some b =>
    if b = ';'.toUInt8 then do
      bump
      return .mk s []
    else if b = '.'.toUInt8 then do
      bump
      let .mk next inner ← segments
      return .mk s (next :: inner)
    else if b = '>'.toUInt8 then throw .unbalanced
    else unexpected bytes

mutual

/-- Reads a type that is not primitive. -/
def reference : Nat → Walk TypeSignature
  | 0 => throw .tooDeep
  | depth + 1 => do
    match ← peek bytes with
    | none => throw .truncated
    | some b =>
      if b = 'L'.toUInt8 then do
        expect bytes 'L'
        return .classType (← segments depth)
      else if b = 'T'.toUInt8 then do
        bump
        let variableName ← name bytes variableStops
        expect bytes ';'
        return .typeVariable variableName
      else if b = '['.toUInt8 then do
        bump
        return .array (← type bytes (reference depth))
      else unexpected bytes

/-- Reads the segments of a class type and the semicolon that ends it. -/
def segments : Nat → Walk ClassType
  | 0 => throw .tooDeep
  | depth + 1 => do
    let outer ← name bytes classStops
    let args ← bracketed bytes (arguments depth [])
    nested bytes (segments depth) (.mk outer args)

/-- Reads type arguments after those in `done`, which stand in reverse, and the bracket that closes
them. There is at least one. -/
def arguments : Nat → List TypeArgument → Walk (List TypeArgument)
  | 0, _ => throw .tooDeep
  | depth + 1, done => do
    match ← peek bytes with
    | none => throw .unbalanced
    | some b =>
      if b = '>'.toUInt8 then do
        bump
        if done.isEmpty then throw .unbalanced else return done.reverse
      else if b = '*'.toUInt8 then do
        bump
        arguments depth (.any :: done)
      else if b = '+'.toUInt8 then do
        bump
        let t ← reference depth
        arguments depth (.bounded .below t :: done)
      else if b = '-'.toUInt8 then do
        bump
        let t ← reference depth
        arguments depth (.bounded .above t :: done)
      else do
        let t ← reference depth
        arguments depth (.bounded .exactly t :: done)

end

/-- Reads a class type. -/
def classType (depth : Nat) : Walk ClassType := do
  expect bytes 'L'
  segments bytes depth

/-- Reads types that each follow the character `mark`. -/
def marked (depth : Nat) (mark : Char) : Walk (List TypeSignature) :=
  parts bytes (· == some mark.toUInt8) (do bump; reference bytes depth) depth []

/-! ## Type parameters -/

/-- Reads a class bound, if one begins here. -/
def classBound (depth : Nat) : Walk (Option TypeSignature) := do
  let b ← peek bytes
  if b = some 'L'.toUInt8 ∨ b = some 'T'.toUInt8 ∨ b = some '['.toUInt8 then
    return some (← reference bytes depth)
  else return none

/-- Reads a type parameter. -/
def typeParameter (depth : Nat) : Walk TypeParameter := do
  let parameter ← name bytes parameterStops
  expect bytes ':'
  let bound ← classBound bytes depth
  let interfaceBounds ← marked bytes depth ':'
  return ⟨parameter, bound, interfaceBounds⟩

/-- Reads the type parameters in front of a signature, if an angle bracket opens them. -/
def typeParameters (depth : Nat) : Walk (List TypeParameter) := do
  if (← peek bytes) = some '<'.toUInt8 then do
    bump
    let params ← parts bytes (fun b => b.isSome && b != some '>'.toUInt8)
      (typeParameter bytes depth) depth []
    match ← peek bytes with
    | none => throw .unbalanced
    | some _ => do
      bump
      if params.isEmpty then unexpected bytes else return params
  else return []

/-! ## Whole signatures -/

/-- Reads a return type, where `V` stands for none. -/
def returnType (depth : Nat) : Walk (Option TypeSignature) := do
  if (← peek bytes) = some 'V'.toUInt8 then do
    bump
    return none
  else return some (← type bytes (reference bytes depth))

/-- Reads a class signature. -/
def classSignature (depth : Nat) : Walk ClassSignature := do
  let typeParams ← typeParameters bytes depth
  let superclass ← classType bytes depth
  let interfaces ← parts bytes Option.isSome (classType bytes depth) depth []
  return ⟨typeParams, superclass, interfaces⟩

/-- Reads a method signature. -/
def methodSignature (depth : Nat) : Walk MethodSignature := do
  let typeParams ← typeParameters bytes depth
  expect bytes '('
  let params ← parts bytes (· != some ')'.toUInt8) (type bytes (reference bytes depth)) depth []
  expect bytes ')'
  let ret ← returnType bytes depth
  let throws ← marked bytes depth '^'
  return ⟨typeParams, params, ret, throws⟩

end

/-- Reads all of a text. -/
def whole {α : Type} (read : Bytes → Nat → Walk α) (text : String) : Except Stop α := do
  let bytes := bytesOf text
  let walk : Walk α := do
    let a ← read bytes (depthFor text.toList)
    finish bytes
    return a
  walk.run' 0

/-- Reads a text that is a signature of the given kind. -/
def parse (kind : SignatureKind) (text : String) : Except Stop Signature :=
  match kind with
  | .ofClass => (whole classSignature text).map .ofClass
  | .ofMethod => (whole methodSignature text).map .ofMethod
  | .ofField => (whole reference text).map .ofField

end JarRemap.Signature.InPlace
