import JarRemap.Descriptor.Basic
import JarRemap.Text.Utf8

/-!
# Reading descriptors

The functions ending in `read` take a descriptor from the front of some characters and give the
rest; a fault holds the characters at which reading stopped. `FieldType.parse`,
`MethodDescriptor.parse` and `Descriptor.parse` read a whole text and turn a fault into an error
with its place.
-/

namespace JarRemap

/-- Why a text is no descriptor. -/
inductive DescriptorError where
  | empty
  | unexpected (text : String) (position : Nat) (char : Char)
  /-- The text ends inside a type or before the return type. -/
  | unterminated (text : String)
  /-- A complete descriptor is followed by more. -/
  | trailing (text : String)
  deriving DecidableEq, Repr

/-- The text of an error. -/
def DescriptorError.message : DescriptorError → String
  | .empty => "empty descriptor"
  | .unexpected text position char =>
    s!"unexpected character '{char}' at {position} in `{text}`"
  | .unterminated text => s!"unterminated class name in `{text}`"
  | .trailing text => s!"trailing data in `{text}`"

/-- Where and why reading stopped. -/
inductive DescriptorFault where
  | endOfText
  | unexpected (char : Char) (after : List Char)
  | trailing
  deriving DecidableEq, Repr

/-- The error that a fault in a text amounts to. -/
def DescriptorFault.toError (text : String) : DescriptorFault → DescriptorError
  | .endOfText => if text.isEmpty then .empty else .unterminated text
  | .unexpected char after =>
    .unexpected text (Text.offsetOf text.toList (char :: after)) char
  | .trailing => .trailing text

/-! ## Field types -/

/-- Reads what follows the brackets of a field type. A class name is not empty and ends before the
next semicolon. -/
def BaseType.read : List Char → Except DescriptorFault (BaseType × List Char)
  | [] => .error .endOfText
  | c :: rest =>
    if c = 'L' then
      match Text.cutFirst? ';' rest with
      | none => .error .endOfText
      | some ([], _) => .error (.unexpected c rest)
      | some (name, rest) => .ok (.object (String.ofList name), rest)
    else
      match Primitive.ofLetter? c with
      | some p => .ok (.primitive p, rest)
      | none => .error (.unexpected c rest)

/-- Reads a field type. The bracket beyond the last allowed dimension is out of place. -/
def FieldType.read (s : List Char) : Except DescriptorFault (FieldType × List Char) := do
  let brackets := s.takeWhile (· = '[')
  if brackets.length > 255 then throw (.unexpected '[' (s.drop 256))
  let (base, rest) ← BaseType.read (s.dropWhile (· = '['))
  return (⟨UInt8.ofNat brackets.length, base⟩, rest)

/-- Nothing may follow a descriptor. -/
def readEnd {α : Type} : α × List Char → Except DescriptorFault α
  | (a, []) => .ok a
  | (_, _ :: _) => .error .trailing

/-- Reads a text that is a field type. -/
def FieldType.parse (text : String) : Except DescriptorError FieldType :=
  (FieldType.read text.toList >>= readEnd).mapError (·.toError text)

/-! ## Method descriptors -/

private theorem length_lt_of_cutFirst? {c : Char} {s a b : List Char}
    (h : Text.cutFirst? c s = some (a, b)) : b.length < s.length := by
  unfold Text.cutFirst? at h
  split at h
  · cases h
  · rename_i d after heq
    cases h
    have hl := congrArg List.length (List.takeWhile_append_dropWhile (p := (· != c)) (l := s))
    simp [heq] at hl
    omega

private theorem length_lt_of_baseRead {s rest : List Char} {t : BaseType}
    (h : BaseType.read s = .ok (t, rest)) : rest.length < s.length := by
  unfold BaseType.read at h
  split at h
  · cases h
  · split at h
    · split at h
      · cases h
      · cases h
      · rename_i hcut
        cases h
        have := length_lt_of_cutFirst? hcut
        simp only [List.length_cons]
        omega
    · split at h
      · cases h
        simp
      · cases h

/-- Reading a field type takes at least one character. -/
theorem FieldType.length_lt_of_read {s rest : List Char} {t : FieldType}
    (h : FieldType.read s = .ok (t, rest)) : rest.length < s.length := by
  unfold FieldType.read at h
  simp only [bind, Except.bind, pure, Except.pure] at h
  split at h
  · cases h
  · split at h
    · cases h
    · rename_i v hbase
      cases h
      have h1 := length_lt_of_baseRead hbase
      have h2 : (s.dropWhile (· = '[')).length ≤ s.length :=
        (List.dropWhile_suffix _).length_le
      omega

/-- Reads parameter types after those in `done`, which stand in reverse, and the closing
parenthesis. -/
def readParams (done : List FieldType) (s : List Char) :
    Except DescriptorFault (List FieldType × List Char) :=
  if s.head? = some ')' then .ok (done.reverse, s.tail)
  else
    match h : FieldType.read s with
    | .error e => .error e
    | .ok (t, rest) =>
      have := FieldType.length_lt_of_read h
      readParams (t :: done) rest
termination_by s.length

/-- Reads a return type, where `V` stands for none. -/
def readReturn : List Char → Except DescriptorFault (Option FieldType × List Char)
  | 'V' :: rest => .ok (none, rest)
  | s => (FieldType.read s).map fun (t, rest) => (some t, rest)

/-- Reads a method descriptor. -/
def MethodDescriptor.read : List Char → Except DescriptorFault (MethodDescriptor × List Char)
  | [] => .error .endOfText
  | c :: rest => do
    if c ≠ '(' then throw (.unexpected c rest)
    let (params, rest) ← readParams [] rest
    let (ret, rest) ← readReturn rest
    return (⟨params, ret⟩, rest)

/-- Reads a text that is a method descriptor. -/
def MethodDescriptor.parse (text : String) : Except DescriptorError MethodDescriptor :=
  (MethodDescriptor.read text.toList >>= readEnd).mapError (·.toError text)

/-! ## Either kind -/

/-- Reads a text that is a descriptor. It is that of a method if it begins with a parenthesis. -/
def Descriptor.parse (text : String) : Except DescriptorError Descriptor :=
  if Text.beginsWith '(' text then (MethodDescriptor.parse text).map .method
  else (FieldType.parse text).map .field

/-- Renames every class in the text of a descriptor. -/
def renameDescriptor (f : String → String) (text : String) : Except DescriptorError String :=
  (Descriptor.parse text).map fun d => (d.rename f).text

/-- Renames the classes in the text of a descriptor to the answers of `f`. What is no descriptor is
refused before the first question. -/
def renameDescriptorWith {m : Type → Type} [Monad m] (f : String → m String) (text : String) :
    m (Except DescriptorError String) :=
  match Descriptor.parse text with
  | .ok d => return .ok (← d.renameWith f).text
  | .error e => return .error e

end JarRemap
