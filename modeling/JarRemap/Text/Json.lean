/-!
# JSON

The values that reports are made of and their text: one member or item on a line, two blanks more at
each level, and nothing between the brackets of what is empty.
-/

namespace JarRemap

/-- A JSON value. Numbers are counts, and members keep their order. -/
inductive JsonValue where
  | null
  | number (n : Nat)
  | string (s : String)
  | array (items : List JsonValue)
  | object (members : List (String × JsonValue))

namespace JsonValue

/-- A value that may be absent. -/
def ofOption {α : Type} (f : α → JsonValue) (a : Option α) : JsonValue :=
  (a.map f).getD .null

/-- The two hexadecimal digits of a control character. -/
def controlDigits (c : Char) : List Char :=
  if c.toNat < 0x10 then '0' :: Nat.toDigits 16 c.toNat else Nat.toDigits 16 c.toNat

/-- A character inside of quotes. Only quotes, backslashes and control characters are escaped. -/
def escape (c : Char) : List Char :=
  match c with
  | '"' => ['\\', '"']
  | '\\' => ['\\', '\\']
  | '\x08' => ['\\', 'b']
  | '\x0c' => ['\\', 'f']
  | '\n' => ['\\', 'n']
  | '\r' => ['\\', 'r']
  | '\t' => ['\\', 't']
  | _ => if c.toNat < 0x20 then ['\\', 'u', '0', '0'] ++ controlDigits c else [c]

/-- A text in quotes. -/
def quote (s : String) : String :=
  String.ofList ('"' :: (s.toList.flatMap escape ++ ['"']))

/-- A new line at this level. -/
def newLine (level : Nat) : String :=
  String.ofList ('\n' :: List.replicate (2 * level) ' ')

mutual

/-- What is in `out` and then the text of a value whose brackets stand at this level. -/
def write (out : String) (level : Nat) : JsonValue → String
  | .null => out ++ "null"
  | .number n => out ++ toString n
  | .string s => out ++ quote s
  | .array [] => out ++ "[]"
  | .array (a :: rest) =>
    let out := a.write (out ++ "[" ++ newLine (level + 1)) (level + 1)
    writeItems out (level + 1) rest ++ newLine level ++ "]"
  | .object [] => out ++ "\x7b\x7d"
  | .object ((name, a) :: rest) =>
    let out := a.write (out ++ "\x7b" ++ newLine (level + 1) ++ quote name ++ ": ") (level + 1)
    writeMembers out (level + 1) rest ++ newLine level ++ "\x7d"

/-- What is in `out` and then the items after the first one. -/
def writeItems (out : String) (level : Nat) : List JsonValue → String
  | [] => out
  | a :: rest => writeItems (a.write (out ++ "," ++ newLine level) level) level rest

/-- What is in `out` and then the members after the first one. -/
def writeMembers (out : String) (level : Nat) : List (String × JsonValue) → String
  | [] => out
  | (name, a) :: rest =>
    let out := a.write (out ++ "," ++ newLine level ++ quote name ++ ": ") level
    writeMembers out level rest

end

/-- The text of a value. -/
def text (j : JsonValue) : String :=
  j.write "" 0

end JsonValue

end JarRemap
