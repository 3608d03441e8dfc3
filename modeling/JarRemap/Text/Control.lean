import JarRemap.Text.Number

/-!
# Control characters

A terminal acts on some control characters instead of showing them. A log spells these, so that a
name in it is no more than shown. It leaves the others, of which the line feed is one, as they are.
-/

namespace JarRemap.Text

/-- The ASCII control characters that are spelled: bell, backspace, form feed, escape, delete. -/
def spelledControls : List Nat :=
  [0x07, 0x08, 0x0c, 0x1b, 0x7f]

/-- A character as the log shows it. The controls above ASCII are all spelled. -/
def spellControl (c : Char) : List Char :=
  if spelledControls.contains c.toNat then "\\x".toList ++ hexDigits 2 c.toNat
  else if 0x80 ≤ c.toNat && c.toNat ≤ 0x9f then
    "\\u\x7b".toList ++ hexDigits 2 c.toNat ++ "\x7d".toList
  else [c]

/-- A text as the log shows it. -/
def spellControls (s : String) : String :=
  String.ofList (s.toList.flatMap spellControl)

end JarRemap.Text
