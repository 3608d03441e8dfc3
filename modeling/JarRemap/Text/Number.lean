/-!
# Numbers in text

Decimal numbers as options and tables write them, and the padded hexadecimal form that messages and
the log use.
-/

namespace JarRemap.Text

/-- The value of a decimal digit. -/
def digit? (c : Char) : Option Nat :=
  if '0' ≤ c && c ≤ '9' then some (c.toNat - '0'.toNat) else none

/-- The number that decimal digits spell, if nothing else stands between them. -/
def digits? (s : List Char) : Option Nat :=
  s.foldlM (fun n c => (digit? c).map (10 * n + ·)) 0

/-- Reads an unsigned number below `bound`: one digit or more after at most one plus sign. Leading
zeros do not matter. -/
def unsigned? (bound : Nat) (s : List Char) : Option Nat :=
  let body := match s with
    | '+' :: rest => rest
    | _ => s
  if body.isEmpty then none
  else (digits? body).filter (· < bound)

/-- The hexadecimal digits of a number, at least `width` of them. -/
def hexDigits (width n : Nat) : List Char :=
  let digits := Nat.toDigits 16 n
  List.replicate (width - digits.length) '0' ++ digits

/-- The eight hexadecimal digits of a 32-bit number, after the mark `0x`. -/
def hex32 (n : UInt32) : String :=
  String.ofList ("0x".toList ++ hexDigits 8 n.toNat)

end JarRemap.Text
