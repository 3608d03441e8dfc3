/-!
# Cutting text

Cuts at a character or at a known beginning or end. Each function works on a list of characters;
the second section wraps some of them for `String`.
-/

namespace JarRemap.Text

/-- The parts before and after the first `c`, if there is one. -/
def cutFirst? (c : Char) (s : List Char) : Option (List Char × List Char) :=
  match s.dropWhile (· != c) with
  | [] => none
  | _ :: after => some (s.takeWhile (· != c), after)

/-- The parts before and after the last `c`, if there is one. -/
def cutLast? (c : Char) (s : List Char) : Option (List Char × List Char) :=
  (cutFirst? c s.reverse).map fun (after, before) => (before.reverse, after.reverse)

/-- What follows `start` in a text that begins with it. -/
def dropStart? : (start s : List Char) → Option (List Char)
  | [], s => some s
  | _ :: _, [] => none
  | c :: start, d :: s => if c = d then dropStart? start s else none

/-- What precedes `ending` in a text that ends with it. -/
def dropEnd? (ending s : List Char) : Option (List Char) :=
  (dropStart? ending.reverse s.reverse).map List.reverse

/-- The lines of a text. A line ends at a line feed, which may follow a carriage return; nothing
after the last line feed is no line. -/
def lines (s : List Char) : List (List Char) :=
  let parts := s.splitOn '\n'
  let closed := parts.dropLast.map fun line => (dropEnd? ['\r'] line).getD line
  match parts.getLast? with
  | none | some [] => closed
  | some rest => closed ++ [rest]

/-! ## The same on strings -/

/-- The parts of a string before and after its first `c`. -/
def splitFirst? (c : Char) (s : String) : Option (String × String) :=
  (cutFirst? c s.toList).map fun (a, b) => (String.ofList a, String.ofList b)

/-- The parts of a string before and after its last `c`. -/
def splitLast? (c : Char) (s : String) : Option (String × String) :=
  (cutLast? c s.toList).map fun (a, b) => (String.ofList a, String.ofList b)

/-- What follows `start` in a string that begins with it. -/
def afterStart? (start s : String) : Option String :=
  (dropStart? start.toList s.toList).map String.ofList

/-- What precedes `ending` in a string that ends with it. -/
def beforeEnd? (ending s : String) : Option String :=
  (dropEnd? ending.toList s.toList).map String.ofList

/-- Whether a string begins with `c`. -/
def beginsWith (c : Char) (s : String) : Bool :=
  s.toList.head? == some c

end JarRemap.Text
