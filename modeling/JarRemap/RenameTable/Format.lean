import JarRemap.RenameTable.Basic
import JarRemap.Text.Blank
import JarRemap.Text.Number

/-!
# Rename tables as text

Four related formats are read, and the content of a text tells which one it has:

* SRG: `CL: a b`, `FD: a/f b/g`, `MD: a/m (desc) b/n (desc)`, and `PK:` lines that say nothing;
* CSRG: `a b`, `a f g`, `a m (desc) n`;
* TSRG: `a b`, then lines after one tab for the members of `a`: `f g`, `m (desc) n`;
* TSRG2: a line `tsrg2 left right ...` that names the columns, then as in TSRG with one word per
  column, field descriptors, and lines after two tabs for the parameters of a method.

A line ends at `#` or at its last character that is not blank, and lines without words do not count.
`RenameTable.write` writes TSRG2 with two columns.
-/

namespace JarRemap

/-! ## Errors -/

/-- What is wrong with a line. -/
inductive LineProblem where
  | tooFewColumns
  | fieldWithoutOwner
  | methodWithoutOwner
  | noSrgLine
  | noCsrgLine
  | classColumns
  | memberOutsideClass
  | memberColumns
  | parameterOutsideMethod
  | parameterColumns
  | parameterIndex
  | indentation
  | descriptor (e : DescriptorError)
  deriving DecidableEq, Repr

/-- The words for a problem. -/
def LineProblem.message : LineProblem → String
  | .tooFewColumns => "tsrg2 header needs at least two namespaces"
  | .fieldWithoutOwner => "field without owner"
  | .methodWithoutOwner => "method without owner"
  | .noSrgLine => "unrecognized srg line"
  | .noCsrgLine => "unrecognized csrg line"
  | .classColumns => "class line has wrong column count"
  | .memberOutsideClass => "member outside of a class"
  | .memberColumns => "member line has wrong column count"
  | .parameterOutsideMethod => "parameter outside of a method"
  | .parameterColumns => "parameter line has wrong column count"
  | .parameterIndex => "parameter index is not a number"
  | .indentation => "unexpected indentation"
  | .descriptor e => e.message

/-- Why there is no table. -/
inductive TableError where
  /-- The file cannot be read, or is no text. -/
  | unreadable (path : String)
  | line (number : Nat) (problem : LineProblem) (text : String)
  | unknownFormat
  /-- A descriptor cannot be carried into the new names. -/
  | descriptor (e : DescriptorError)
  deriving DecidableEq, Repr

/-- The text of an error. -/
def TableError.message : TableError → String
  | .unreadable path => s!"could not read mapping '{path}'"
  | .line number problem text =>
    s!"mapping parse error at line {number}: {problem.message} ⇒ `{text}`"
  | .unknownFormat => "unrecognized mapping format"
  | .descriptor e => s!"descriptor error: {e.message}"

/-! ## Lines -/

/-- A line with words, and its number in the text. -/
structure TableLine where
  number : Nat
  text : List Char
  deriving DecidableEq, Repr

namespace TableLine

/-- A line without its comment and without blanks at its end. -/
def stripComment (s : List Char) : List Char :=
  Text.trimEnd (s.takeWhile (· != '#'))

/-- The lines of a text that have words. Numbers start at one. -/
def ofText (text : String) : List TableLine :=
  ((Text.lines text.toList).zipIdx.map fun (s, i) => ⟨i + 1, stripComment s⟩).filter
    fun line => !line.text.all Text.isBlank

/-- The words of a line. -/
def words (line : TableLine) : List String :=
  (Text.words line.text).map String.ofList

/-- How many tabs a line begins with. -/
def depth (line : TableLine) : Nat :=
  (line.text.takeWhile (· = '\t')).length

/-- The error of a line with this problem. -/
def refuse {α : Type} (line : TableLine) (problem : LineProblem) : Except TableError α :=
  .error (.line line.number problem (String.ofList line.text))

/-- Refuses a line whose word is no method descriptor. -/
def checkMethodDescriptor (line : TableLine) (descriptor : String) : Except TableError Unit :=
  match MethodDescriptor.parse descriptor with
  | .ok _ => .ok ()
  | .error e => line.refuse (.descriptor e)

end TableLine

/-! ## Formats -/

/-- The format of a table, with the number of columns where the text names it. -/
inductive TableFormat where
  | srg
  | csrg
  | tsrg
  | tsrg2 (columns : Nat)
  deriving DecidableEq, Repr

/-- The beginnings of the lines of an SRG table. -/
def srgMarks : List String := ["PK:", "CL:", "FD:", "MD:"]

/-- The format that lines have. The first line decides, except between CSRG and TSRG, where any line
after a tab does. -/
def TableFormat.detect : List TableLine → Except TableError TableFormat
  | [] => .ok .csrg
  | first :: rest =>
    match Text.dropStart? "tsrg2 ".toList first.text with
    | some header =>
      let columns := (Text.words header).length
      if columns < 2 then first.refuse .tooFewColumns else .ok (.tsrg2 columns)
    | none =>
      if srgMarks.any fun mark => mark.toList.isPrefixOf first.text then .ok .srg
      else if 0 < first.depth then .error .unknownFormat
      else if rest.any fun line => 0 < line.depth then .ok .tsrg
      else .ok .csrg

/-! ## Reading -/

/-- The table so far, and the class and method that indented lines belong to. -/
structure TableState where
  table : RenameTable
  currentClass : Option String
  currentMethod : Option (String × String)

namespace TableState

/-- The state before the first line. -/
def start : TableState := ⟨.empty, none, none⟩

/-- The owner and the name of a member, which the last slash separates. -/
def splitMember (line : TableLine) (problem : LineProblem) (full : String) :
    Except TableError (String × String) :=
  match Text.splitLast? '/' full with
  | some parts => .ok parts
  | none => line.refuse problem

/-- Reads a line of an SRG table. -/
def srgLine (s : TableState) (line : TableLine) : Except TableError TableState :=
  match line.words with
  | "PK:" :: _ => .ok s
  | ["CL:", oldName, newName] => .ok { s with table := s.table.addClass oldName newName }
  | ["FD:", oldName, newName] => do
    let (owner, name) ← splitMember line .fieldWithoutOwner oldName
    let (_, newName) ← splitMember line .fieldWithoutOwner newName
    return { s with table := s.table.addField owner ⟨name, newName, none⟩ }
  | ["MD:", oldName, descriptor, newName, _] => do
    let (owner, name) ← splitMember line .methodWithoutOwner oldName
    let (_, newName) ← splitMember line .methodWithoutOwner newName
    line.checkMethodDescriptor descriptor
    return { s with table := s.table.addMethod owner name descriptor newName }
  | _ => line.refuse .noSrgLine

/-- Reads a line of a CSRG table. -/
def csrgLine (s : TableState) (line : TableLine) : Except TableError TableState :=
  match line.words with
  | [oldName, newName] => .ok { s with table := s.table.addClass oldName newName }
  | [owner, name, newName] => .ok { s with table := s.table.addField owner ⟨name, newName, none⟩ }
  | [owner, name, descriptor, newName] => do
    line.checkMethodDescriptor descriptor
    return { s with table := s.table.addMethod owner name descriptor newName }
  | _ => line.refuse .noCsrgLine

/-- Reads the line of a class. Of the columns only the first two count. -/
def classLine (s : TableState) (columns : Nat) (line : TableLine) : Except TableError TableState :=
  match line.words with
  | oldName :: newName :: rest =>
    if rest.length + 2 = columns then
      .ok ⟨s.table.addClass oldName newName, some oldName, none⟩
    else line.refuse .classColumns
  | _ => line.refuse .classColumns

/-- Reads the line of a field or a method. A parenthesis marks the descriptor of a method. -/
def memberLine (s : TableState) (columns : Nat) (line : TableLine) : Except TableError TableState :=
  match s.currentClass with
  | none => line.refuse .memberOutsideClass
  | some owner =>
    let words := line.words
    if words.length = columns + 1 then
      match words with
      | name :: descriptor :: newName :: _ =>
        if Text.beginsWith '(' descriptor then do
          line.checkMethodDescriptor descriptor
          return ⟨s.table.addMethod owner name descriptor newName, s.currentClass,
            some (name, descriptor)⟩
        else .ok ⟨s.table.addField owner ⟨name, newName, some descriptor⟩, s.currentClass, none⟩
      | _ => line.refuse .memberColumns
    else if words.length = columns then
      match words with
      | name :: newName :: _ =>
        .ok ⟨s.table.addField owner ⟨name, newName, none⟩, s.currentClass, none⟩
      | _ => line.refuse .memberColumns
    else line.refuse .memberColumns

/-- Reads the line of a parameter. The word `static` alone says nothing. -/
def parameterLine (s : TableState) (columns : Nat) (line : TableLine) :
    Except TableError TableState :=
  let words := line.words
  if words = ["static"] then .ok s
  else
    match s.currentClass, s.currentMethod with
    | some owner, some (method, descriptor) =>
      match words with
      | index :: oldName :: newName :: rest =>
        if rest.length + 3 ≠ columns + 1 then line.refuse .parameterColumns
        else
          match Text.unsigned? UInt16.size index.toList with
          | some slot =>
            let row : ParameterRename := ⟨slot, oldName, newName⟩
            .ok { s with table := s.table.addParam owner method descriptor row }
          | none => line.refuse .parameterIndex
      | _ => line.refuse .parameterColumns
    | _, _ => line.refuse .parameterOutsideMethod

/-- Reads a line of a table in which tabs show what belongs to what. -/
def tsrgLine (s : TableState) (columns : Nat) (line : TableLine) : Except TableError TableState :=
  match line.depth with
  | 0 => s.classLine columns line
  | 1 => s.memberLine columns line
  | 2 => s.parameterLine columns line
  | _ => line.refuse .indentation

/-- Reads a line of a table in this format. -/
def readLine (format : TableFormat) (s : TableState) (line : TableLine) :
    Except TableError TableState :=
  match format with
  | .srg => s.srgLine line
  | .csrg => s.csrgLine line
  | .tsrg => s.tsrgLine 2 line
  | .tsrg2 columns => s.tsrgLine columns line

end TableState

/-- The lines after those that only tell the format. -/
def TableFormat.body (format : TableFormat) (lines : List TableLine) : List TableLine :=
  match format with
  | .tsrg2 _ => lines.drop 1
  | _ => lines

/-- Reads a table in any of the formats. -/
def RenameTable.parse (text : String) : Except TableError RenameTable := do
  let lines := TableLine.ofText text
  let format ← TableFormat.detect lines
  let s ← (format.body lines).foldlM (TableState.readLine format) .start
  return s.table

/-! ## Writing -/

namespace RenameTable

/-- The line of a parameter. -/
def parameterText (p : ParameterRename) : String :=
  s!"\t\t{p.slot} {p.oldName} {p.newName}\n"

/-- The lines of a method and its parameters. -/
def methodText (m : MethodRename) : String :=
  s!"\t{m.oldName} {m.descriptor} {m.newName}\n" ++ String.join (m.params.map parameterText)

/-- The line of a field. -/
def fieldText (f : FieldRename) : String :=
  match f.descriptor with
  | some descriptor => s!"\t{f.oldName} {descriptor} {f.newName}\n"
  | none => s!"\t{f.oldName} {f.newName}\n"

/-- The lines of a class and its members. -/
def classText (c : ClassRename) : String :=
  s!"{c.oldName} {c.newName}\n" ++ String.join (c.fields.map fieldText) ++
    String.join (c.methods.map methodText)

/-- The text of a table in TSRG2. -/
def write (t : RenameTable) : String :=
  "tsrg2 left right\n" ++ String.join (t.classes.map classText)

end RenameTable

end JarRemap
