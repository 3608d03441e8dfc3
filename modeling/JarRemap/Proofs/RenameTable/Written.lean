import JarRemap.Proofs.RenameTable.WordLine

/-!
# Tables that are written and read

A spellable table is written as lines of words, and reading the lines of a row merges the row into
the table so far (`ClassRename.Spellable.reads_lines`). So a table that is built with words is read
back as it was written, and no other one is (`RenameTable.parse_write_iff`).
-/

namespace JarRemap

/-! ## Writing -/

/-- The line of the parameter. -/
def ParameterRename.line (p : ParameterRename) : WordLine :=
  ⟨2, [toString p.slot, p.oldName, p.newName]⟩

/-- The lines of the method and its parameters. -/
def MethodRename.lines (m : MethodRename) : List WordLine :=
  ⟨1, [m.oldName, m.descriptor, m.newName]⟩ :: m.params.map ParameterRename.line

/-- The line of the field. -/
def FieldRename.line (f : FieldRename) : WordLine :=
  ⟨1, f.oldName :: (f.descriptor.toList ++ [f.newName])⟩

/-- The lines of the class and its members. -/
def ClassRename.lines (c : ClassRename) : List WordLine :=
  ⟨0, [c.oldName, c.newName]⟩ :: c.fields.map FieldRename.line ++
    c.methods.flatMap MethodRename.lines

/-- The line that begins every text that is written. -/
def tableHeader : WordLine :=
  columnHeader ["left", "right"]

namespace WordLine

theorem toList_spell (rows : List WordLine) :
    (spell rows).toList = rows.flatMap fun w => w.chars ++ ['\n'] := by
  rw [spell, String.toList_ofList, List.flatMap_map]

theorem spell_append (rows rows' : List WordLine) :
    spell (rows ++ rows') = spell rows ++ spell rows' := by
  rw [← String.toList_inj, String.toList_append, toList_spell, toList_spell, toList_spell,
    List.flatMap_append]

theorem join_map_eq_spell {α : Type} {text : α → String} {lines : α → List WordLine}
    (h : ∀ a, text a = spell (lines a)) (l : List α) :
    String.join (l.map text) = spell (l.flatMap lines) := by
  rw [← String.toList_inj, String.toList_join, toList_spell, List.flatMap_map, List.flatMap_assoc]
  simp only [h, toList_spell]

end WordLine

namespace RenameTable

open WordLine

theorem parameterText_eq (p : ParameterRename) : parameterText p = spell [p.line] := by
  rw [← String.toList_inj, toList_spell]
  simp [parameterText, ParameterRename.line, chars, List.intercalate, List.replicate, toString]

theorem fieldText_eq (f : FieldRename) : fieldText f = spell [f.line] := by
  rw [← String.toList_inj, toList_spell]
  obtain ⟨oldName, newName, _ | descriptor⟩ := f <;>
    simp [fieldText, FieldRename.line, chars, List.intercalate, toString]

theorem methodText_eq (m : MethodRename) : methodText m = spell m.lines := by
  have hfirst : s!"\t{m.oldName} {m.descriptor} {m.newName}\n" =
      spell [⟨1, [m.oldName, m.descriptor, m.newName]⟩] := by
    rw [← String.toList_inj, toList_spell]
    simp [chars, List.intercalate, toString]
  rw [methodText, hfirst, join_map_eq_spell parameterText_eq, ← List.map_eq_flatMap,
    ← spell_append]
  rfl

theorem classText_eq (c : ClassRename) : classText c = spell c.lines := by
  have hfirst : s!"{c.oldName} {c.newName}\n" = spell [⟨0, [c.oldName, c.newName]⟩] := by
    rw [← String.toList_inj, toList_spell]
    simp [chars, List.intercalate, toString]
  rw [classText, hfirst, join_map_eq_spell fieldText_eq, join_map_eq_spell methodText_eq,
    ← List.map_eq_flatMap, ← spell_append, ← spell_append]
  rfl

/-- What is written is a line for each row. -/
theorem write_eq_spell (t : RenameTable) :
    t.write = spell (tableHeader :: t.classes.flatMap ClassRename.lines) := by
  have hwrite : t.write = "tsrg2 left right\n" ++ String.join (t.classes.map classText) :=
    rfl
  have hfirst : "tsrg2 left right\n" = spell [tableHeader] := by
    rw [← String.toList_inj, toList_spell]
    simp [tableHeader, columnHeader, chars, List.intercalate]
  rw [hwrite, hfirst, join_map_eq_spell classText_eq, ← spell_append]
  rfl

end RenameTable

/-! ### Spelled lines -/

/-- The digits of a number are a word. -/
theorem isTableWord_number (n : ℕ) : IsTableWord (toString n) := by
  have hdigits : (toString n).toList = Nat.toDigits 10 n := Nat.toList_repr
  refine ⟨fun hempty => Nat.toDigits_ne_nil (n := n) (b := 10) ?_, fun c hc => ?_⟩
  · rw [← hdigits, hempty]
    rfl
  · rw [hdigits] at hc
    have hdigit : c.isDigit = true := Nat.isDigit_of_mem_toDigits (by omega) (by omega) hc
    have hrange := Text.isDigit_iff.1 hdigit
    have hblank : Text.isBlank c = false := by
      simp only [Text.isBlank, Text.blankRanges, List.any_cons, List.any_nil, Bool.or_eq_false_iff,
        Bool.and_eq_false_iff, decide_eq_false_iff_not, and_true]
      omega
    have hne : c ≠ '#' := by
      rintro rfl
      exact absurd hrange.1 (by decide)
    rw [isWordLetter, hblank, bne_iff_ne.2 hne]
    rfl

theorem ParameterRename.Spellable.spelled_line {p : ParameterRename} (h : p.Spellable) :
    p.line.Spelled :=
  ⟨by simp [line], by simpa [line] using ⟨isTableWord_number p.slot, h.oldName, h.newName⟩⟩

theorem FieldRename.Spellable.spelled_line {f : FieldRename} (h : f.Spellable) :
    f.line.Spelled := by
  refine ⟨by simp [line], ?_⟩
  simpa [line, or_imp, forall_and] using
    ⟨h.oldName, fun d hd => (h.descriptor d hd).1, h.newName⟩

theorem MethodRename.Spellable.spelled_lines {m : MethodRename} (h : m.Spellable) :
    ∀ w ∈ m.lines, w.Spelled := by
  rw [lines, List.forall_mem_cons]
  refine ⟨⟨by simp, by simpa using ⟨h.oldName, h.descriptor, h.newName⟩⟩, ?_⟩
  exact List.forall_mem_map.2 fun p hp => (h.params p hp).spelled_line

theorem ClassRename.Spellable.spelled_lines {c : ClassRename} (h : c.Spellable) :
    ∀ w ∈ c.lines, w.Spelled := by
  rw [lines, List.forall_mem_append, List.forall_mem_cons, List.forall_mem_flatMap]
  refine ⟨⟨⟨by simp, by simpa using ⟨h.oldName, h.newName⟩⟩, ?_⟩, fun m hm => ?_⟩
  · exact List.forall_mem_map.2 fun f hf => (h.fields f hf).spelled_line
  · exact (h.methods m hm).spelled_lines

/-! ## Reading -/

namespace TableState

/-- Members are read for a class. -/
structure InClass (owner : String) (t : RenameTable) (s : TableState) : Prop where
  table : s.table = t
  currentClass : s.currentClass = some owner

/-- Parameters are read for a method. -/
structure InMethod (owner : String) (m : MethodRename) (t : RenameTable) (s : TableState) : Prop
    extends InClass owner t s where
  currentMethod : s.currentMethod = some (m.oldName, m.descriptor)

end TableState

open TableState

variable {t : RenameTable} {owner : String}

theorem ParameterRename.Spellable.reads_line {p : ParameterRename} (h : p.Spellable)
    (hslot : p.slot < 65536) {m : MethodRename} : Reads (.tsrg2 2) (InMethod owner m t) [p.line]
      (InMethod owner m (t.addParam owner m.oldName m.descriptor p)) := by
  have hdigits : Text.unsigned? UInt16.size (Nat.toDigits 10 p.slot) = some p.slot :=
    Text.unsigned?_toDigits hslot
  refine .line h.spelled_line fun s hs line hwords hdepth => ?_
  rw [ParameterRename.line] at hwords hdepth
  refine ⟨{ s with table := t.addParam owner m.oldName m.descriptor p }, ?_,
    ⟨rfl, hs.currentClass⟩, hs.currentMethod⟩
  simp [readLine, tsrgLine, hdepth, parameterLine, hwords, hs.currentClass, hs.currentMethod,
    hdigits, hs.table]

/-- A method with its parameters is added as it is in a merge. -/
theorem MethodRename.Spellable.reads_lines {m : MethodRename} (h : m.Spellable) (hm : m.Proper) :
    Reads (.tsrg2 2) (InClass owner t) m.lines (InClass owner
      (m.params.foldl (fun t p => t.addParam owner m.oldName m.descriptor p)
        (t.addMethod owner m.oldName m.descriptor m.newName))) := by
  have hfirst : Reads (.tsrg2 2) (InClass owner t) [⟨1, [m.oldName, m.descriptor, m.newName]⟩]
      (InMethod owner m (t.addMethod owner m.oldName m.descriptor m.newName)) := by
    refine .line (h.spelled_lines _ List.mem_cons_self) fun s hs line hwords hdepth => ?_
    obtain ⟨rfl, hclass⟩ := hs
    exact ⟨_, tsrgLine_method hclass hdepth hwords rfl h.descriptor_ok, ⟨rfl, rfl⟩, rfl⟩
  have hparams := Reads.flatMap (InMethod owner m) (fun p => [p.line])
    (fun t p => t.addParam owner m.oldName m.descriptor p) (l := m.params)
    (fun p hp t => (h.params p hp).reads_line (hm.slots_lt p hp))
    (t.addMethod owner m.oldName m.descriptor m.newName)
  rw [← List.map_eq_flatMap] at hparams
  exact (hfirst.append hparams).weaken fun s hs => hs.toInClass

theorem FieldRename.Spellable.reads_line {f : FieldRename} (h : f.Spellable) :
    Reads (.tsrg2 2) (InClass owner t) [f.line] (InClass owner (t.addField owner f)) := by
  obtain ⟨oldName, newName, descriptor⟩ := f
  refine .line h.spelled_line fun s hs line hwords hdepth => ?_
  rw [FieldRename.line] at hwords hdepth
  refine ⟨⟨t.addField owner ⟨oldName, newName, descriptor⟩, some owner, none⟩, ?_, rfl, rfl⟩
  rcases descriptor with _ | d
  · rw [← hs.table]
    exact tsrgLine_field hs.currentClass hdepth hwords rfl
  · have hparen := (h.descriptor d rfl).2
    simp [readLine, tsrgLine, hdepth, memberLine, hwords, hs.currentClass, hs.table, hparen]

/-- The lines of a class are read as its row is merged. -/
theorem ClassRename.Spellable.reads_lines {c : ClassRename} (h : c.Spellable) (hc : c.Proper) :
    Reads (.tsrg2 2) (HasTable t) c.lines (HasTable (t.merge c)) := by
  have hfirst : Reads (.tsrg2 2) (HasTable t) [⟨0, [c.oldName, c.newName]⟩]
      (InClass c.oldName (t.addClass c.oldName c.newName)) := by
    refine .line (h.spelled_lines _ List.mem_cons_self) fun s hs line hwords hdepth => ?_
    obtain rfl : s.table = t := hs
    exact ⟨_, tsrgLine_class hdepth hwords rfl, rfl, rfl⟩
  have hfields := Reads.flatMap (InClass c.oldName) (fun f => [f.line])
    (fun t f => t.addField c.oldName f) (l := c.fields)
    (fun f hf t => (h.fields f hf).reads_line) (t.addClass c.oldName c.newName)
  rw [← List.map_eq_flatMap] at hfields
  have hmethods := Reads.flatMap (InClass c.oldName) MethodRename.lines
    (fun t m => m.params.foldl (fun t p => t.addParam c.oldName m.oldName m.descriptor p)
      (t.addMethod c.oldName m.oldName m.descriptor m.newName)) (l := c.methods)
    (fun m hm t => (h.methods m hm).reads_lines (hc.methods m hm))
    (c.fields.foldl (fun t f => t.addField c.oldName f) (t.addClass c.oldName c.newName))
  exact ((hfirst.append hfields).append hmethods).weaken fun s hs => hs.table

namespace RenameTable

/-- Whatever is written is taken for TSRG2. -/
theorem detect_write (t : RenameTable) :
    TableFormat.detect (TableLine.ofText t.write) = .ok (.tsrg2 2) := by
  have hlines : ∃ rest, Text.lines t.write.toList = tableHeader.chars :: Text.lines rest := by
    rw [write_eq_spell, WordLine.toList_spell, List.flatMap_cons, List.append_assoc,
      List.singleton_append, Text.lines_append_cons (by decide)]
    exact ⟨_, rfl⟩
  obtain ⟨rest, hlines⟩ := hlines
  have hfirst : ∃ more, TableLine.ofText t.write = ⟨1, tableHeader.chars⟩ :: more := by
    rw [TableLine.ofText, hlines, List.zipIdx_cons, List.map_cons,
      List.filter_cons_of_pos (by decide)]
    exact ⟨_, rfl⟩
  obtain ⟨more, hfirst⟩ := hfirst
  rw [hfirst]
  rfl

/-- A proper table that is spellable is read back as it was written. -/
theorem parse_write (hproper : t.Proper) (h : t.Spellable) : parse t.write = .ok t := by
  have hnames : ∀ name ∈ ["left", "right"], IsTableWord name := by decide
  have hspelled : ∀ w ∈ tableHeader :: t.classes.flatMap ClassRename.lines, w.Spelled := by
    rw [List.forall_mem_cons, List.forall_mem_flatMap]
    exact ⟨spelled_columnHeader hnames, fun c hc => (h c hc).spelled_lines⟩
  have hrows := Reads.flatMap HasTable ClassRename.lines merge
    (fun c hc t => (h c hc).reads_lines (hproper.rows c hc)) empty
  rw [hproper.foldl_merge_classes] at hrows
  rw [write_eq_spell]
  exact parse_spell hspelled
    (fun _ hlines => TableFormat.detect_columnHeader (by decide) hnames hlines) hrows rfl

/-- The tables that are read back as they were written are those that are built with words. -/
theorem parse_write_iff : parse t.write = .ok t ↔ t.Built ∧ t.Spellable := by
  refine ⟨spelled_of_parse ?_, fun h => parse_write h.1.proper h.2⟩
  rw [detect_write]
  exact fun h => by cases h

end RenameTable

end JarRemap
