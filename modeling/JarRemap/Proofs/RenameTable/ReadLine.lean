import JarRemap.Proofs.RenameTable.Built
import JarRemap.Proofs.SideBySide
import JarRemap.Proofs.Text.Number
import JarRemap.RenameTable.Format

/-!
# What a line does

A line of a table in text leaves the table as it is or adds one step to it, which says nothing but
what the line tells (`TableState.Adds`). So what holds of the empty table and stays with such steps
holds of every table that is read (`RenameTable.reached_of_parse`). Or the line is refused, and then
the error tells its number (`TableLine.Refuses`).
-/

namespace JarRemap

/-! ## Lines that are read -/

/-- Lines of the format can give a field a descriptor. -/
def TableFormat.TypesFields : TableFormat → Prop
  | .srg | .csrg => False
  | .tsrg | .tsrg2 _ => True

/-- The step uses such names, and it has been checked as far as lines of the format are: methods are
listed with descriptors, and fields with none unless the format gives them one. -/
def TableStep.Told (format : TableFormat) (named : String → Prop) : TableStep → Prop
  | .addClass oldName newName => named oldName ∧ named newName
  | .keepClass _ => False
  | .addField owner f => named owner ∧ named f.oldName ∧ named f.newName ∧
    ∀ d ∈ f.descriptor, named d ∧ Text.beginsWith '(' d = false ∧ format.TypesFields
  | .addMethod owner name descriptor newName =>
    named owner ∧ named name ∧ named newName ∧ named descriptor ∧
      ∃ d, MethodDescriptor.parse descriptor = .ok d
  | .addParam owner _ _ _ oldName newName => named owner ∧ named oldName ∧ named newName

theorem TableLine.checkMethodDescriptor_ok_iff {line : TableLine} {descriptor : String}
    {u : Unit} : line.checkMethodDescriptor descriptor = .ok u ↔
      ∃ d, MethodDescriptor.parse descriptor = .ok d := by
  rw [checkMethodDescriptor]
  rcases MethodDescriptor.parse descriptor with e | d <;> simp [refuse]

namespace TableState

variable {s s' : TableState} {line : TableLine} {columns : ℕ} {format : TableFormat}

/-- A name that the line can use: a word of its own, or the class that it belongs to. In SRG names
are parts of words. -/
def Names (s : TableState) (format : TableFormat) (line : TableLine) (name : String) : Prop :=
  format ≠ .srg → name ∈ line.words ∨ name ∈ s.currentClass

theorem names_of_mem (s : TableState) (format : TableFormat) (line : TableLine) :
    ∀ name ∈ line.words, s.Names format line name :=
  fun _ h _ => .inl h

/-- Behind the line the table is as before, or what the line tells has been added. -/
structure Adds (s : TableState) (format : TableFormat) (line : TableLine) (s' : TableState) :
    Prop where
  table : s'.table = s.table ∨
    ∃ step : TableStep, step.Told format (s.Names format line) ∧ s'.table = step.apply s.table
  currentClass : ∀ name ∈ s'.currentClass, name ∈ line.words ∨ name ∈ s.currentClass

theorem adds_nothing (s : TableState) (format : TableFormat) (line : TableLine) :
    s.Adds format line s :=
  ⟨.inl rfl, fun _ => .inr⟩

theorem Adds.of_step (step : TableStep) (hstep : step.Told format (s.Names format line))
    (htable : s'.table = step.apply s.table) (hclass : s'.currentClass = s.currentClass) :
    s.Adds format line s' :=
  ⟨.inr ⟨step, hstep, htable⟩, fun _ hname => .inr (hclass ▸ hname)⟩

theorem srgLine_adds (h : s.srgLine line = .ok s') : s.Adds .srg line s' := by
  have hnamed (name : String) : s.Names .srg line name := fun hne => absurd rfl hne
  rw [srgLine] at h
  split at h
  case h_1 =>
    cases h
    exact s.adds_nothing .srg line
  case h_2 oldName newName _ =>
    cases h
    exact .of_step (.addClass oldName newName) ⟨hnamed _, hnamed _⟩ rfl rfl
  case h_3 =>
    obtain ⟨⟨owner, name⟩, -, h⟩ := except_bind_ok_iff.1 h
    obtain ⟨⟨_, newName⟩, -, h⟩ := except_bind_ok_iff.1 h
    cases h
    exact .of_step (.addField owner ⟨name, newName, none⟩)
      ⟨hnamed _, hnamed _, hnamed _, by simp⟩ rfl rfl
  case h_4 _ descriptor _ _ _ =>
    obtain ⟨⟨owner, name⟩, -, h⟩ := except_bind_ok_iff.1 h
    obtain ⟨⟨_, newName⟩, -, h⟩ := except_bind_ok_iff.1 h
    obtain ⟨_, hcheck, h⟩ := except_bind_ok_iff.1 h
    cases h
    exact .of_step (.addMethod owner name descriptor newName)
      ⟨hnamed _, hnamed _, hnamed _, hnamed _, TableLine.checkMethodDescriptor_ok_iff.1 hcheck⟩
      rfl rfl
  case h_5 => cases h

theorem csrgLine_adds (h : s.csrgLine line = .ok s') : s.Adds .csrg line s' := by
  have hword := s.names_of_mem .csrg line
  rw [csrgLine] at h
  split at h
  case h_1 oldName newName hwords =>
    simp only [hwords, List.forall_mem_cons] at hword
    cases h
    exact .of_step (.addClass oldName newName) ⟨hword.1, hword.2.1⟩ rfl rfl
  case h_2 owner name newName hwords =>
    simp only [hwords, List.forall_mem_cons] at hword
    obtain ⟨howner, hname, hnew, -⟩ := hword
    cases h
    exact .of_step (.addField owner ⟨name, newName, none⟩)
      ⟨howner, hname, hnew, by simp⟩ rfl rfl
  case h_3 owner name descriptor newName hwords =>
    simp only [hwords, List.forall_mem_cons] at hword
    obtain ⟨howner, hname, hdescriptor, hnew, -⟩ := hword
    obtain ⟨_, hcheck, h⟩ := except_bind_ok_iff.1 h
    cases h
    exact .of_step (.addMethod owner name descriptor newName)
      ⟨howner, hname, hnew, hdescriptor, TableLine.checkMethodDescriptor_ok_iff.1 hcheck⟩ rfl rfl
  case h_4 => cases h

theorem classLine_adds (format : TableFormat) (h : s.classLine columns line = .ok s') :
    s.Adds format line s' := by
  have hword := s.names_of_mem format line
  rw [classLine] at h
  split at h
  case h_1 oldName newName rest hwords =>
    split at h
    · cases h
      simp only [hwords, List.forall_mem_cons] at hword
      refine ⟨.inr ⟨.addClass oldName newName, ⟨hword.1, hword.2.1⟩, rfl⟩, ?_⟩
      rintro _ ⟨⟩
      exact .inl (hwords ▸ List.mem_cons_self)
    · cases h
  case h_2 => cases h

theorem memberLine_adds (hformat : format.TypesFields)
    (h : s.memberLine columns line = .ok s') : s.Adds format line s' := by
  have hword := s.names_of_mem format line
  rw [memberLine] at h
  rcases hclass : s.currentClass with _ | owner
  · rw [hclass] at h
    cases h
  have howner : s.Names format line owner := fun _ => .inr hclass
  simp only [hclass] at h
  split at h
  · split at h
    case h_1 name descriptor newName _ hwords =>
      simp only [hwords, List.forall_mem_cons] at hword
      obtain ⟨hname, hdescriptor, hnew, -⟩ := hword
      split at h
      case isTrue =>
        obtain ⟨_, hcheck, h⟩ := except_bind_ok_iff.1 h
        cases h
        exact .of_step (.addMethod owner name descriptor newName)
          ⟨howner, hname, hnew, hdescriptor, TableLine.checkMethodDescriptor_ok_iff.1 hcheck⟩
          rfl hclass.symm
      case isFalse hparen =>
        cases h
        refine .of_step (.addField owner ⟨name, newName, some descriptor⟩)
          ⟨howner, hname, hnew, ?_⟩ rfl hclass.symm
        rintro _ ⟨⟩
        exact ⟨hdescriptor, by simpa using hparen, hformat⟩
    case h_2 => cases h
  · split at h
    · split at h
      case h_1 name newName _ hwords =>
        simp only [hwords, List.forall_mem_cons] at hword
        cases h
        exact .of_step (.addField owner ⟨name, newName, none⟩)
          ⟨howner, hword.1, hword.2.1, by simp⟩ rfl hclass.symm
      case h_2 => cases h
    · cases h

theorem parameterLine_adds (format : TableFormat) (h : s.parameterLine columns line = .ok s') :
    s.Adds format line s' := by
  have hword := s.names_of_mem format line
  simp only [parameterLine] at h
  split at h
  · cases h
    exact s.adds_nothing format line
  split at h
  case h_2 => cases h
  case h_1 owner method descriptor hclass _ =>
    split at h
    case h_2 => cases h
    case h_1 index oldName newName rest hwords =>
      simp only [hwords, List.forall_mem_cons] at hword
      split at h
      · cases h
      split at h
      case h_2 => cases h
      case h_1 slot hslot =>
        cases h
        refine .of_step (.addParam owner method descriptor (UInt16.ofNat slot) oldName newName)
          ⟨fun _ => .inr hclass, hword.2.1, hword.2.2.1⟩ ?_ rfl
        rw [TableStep.apply, UInt16.toNat_ofNat_of_lt' (Text.lt_of_unsigned? hslot)]

theorem tsrgLine_adds (hformat : format.TypesFields)
    (h : s.tsrgLine columns line = .ok s') : s.Adds format line s' := by
  rw [tsrgLine] at h
  split at h
  case h_1 => exact classLine_adds format h
  case h_2 => exact memberLine_adds hformat h
  case h_3 => exact parameterLine_adds format h
  case h_4 => cases h

theorem readLine_adds (h : s.readLine format line = .ok s') : s.Adds format line s' := by
  cases format with
  | srg => exact srgLine_adds h
  | csrg => exact csrgLine_adds h
  | tsrg => exact tsrgLine_adds trivial h
  | tsrg2 columns => exact tsrgLine_adds trivial h

/-- The state is reached from the first one by lines of these that add what they tell. -/
inductive Reached (format : TableFormat) (lines : List TableLine) : TableState → Prop where
  | start : Reached format lines .start
  | line {s s' : TableState} {line : TableLine} (h : Reached format lines s)
    (hline : line ∈ lines) (hadds : s.Adds format line s') : Reached format lines s'

theorem Reached.foldlM {lines read : List TableLine} (hread : ∀ line ∈ read, line ∈ lines)
    (h : Reached format lines s) (hs : read.foldlM (readLine format) s = .ok s') :
    Reached format lines s' := by
  induction read generalizing s with
  | nil =>
    cases hs
    exact h
  | cons line read ih =>
    rw [List.forall_mem_cons] at hread
    rw [List.foldlM_cons] at hs
    obtain ⟨s₁, hfirst, hrest⟩ := except_bind_ok_iff.1 hs
    exact ih hread.2 (h.line hread.1 (readLine_adds hfirst)) hrest

end TableState

theorem TableFormat.mem_of_mem_body {format : TableFormat} {lines : List TableLine}
    {line : TableLine} (h : line ∈ format.body lines) : line ∈ lines := by
  cases format with
  | tsrg2 columns => exact List.mem_of_mem_drop h
  | srg | csrg | tsrg => exact h

/-- A table that is read has been reached by adding what lines of the text tell. -/
theorem RenameTable.reached_of_parse {text : String} {t : RenameTable}
    (h : RenameTable.parse text = .ok t) :
    ∃ format s, TableFormat.detect (TableLine.ofText text) = .ok format ∧
      TableState.Reached format (TableLine.ofText text) s ∧ s.table = t := by
  obtain ⟨format, hdetect, h⟩ := except_bind_ok_iff.1 h
  obtain ⟨s, hread, h⟩ := except_bind_ok_iff.1 h
  cases h
  exact ⟨format, s, hdetect,
    .foldlM (fun _ => TableFormat.mem_of_mem_body) .start hread, rfl⟩

/-! ## Lines that are refused -/

namespace TableLine

variable {α β : Type} {line : TableLine} {x : Except TableError α}

/-- If there is an error, it is that of this line. -/
def Refuses (line : TableLine) (x : Except TableError α) : Prop :=
  ∀ e, x = .error e → ∃ problem, e = .line line.number problem (String.ofList line.text)

theorem refuses_ok (a : α) : line.Refuses (.ok a) :=
  nofun

theorem refuses_refuse (problem : LineProblem) :
    line.Refuses (line.refuse problem : Except TableError α) := by
  rintro _ ⟨⟩
  exact ⟨problem, rfl⟩

theorem Refuses.bind (h : line.Refuses x) {f : α → Except TableError β}
    (hf : ∀ a, line.Refuses (f a)) : line.Refuses (x >>= f) := by
  intro e he
  rcases except_bind_error_iff.1 he with hx | ⟨a, -, ha⟩
  · exact h e hx
  · exact hf a e ha

theorem refuses_checkMethodDescriptor (descriptor : String) :
    line.Refuses (line.checkMethodDescriptor descriptor) := by
  rw [checkMethodDescriptor]
  split
  · exact refuses_ok ()
  · exact refuses_refuse _

theorem refuses_splitMember (problem : LineProblem) (full : String) :
    line.Refuses (TableState.splitMember line problem full) := by
  rw [TableState.splitMember]
  split
  · exact refuses_ok _
  · exact refuses_refuse _

end TableLine

namespace TableState

open TableLine

variable (s : TableState) (line : TableLine) (columns : ℕ)

theorem refuses_srgLine : line.Refuses (s.srgLine line) := by
  rw [srgLine]
  split
  case h_1 => exact refuses_ok _
  case h_2 => exact refuses_ok _
  case h_3 =>
    exact (refuses_splitMember _ _).bind fun _ => (refuses_splitMember _ _).bind fun _ =>
      refuses_ok _
  case h_4 =>
    exact (refuses_splitMember _ _).bind fun _ => (refuses_splitMember _ _).bind fun _ =>
      (refuses_checkMethodDescriptor _).bind fun _ => refuses_ok _
  case h_5 => exact refuses_refuse _

theorem refuses_csrgLine : line.Refuses (s.csrgLine line) := by
  rw [csrgLine]
  split
  case h_1 => exact refuses_ok _
  case h_2 => exact refuses_ok _
  case h_3 => exact (refuses_checkMethodDescriptor _).bind fun _ => refuses_ok _
  case h_4 => exact refuses_refuse _

theorem refuses_classLine : line.Refuses (s.classLine columns line) := by
  rw [classLine]
  split
  case h_1 =>
    split
    · exact refuses_ok _
    · exact refuses_refuse _
  case h_2 => exact refuses_refuse _

theorem refuses_memberLine : line.Refuses (s.memberLine columns line) := by
  rw [memberLine]
  split
  case h_1 => exact refuses_refuse _
  case h_2 =>
    dsimp only
    split
    · split
      case h_1 =>
        split
        · exact (refuses_checkMethodDescriptor _).bind fun _ => refuses_ok _
        · exact refuses_ok _
      case h_2 => exact refuses_refuse _
    · split
      · split
        · exact refuses_ok _
        · exact refuses_refuse _
      · exact refuses_refuse _

theorem refuses_parameterLine : line.Refuses (s.parameterLine columns line) := by
  simp only [parameterLine]
  split
  · exact refuses_ok _
  split
  case h_2 => exact refuses_refuse _
  case h_1 =>
    split
    case h_2 => exact refuses_refuse _
    case h_1 =>
      split
      · exact refuses_refuse _
      split
      · exact refuses_ok _
      · exact refuses_refuse _

theorem refuses_tsrgLine : line.Refuses (s.tsrgLine columns line) := by
  rw [tsrgLine]
  split
  case h_1 => exact s.refuses_classLine line columns
  case h_2 => exact s.refuses_memberLine line columns
  case h_3 => exact s.refuses_parameterLine line columns
  case h_4 => exact refuses_refuse _

theorem refuses_readLine (format : TableFormat) : line.Refuses (s.readLine format line) := by
  cases format with
  | srg => exact s.refuses_srgLine line
  | csrg => exact s.refuses_csrgLine line
  | tsrg => exact s.refuses_tsrgLine line 2
  | tsrg2 columns => exact s.refuses_tsrgLine line columns

/-- Of any number of lines the first that is not read tells the error. -/
theorem foldlM_readLine_error {format : TableFormat} {lines : List TableLine} {s : TableState}
    {e : TableError} (h : lines.foldlM (readLine format) s = .error e) :
    ∃ line ∈ lines, ∃ problem, e = .line line.number problem (String.ofList line.text) := by
  induction lines generalizing s with
  | nil => cases h
  | cons line lines ih =>
    rw [List.foldlM_cons] at h
    rcases except_bind_error_iff.1 h with hfirst | ⟨s₁, -, hrest⟩
    · exact ⟨line, List.mem_cons_self, s.refuses_readLine line format e hfirst⟩
    · obtain ⟨line', hline, hproblem⟩ := ih hrest
      exact ⟨line', List.mem_cons_of_mem _ hline, hproblem⟩

end TableState

namespace TableFormat

/-- The format is not known, or the first line announces too few columns. -/
theorem detect_error {lines : List TableLine} {e : TableError} (h : detect lines = .error e) :
    e = .unknownFormat ∨ ∃ line ∈ lines, ∃ problem,
      e = .line line.number problem (String.ofList line.text) := by
  rw [detect.eq_def] at h
  split at h
  case h_1 => cases h
  case h_2 first rest =>
    dsimp only at h
    split at h
    case h_1 =>
      split at h
      · exact .inr ⟨first, List.mem_cons_self, TableLine.refuses_refuse _ e h⟩
      · cases h
    case h_2 =>
      split at h
      · cases h
      split at h
      · cases h
        exact .inl rfl
      split at h <;> cases h

end TableFormat

end JarRemap
