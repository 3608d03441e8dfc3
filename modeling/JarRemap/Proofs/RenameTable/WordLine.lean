import JarRemap.Proofs.RenameTable.Spelling

/-!
# Lines of words

What is written of a table is lines of words, with tabs that show what belongs to what. A text of
such lines is taken apart into the same lines (`WordLine.ofText_spell`), and these into the same
words. So what a text is read as follows from what each line is read as, by its words and its depth
(`RenameTable.parse_spell`).
-/

namespace JarRemap

/-! ## Lines of words -/

/-- A line as its words and the number of tabs before them. -/
structure WordLine where
  depth : ℕ
  words : List String

namespace WordLine

variable {w : WordLine}

/-- The letters of the line. -/
def chars (w : WordLine) : List Char :=
  List.replicate w.depth '\t' ++ [' '].intercalate (w.words.map String.toList)

/-- There are words in the line, and they are words. -/
structure Spelled (w : WordLine) : Prop where
  ne_nil : w.words ≠ []
  words : ∀ s ∈ w.words, IsTableWord s

/-- The text of some lines. -/
def spell (rows : List WordLine) : String :=
  String.ofList ((rows.map chars).flatMap fun line => line ++ ['\n'])

theorem Spelled.isWord (h : w.Spelled) : ∀ s ∈ w.words.map String.toList, Text.IsWord s :=
  List.forall_mem_map.2 fun s hs => (h.words s hs).isWord

theorem Spelled.mem_chars (h : w.Spelled) {c : Char} (hc : c ∈ w.chars) :
    c = '\t' ∨ c = ' ' ∨ isWordLetter c = true := by
  rcases List.mem_append.1 hc with hc | hc
  · exact .inl (List.eq_of_mem_replicate hc)
  · refine .inr ((Text.mem_intercalate hc).imp_right ?_)
    rintro ⟨s, hs, hc⟩
    obtain ⟨word, hword, rfl⟩ := List.mem_map.1 hs
    exact (h.words word hword).letters c hc

/-- The line ends in a word. -/
theorem Spelled.chars_eq (h : w.Spelled) : ∃ front s, Text.IsWord s ∧ w.chars = front ++ s := by
  have hne : w.words.map String.toList ≠ [] := by simpa using h.ne_nil
  obtain ⟨front, s, hs, heq⟩ := Text.exists_intercalate_eq hne
  exact ⟨_, s, h.isWord s hs, by rw [chars, heq, List.append_assoc]⟩

theorem Spelled.notMem_chars (h : w.Spelled) {c : Char} (hc : c ≠ '\t' ∧ c ≠ ' ')
    (hletter : isWordLetter c = false) : c ∉ w.chars := by
  intro hmem
  rcases h.mem_chars hmem with h | h | h
  · exact hc.1 h
  · exact hc.2 h
  · rw [hletter] at h
    cases h

theorem Spelled.stripComment_chars (h : w.Spelled) : TableLine.stripComment w.chars = w.chars := by
  have hcomment : w.chars.takeWhile (· != '#') = w.chars := by
    refine List.takeWhile_eq_self_iff.2 fun c hc => bne_iff_ne.2 ?_
    rintro rfl
    exact h.notMem_chars (by decide) (by decide) hc
  obtain ⟨front, s, hs, heq⟩ := h.chars_eq
  rw [TableLine.stripComment, hcomment, heq, Text.trimEnd_append_word hs]

theorem Spelled.not_blank (h : w.Spelled) : w.chars.all Text.isBlank = false := by
  obtain ⟨front, s, hs, heq⟩ := h.chars_eq
  obtain ⟨c, hc⟩ := List.exists_mem_of_ne_nil s hs.1
  rw [List.all_eq_false]
  exact ⟨c, heq ▸ List.mem_append_right front hc, by simp [hs.2 c hc]⟩

/-- The lines of a text that is spelled line by line. -/
theorem ofText_spell {rows : List WordLine} (h : ∀ w ∈ rows, w.Spelled) :
    (TableLine.ofText (spell rows)).map (·.text) = rows.map chars := by
  have hlines : Text.lines (spell rows).toList = rows.map chars := by
    rw [spell, String.toList_ofList]
    refine Text.lines_flatMap (List.forall_mem_map.2 fun w hw => ⟨?_, ?_⟩)
    · exact (h w hw).notMem_chars (by decide) (by decide)
    · obtain ⟨front, s, hs, heq⟩ := (h w hw).chars_eq
      rw [heq, Text.dropEnd?_append_word hs]
  let numbered : List TableLine :=
    (rows.map chars).zipIdx.map fun p => ⟨p.2 + 1, TableLine.stripComment p.1⟩
  have htext : numbered.map (·.text) = rows.map chars := by
    rw [List.map_map]
    change List.map (TableLine.stripComment ∘ Prod.fst) _ = _
    rw [← List.map_map, List.zipIdx_map_fst, List.map_map]
    exact List.map_congr_left fun w hw => (h w hw).stripComment_chars
  have hread : TableLine.ofText (spell rows) =
      numbered.filter fun line => !line.text.all Text.isBlank := by
    rw [TableLine.ofText, hlines]
  rw [hread, List.filter_eq_self.2, htext]
  intro line hline
  have hmem : line.text ∈ rows.map chars := htext ▸ List.mem_map_of_mem hline
  obtain ⟨w, hw, heq⟩ := List.mem_map.1 hmem
  rw [← heq, (h w hw).not_blank]
  rfl

end WordLine

namespace TableLine

variable {line : TableLine} {w : WordLine}

theorem words_of_text (h : w.Spelled) (hline : line.text = w.chars) : line.words = w.words := by
  rw [words, hline, WordLine.chars, Text.words_replicate_append, Text.words_intercalate h.isWord,
    List.map_map]
  exact (List.map_congr_left fun _ _ => String.ofList_toList).trans (List.map_id _)

theorem depth_of_text (h : w.Spelled) (hline : line.text = w.chars) : line.depth = w.depth := by
  obtain ⟨word, rest, hwords⟩ := List.exists_cons_of_ne_nil h.ne_nil
  have hword := h.isWord word.toList (by simp [hwords])
  obtain ⟨c, more, hc⟩ := List.exists_cons_of_ne_nil hword.1
  have htab : c ≠ '\t' := by
    rintro rfl
    exact absurd (hword.2 '\t' (by simp [hc])) (by decide)
  have hbody : ∃ more, [' '].intercalate (w.words.map String.toList) = c :: more := by
    rw [hwords, List.map_cons, hc]
    cases rest.map String.toList with
    | nil => exact ⟨more, by simp⟩
    | cons => exact ⟨_, by rw [Text.intercalate_cons_cons, List.cons_append]⟩
  obtain ⟨more, hbody⟩ := hbody
  rw [depth, hline, WordLine.chars, hbody, List.takeWhile_append_of_pos (by simp),
    List.takeWhile_cons_of_neg (by simpa using htab), List.append_nil, List.length_replicate]

/-- Lines are as deep as they are spelled. -/
theorem any_depth {lines : List TableLine} {rows : List WordLine} (hspelled : ∀ w ∈ rows, w.Spelled)
    (h : lines.map (·.text) = rows.map WordLine.chars) :
    (lines.any fun line => 0 < line.depth) = rows.any fun w => 0 < w.depth := by
  induction rows generalizing lines with
  | nil => rw [List.map_eq_nil_iff.1 h, List.any_nil, List.any_nil]
  | cons w rows ih =>
    obtain ⟨line, lines, rfl, hline, hlines⟩ := List.map_eq_cons_iff.1 h
    rw [List.forall_mem_cons] at hspelled
    rw [List.any_cons, List.any_cons, depth_of_text hspelled.1 hline, ih hspelled.2 hlines]

end TableLine

/-! ## Reading -/

/-- Reading these lines in a format leads from states with the first property to states with the
second. -/
def Reads (format : TableFormat) (pre : TableState → Prop) (rows : List WordLine)
    (post : TableState → Prop) : Prop :=
  ∀ s, pre s → ∀ lines : List TableLine, lines.map (·.text) = rows.map WordLine.chars →
    ∃ s', lines.foldlM (TableState.readLine format) s = .ok s' ∧ post s'

namespace Reads

variable {format : TableFormat} {pre mid post : TableState → Prop} {rows rows' : List WordLine}
  {w : WordLine}

theorem nil : Reads format pre [] pre := by
  intro s hs lines hlines
  obtain rfl := List.map_eq_nil_iff.1 hlines
  exact ⟨s, rfl, hs⟩

theorem append (h : Reads format pre rows mid) (h' : Reads format mid rows' post) :
    Reads format pre (rows ++ rows') post := by
  intro s hs lines hlines
  rw [List.map_append] at hlines
  obtain ⟨front, back, rfl, hfront, hback⟩ := List.map_eq_append_iff.1 hlines
  obtain ⟨s₁, hread, hs₁⟩ := h s hs front hfront
  obtain ⟨s', hread', hs'⟩ := h' s₁ hs₁ back hback
  refine ⟨s', ?_, hs'⟩
  rw [List.foldlM_append, hread]
  exact hread'

theorem weaken (h : Reads format pre rows mid) (hpost : ∀ s, mid s → post s) :
    Reads format pre rows post := by
  intro s hs lines hlines
  obtain ⟨s', hread, hs'⟩ := h s hs lines hlines
  exact ⟨s', hread, hpost s' hs'⟩

/-- One line, of which its words and its depth are read. -/
theorem line (hw : w.Spelled) (h : ∀ s, pre s → ∀ line : TableLine, line.words = w.words →
    line.depth = w.depth → ∃ s', s.readLine format line = .ok s' ∧ post s') :
    Reads format pre [w] post := by
  intro s hs lines hlines
  obtain ⟨line, rfl, htext⟩ := List.map_eq_singleton_iff.1 hlines
  obtain ⟨s', hread, hs'⟩ := h s hs line (TableLine.words_of_text hw htext)
    (TableLine.depth_of_text hw htext)
  exact ⟨s', by rw [List.foldlM_cons, hread]; rfl, hs'⟩

/-- The lines of many things, one after another. -/
theorem flatMap {α : Type} (state : RenameTable → TableState → Prop) (lines : α → List WordLine)
    (next : RenameTable → α → RenameTable) {l : List α}
    (h : ∀ a ∈ l, ∀ t, Reads format (state t) (lines a) (state (next t a))) (t : RenameTable) :
    Reads format (state t) (l.flatMap lines) (state (l.foldl next t)) := by
  induction l generalizing t with
  | nil => exact nil
  | cons a l ih =>
    rw [List.forall_mem_cons] at h
    rw [List.flatMap_cons, List.foldl_cons]
    exact (h.1 t).append (ih h.2 (next t a))

end Reads

/-! ### Lines with columns -/

namespace TableState

variable {s : TableState} {line : TableLine} {columns : ℕ} {owner oldName newName : String}
  {more : List String}

/-- This is the table so far. -/
def HasTable (t : RenameTable) (s : TableState) : Prop :=
  s.table = t

theorem tsrgLine_class (hdepth : line.depth = 0) (hwords : line.words = oldName :: newName :: more)
    (hcount : more.length + 2 = columns) :
    s.tsrgLine columns line = .ok ⟨s.table.addClass oldName newName, some oldName, none⟩ := by
  simp [tsrgLine, hdepth, classLine, hwords, hcount]

theorem tsrgLine_field (hclass : s.currentClass = some owner) (hdepth : line.depth = 1)
    (hwords : line.words = oldName :: newName :: more) (hcount : more.length + 2 = columns) :
    s.tsrgLine columns line =
      .ok ⟨s.table.addField owner ⟨oldName, newName, none⟩, some owner, none⟩ := by
  simp [tsrgLine, hdepth, memberLine, hwords, hcount, hclass]

theorem tsrgLine_method {descriptor : String} (hclass : s.currentClass = some owner)
    (hdepth : line.depth = 1) (hwords : line.words = oldName :: descriptor :: newName :: more)
    (hcount : more.length + 2 = columns) (hok : ∃ d, MethodDescriptor.parse descriptor = .ok d) :
    s.tsrgLine columns line = .ok ⟨s.table.addMethod owner oldName descriptor newName, some owner,
      some (oldName, descriptor)⟩ := by
  have hcheck : line.checkMethodDescriptor descriptor = .ok () :=
    TableLine.checkMethodDescriptor_ok_iff.2 hok
  obtain ⟨d, hd⟩ := hok
  have hparen : Text.beginsWith '(' descriptor = true := by
    rw [(MethodDescriptor.parse_ok_iff.1 hd).2]
    exact d.beginsWith_text
  simp [tsrgLine, hdepth, memberLine, hwords, hcount, hclass, hparen, hcheck, bind, Except.bind,
    pure, Except.pure]

end TableState

/-! ### Whole texts -/

/-- The line that names the columns. -/
def columnHeader (namespaces : List String) : WordLine :=
  ⟨0, "tsrg2" :: namespaces⟩

theorem spelled_columnHeader {namespaces : List String}
    (hwords : ∀ name ∈ namespaces, IsTableWord name) : (columnHeader namespaces).Spelled :=
  ⟨List.cons_ne_nil _ _, List.forall_mem_cons.2 ⟨by decide, hwords⟩⟩

/-- A line that names the columns tells the format, and the other lines are what is read. -/
theorem TableFormat.detect_columnHeader {namespaces : List String} {rows : List WordLine}
    {lines : List TableLine} (hcount : 2 ≤ namespaces.length)
    (hwords : ∀ name ∈ namespaces, IsTableWord name)
    (h : lines.map (·.text) = (columnHeader namespaces :: rows).map WordLine.chars) :
    detect lines = .ok (.tsrg2 namespaces.length) ∧
      ((tsrg2 namespaces.length).body lines).map (·.text) = rows.map WordLine.chars := by
  obtain ⟨first, rest, rfl, hfirst, hrest⟩ := List.map_eq_cons_iff.1 h
  refine ⟨?_, hrest⟩
  have hchars : first.text =
      "tsrg2 ".toList ++ [' '].intercalate (namespaces.map String.toList) := by
    obtain ⟨name, names, rfl⟩ := List.exists_cons_of_ne_nil (List.ne_nil_of_length_pos
      (show 0 < namespaces.length by omega))
    rw [hfirst, WordLine.chars, columnHeader, List.map_cons, List.map_cons,
      Text.intercalate_cons_cons]
    rfl
  have hcolumns : (Text.words ([' '].intercalate (namespaces.map String.toList))).length =
      namespaces.length := by
    rw [Text.words_intercalate (List.forall_mem_map.2 fun name hname => (hwords name hname).isWord),
      List.length_map]
  rw [detect, Text.dropStart?_eq_some_iff.2 hchars]
  simp only [hcolumns]
  rw [if_neg (by omega)]

/-- A text is read as its lines are, if the format that they have tells how. -/
theorem RenameTable.parse_spell {format : TableFormat} {rows body : List WordLine}
    {pre : TableState → Prop} {t : RenameTable} (hspelled : ∀ w ∈ rows, w.Spelled)
    (hformat : ∀ lines : List TableLine, lines.map (·.text) = rows.map WordLine.chars →
      TableFormat.detect lines = .ok format ∧
        (format.body lines).map (·.text) = body.map WordLine.chars)
    (hreads : Reads format pre body (TableState.HasTable t)) (hstart : pre .start) :
    parse (WordLine.spell rows) = .ok t := by
  obtain ⟨hdetect, hbody⟩ := hformat _ (WordLine.ofText_spell hspelled)
  obtain ⟨s, hread, hs⟩ := hreads .start hstart _ hbody
  exact except_bind_ok_iff.2 ⟨_, hdetect, except_bind_ok_iff.2 ⟨s, hread, congrArg Except.ok hs⟩⟩

end JarRemap
