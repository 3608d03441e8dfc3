import JarRemap.Proofs.RenameTable.CommonLine

/-!
# One table in all formats

The first line of a text tells which format it has, if no class has a name that looks like the
beginning of a table in another format (`TableFormat.detect_mark`, `TableFormat.detect_rows`). So
whichever format and order a text has, it is read as a table that says the renames in it
(`CommonRename.TextOf.parse_ok`). As the order of renames does not count, these tables agree
(`CommonRename.formats_agree`).
-/

namespace JarRemap

/-! ## Telling formats -/

namespace TableFormat

variable {first : TableLine} {lines : List TableLine} {rest : List Char}

/-- A mark at its beginning tells a table of SRG. -/
theorem detect_mark {mark : String} (hmark : mark ∈ srgMarks)
    (hfirst : first.text = mark.toList ++ rest) : detect (first :: lines) = .ok .srg := by
  have hheader : Text.dropStart? "tsrg2 ".toList first.text = none := by
    rw [hfirst]
    simp only [srgMarks, List.mem_cons, List.not_mem_nil, or_false] at hmark
    rcases hmark with rfl | rfl | rfl | rfl <;> rfl
  have hany : (srgMarks.any fun mark => mark.toList.isPrefixOf first.text) = true :=
    List.any_eq_true.2 ⟨mark, hmark, List.isPrefixOf_iff_prefix.2 (hfirst ▸ List.prefix_append _ _)⟩
  rw [detect, hheader]
  simp only [hany, if_true]

/-- A plain name tells a table of CSRG, or of TSRG if there are lines after tabs. -/
theorem detect_plain {name : String} (hname : IsTableWord name)
    (hplain : CommonRename.IsPlainName name) (hfirst : first.text = name.toList ++ ' ' :: rest)
    (hdepth : first.depth = 0) :
    detect (first :: lines) =
      if lines.any fun line => 0 < line.depth then .ok .tsrg else .ok .csrg := by
  have hblank : ' ' ∉ name.toList := fun hmem => absurd (hname.letters ' ' hmem) (by decide)
  have hheader : Text.dropStart? "tsrg2 ".toList first.text = none := by
    refine Option.eq_none_iff_forall_ne_some.2 fun header hdrop => hplain.no_header ?_
    have heq := Text.dropStart?_eq_some_iff.1 hdrop
    change first.text = "tsrg2".toList ++ ' ' :: header at heq
    -- The first blank stands behind the name, and behind the word that begins a header.
    have hcut := Text.cutFirst?_eq_some_iff.2 ⟨hfirst, hblank⟩
    have hcut' := Text.cutFirst?_eq_some_iff.2 ⟨heq, by decide⟩
    rw [hcut, Option.some.injEq, Prod.mk.injEq] at hcut'
    exact String.toList_inj.1 hcut'.1
  have hany : (srgMarks.any fun mark => mark.toList.isPrefixOf first.text) = false := by
    refine List.any_eq_false.2 fun mark hmark hprefix => hplain.no_mark mark hmark ?_
    rw [List.isPrefixOf_iff_prefix, hfirst] at hprefix
    have hnot : ∀ mark ∈ srgMarks, ' ' ∉ mark.toList := by decide
    exact Text.prefix_of_prefix_append_cons hprefix (hnot mark hmark)
  rw [detect, hheader]
  simp only [hany, hdepth, Bool.false_eq_true, lt_irrefl, if_false]

/-- The same where the lines are known by their words. -/
theorem detect_rows {name : String} {w : WordLine} {rows : List WordLine}
    (hname : IsTableWord name) (hplain : CommonRename.IsPlainName name)
    (hspelled : ∀ w' ∈ w :: rows, w'.Spelled) (hdepth : w.depth = 0)
    (hchars : ∃ rest, w.chars = name.toList ++ ' ' :: rest)
    (h : lines.map (·.text) = (w :: rows).map WordLine.chars) :
    detect lines = if rows.any fun w => 0 < w.depth then .ok .tsrg else .ok .csrg := by
  obtain ⟨first, lines, rfl, hfirst, hlines⟩ := List.map_eq_cons_iff.1 h
  obtain ⟨rest, hchars⟩ := hchars
  rw [List.forall_mem_cons] at hspelled
  rw [detect_plain hname hplain (hfirst.trans hchars)
      ((TableLine.depth_of_text hspelled.1 hfirst).trans hdepth),
    TableLine.any_depth hspelled.2 hlines]

end TableFormat

namespace CommonRename

/-! ## Texts -/

/-- Renames that can be said in every format: they rename different things, and with each member
the class that declares it. -/
structure Sayable (rs : List CommonRename) : Prop where
  keys_nodup : (rs.map key).Nodup
  owners : ∀ r ∈ rs, ∃ newName, .ofClass r.owner newName ∈ rs
  spellable : ∀ r ∈ rs, r.Spellable
  plain : ∀ r ∈ rs, IsPlainName r.owner

/-- Members stand behind their class, with none of another class in between. Here they follow what
belongs to the class `current`. -/
def Grouped (current : Option String) : List CommonRename → Prop
  | [] => True
  | r :: rs => (r.className? = none → current = some r.owner) ∧ Grouped (some r.owner) rs

/-- A text that says these renames in a format. Only where the lines of members do not name their
class does their place count. -/
inductive TextOf (rs : List CommonRename) : TableFormat → String → Prop
  | srg {rs' : List CommonRename} {rows : List WordLine} (hperm : rs'.Perm rs)
    (hrows : List.Forall₂ SrgLine rs' rows) : TextOf rs .srg (WordLine.spell rows)
  | csrg {rs' : List CommonRename} {rows : List WordLine} (hperm : rs'.Perm rs)
    (hrows : List.Forall₂ CsrgLine rs' rows) : TextOf rs .csrg (WordLine.spell rows)
  | tsrg {rs' : List CommonRename} {rows : List WordLine} (hperm : rs'.Perm rs)
    (hgrouped : Grouped none rs') (hrows : List.Forall₂ (ColumnLine 2) rs' rows) :
    TextOf rs .tsrg (WordLine.spell rows)
  | tsrg2 {rs' : List CommonRename} {rows : List WordLine} {namespaces : List String}
    (hperm : rs'.Perm rs) (hgrouped : Grouped none rs') (hcount : 2 ≤ namespaces.length)
    (hwords : ∀ name ∈ namespaces, IsTableWord name)
    (hrows : List.Forall₂ (ColumnLine namespaces.length) rs' rows) :
    TextOf rs (.tsrg2 namespaces.length) (WordLine.spell (columnHeader namespaces :: rows))

/-! ## Reading lines -/

open TableState

variable {rs : List CommonRename} {r : CommonRename} {rows : List WordLine} {columns : ℕ}

theorem spelled_rows {line : CommonRename → WordLine → Prop} (hrows : List.Forall₂ line rs rows)
    (hrs : ∀ r ∈ rs, r.Spellable) (hline : ∀ {r w}, line r w → r.Spellable → w.Spelled) :
    ∀ w ∈ rows, w.Spelled :=
  forall_of_forall₂ (p := Spellable) (fun _ _ => hline) hrows hrs

/-- Lines that each add a rename add them all. -/
theorem reads_forall₂ {format : TableFormat} {line : CommonRename → WordLine → Prop}
    (hline : ∀ r w t, line r w → r.Spellable →
      Reads format (HasTable t) [w] (HasTable (apply t r)))
    (hrows : List.Forall₂ line rs rows) (hrs : ∀ r ∈ rs, r.Spellable) (t : RenameTable) :
    Reads format (HasTable t) rows (HasTable (rs.foldl apply t)) := by
  induction hrows generalizing t with
  | nil => exact .nil
  | cons h _ ih =>
    rw [List.forall_mem_cons] at hrs
    exact (hline _ _ t h hrs.1).append (ih hrs.2 _)

/-- Lines with columns add their renames if members stand behind their class. -/
theorem reads_grouped (format : TableFormat)
    (hformat : ∀ (s : TableState) line, s.readLine format line = s.tsrgLine columns line)
    (hrows : List.Forall₂ (ColumnLine columns) rs rows) (hrs : ∀ r ∈ rs, r.Spellable)
    {current : Option String} (hgrouped : Grouped current rs) (t : RenameTable) :
    Reads format (AtClass current t) rows (HasTable (rs.foldl apply t)) := by
  induction hrows generalizing current t with
  | nil => exact Reads.nil.weaken fun s hs => hs.1
  | cons h _ ih =>
    rw [List.forall_mem_cons] at hrs
    exact (h.reads hrs.1 hformat hgrouped.1).append (ih hrs.2 hgrouped.2 _)

/-! ## Reading texts -/

/-- A text of SRG is read as its renames in their order. -/
theorem parse_srg (hrows : List.Forall₂ SrgLine rs rows) (hrs : ∀ r ∈ rs, r.Spellable) :
    RenameTable.parse (WordLine.spell rows) = .ok (table rs) := by
  have hspelled := spelled_rows hrows hrs SrgLine.spelled
  have hreads := reads_forall₂ (fun _ _ _ => SrgLine.reads) hrows hrs .empty
  cases hrows with
  | nil => rfl
  | cons h _ =>
    refine RenameTable.parse_spell hspelled ?_ hreads rfl
    intro lines hlines
    refine ⟨?_, hlines⟩
    obtain ⟨first, rest, rfl, hfirst, -⟩ := List.map_eq_cons_iff.1 hlines
    obtain ⟨mark, hmark, after, hchars⟩ := h.exists_mark
    exact TableFormat.detect_mark hmark (hfirst.trans hchars)

/-- A text of CSRG is read as its renames in their order. -/
theorem parse_csrg (hrows : List.Forall₂ CsrgLine rs rows) (hrs : ∀ r ∈ rs, r.Spellable)
    (hplain : ∀ r ∈ rs, IsPlainName r.owner) :
    RenameTable.parse (WordLine.spell rows) = .ok (table rs) := by
  have hspelled := spelled_rows hrows hrs CsrgLine.spelled
  have hreads := reads_forall₂ (fun _ _ _ => CsrgLine.reads) hrows hrs .empty
  have hdepth : ∀ w ∈ rows, w.depth = 0 := by
    intro w hw
    obtain ⟨r, -, h⟩ := exists_left_of_mem hrows hw
    exact h.begins.1
  cases hrows with
  | nil => rfl
  | cons h _ =>
    refine RenameTable.parse_spell hspelled ?_ hreads rfl
    intro lines hlines
    rw [List.forall_mem_cons] at hrs hplain hdepth
    obtain ⟨hzero, hchars⟩ := h.begins
    refine ⟨?_, hlines⟩
    rw [TableFormat.detect_rows hrs.1.isTableWord_owner hplain.1 hspelled hzero hchars hlines,
      if_neg (by simpa using hdepth.2)]

/-- A text of TSRG is read as its renames in their order. -/
theorem parse_tsrg (hrows : List.Forall₂ (ColumnLine 2) rs rows) (hgrouped : Grouped none rs)
    (hrs : ∀ r ∈ rs, r.Spellable) (hplain : ∀ r ∈ rs, IsPlainName r.owner) :
    RenameTable.parse (WordLine.spell rows) = .ok (table rs) := by
  by_cases htabs : (rows.any fun w => 0 < w.depth) = true
  · have hspelled := spelled_rows hrows hrs ColumnLine.spelled
    have hreads := reads_grouped .tsrg (fun _ _ => rfl) hrows hrs hgrouped .empty
    cases hrows with
    | nil => rfl
    | cons h _ =>
      refine RenameTable.parse_spell hspelled ?_ hreads ⟨rfl, rfl⟩
      intro lines hlines
      refine ⟨?_, hlines⟩
      rw [List.forall_mem_cons] at hrs hplain
      -- The first rename is that of a class, so its line has no tab.
      obtain ⟨hzero, hchars⟩ := h.begins fun hmember => by cases hgrouped.1 hmember
      rw [List.any_cons, hzero] at htabs
      rw [TableFormat.detect_rows hrs.1.isTableWord_owner hplain.1 hspelled hzero hchars hlines,
        if_pos (by simpa using htabs)]
  · -- There are no members, so this is a text of CSRG as well.
    have hdepth : ∀ w ∈ rows, w.depth = 0 := by simpa using htabs
    have hrows' := (List.forall₂_and_left _ _).2 ⟨hdepth, hrows.flip⟩
    exact parse_csrg (hrows'.imp fun _ _ h => h.2.csrgLine h.1).flip hrs hplain

/-- A text of TSRG2 is read as its renames in their order. -/
theorem parse_tsrg2 {namespaces : List String} (hcount : 2 ≤ namespaces.length)
    (hwords : ∀ name ∈ namespaces, IsTableWord name)
    (hrows : List.Forall₂ (ColumnLine namespaces.length) rs rows) (hgrouped : Grouped none rs)
    (hrs : ∀ r ∈ rs, r.Spellable) :
    RenameTable.parse (WordLine.spell (columnHeader namespaces :: rows)) = .ok (table rs) := by
  have hspelled := spelled_rows hrows hrs ColumnLine.spelled
  have hreads := reads_grouped (.tsrg2 namespaces.length) (fun _ _ => rfl) hrows hrs hgrouped
    .empty
  exact RenameTable.parse_spell (List.forall_mem_cons.2 ⟨spelled_columnHeader hwords, hspelled⟩)
    (fun _ hlines => TableFormat.detect_columnHeader hcount hwords hlines) hreads ⟨rfl, rfl⟩

/-- A text of any format is read as its renames in some order. -/
theorem TextOf.parse_ok {format : TableFormat} {text : String} (h : TextOf rs format text)
    (hrs : Sayable rs) :
    ∃ rs', rs'.Perm rs ∧ RenameTable.parse text = .ok (table rs') := by
  cases h with
  | srg hperm hrows =>
    have hspellable := fun r hr => hrs.spellable r (hperm.subset hr)
    exact ⟨_, hperm, parse_srg hrows hspellable⟩
  | csrg hperm hrows =>
    have hspellable := fun r hr => hrs.spellable r (hperm.subset hr)
    exact ⟨_, hperm, parse_csrg hrows hspellable fun r hr => hrs.plain r (hperm.subset hr)⟩
  | tsrg hperm hgrouped hrows =>
    have hspellable := fun r hr => hrs.spellable r (hperm.subset hr)
    exact ⟨_, hperm, parse_tsrg hrows hgrouped hspellable fun r hr => hrs.plain r (hperm.subset hr)⟩
  | tsrg2 hperm hgrouped hcount hwords hrows =>
    have hspellable := fun r hr => hrs.spellable r (hperm.subset hr)
    exact ⟨_, hperm, parse_tsrg2 hcount hwords hrows hgrouped hspellable⟩

/-! ## Texts that there are -/

/-- A class and what is renamed in it. -/
def block (rs : List CommonRename) (r : CommonRename) : List CommonRename :=
  r :: (ofOwner r.owner rs).filter (·.className?.isNone)

/-- The renames class by class. -/
def grouped (rs : List CommonRename) : List CommonRename :=
  (rs.filter (·.className?.isSome)).flatMap (block rs)

theorem grouped_append {owner : String} {members rest : List CommonRename}
    (hmembers : ∀ r ∈ members, r.owner = owner) (hrest : Grouped (some owner) rest) :
    Grouped (some owner) (members ++ rest) := by
  induction members with
  | nil => exact hrest
  | cons r members ih =>
    rw [List.forall_mem_cons] at hmembers
    obtain ⟨rfl, hmembers⟩ := hmembers
    exact ⟨fun _ => rfl, ih hmembers⟩

theorem grouped_flatMap_block {classes : List CommonRename}
    (hclasses : ∀ r ∈ classes, r.className?.isSome) (current : Option String) :
    Grouped current (classes.flatMap (block rs)) := by
  induction classes generalizing current with
  | nil => trivial
  | cons r classes ih =>
    rw [List.forall_mem_cons] at hclasses
    rw [List.flatMap_cons, block, List.cons_append]
    refine ⟨fun hnone => ?_, grouped_append (fun r' hr' => ?_) (ih hclasses.2 _)⟩
    · rw [hnone] at hclasses
      cases hclasses.1
    · exact (mem_ofOwner.1 (List.mem_filter.1 hr').1).2

theorem mem_block {r' : CommonRename} :
    r' ∈ block rs r ↔ r' = r ∨ r' ∈ rs ∧ r'.owner = r.owner ∧ r'.className? = none := by
  rw [block, List.mem_cons, List.mem_filter, mem_ofOwner, Option.isNone_iff_eq_none, and_assoc]

theorem owner_of_mem_block {r' : CommonRename} (h : r' ∈ block rs r) : r'.owner = r.owner := by
  rcases mem_block.1 h with rfl | ⟨-, howner, -⟩
  · rfl
  · exact howner

theorem key_of_isSome (h : r.className?.isSome) : r.key = (r.owner, none) := by
  cases r with
  | ofClass => rfl
  | ofField | ofMethod => cases h

/-- Class by class there are the same renames. -/
theorem grouped_perm (hnodup : (rs.map key).Nodup)
    (howners : ∀ r ∈ rs, ∃ newName, .ofClass r.owner newName ∈ rs) : (grouped rs).Perm rs := by
  have hrs : rs.Nodup := hnodup.of_map
  have hgrouped : (grouped rs).Nodup := by
    refine List.nodup_flatMap.2 ⟨fun r hr => ?_, ?_⟩
    · refine List.nodup_cons.2 ⟨fun hmem => ?_, (hrs.filter _).filter _⟩
      have hnone := (List.mem_filter.1 hmem).2
      have hsome := (List.mem_filter.1 hr).2
      simp [Option.isNone_iff_eq_none.1 hnone] at hsome
    · refine (hrs.filter _).imp_of_mem fun {r r'} hr hr' hne => ?_
      obtain ⟨hr, hsome⟩ := List.mem_filter.1 hr
      obtain ⟨hr', hsome'⟩ := List.mem_filter.1 hr'
      -- What two blocks share has one owner, so both are of one class.
      intro other h h'
      have hkey : r.key = r'.key := by
        rw [key_of_isSome hsome, key_of_isSome hsome', ← owner_of_mem_block h,
          ← owner_of_mem_block h']
      exact hne (List.inj_on_of_nodup_map hnodup hr hr' hkey)
  rw [List.perm_ext_iff_of_nodup hgrouped hrs]
  intro r
  rw [grouped, List.mem_flatMap]
  constructor
  · rintro ⟨r', hr', h⟩
    rcases mem_block.1 h with rfl | ⟨hr, -⟩
    · exact (List.mem_filter.1 hr').1
    · exact hr
  · intro hr
    by_cases hsome : r.className?.isSome
    · exact ⟨r, List.mem_filter.2 ⟨hr, hsome⟩, mem_block.2 (.inl rfl)⟩
    · obtain ⟨newName, hclass⟩ := howners r hr
      exact ⟨_, List.mem_filter.2 ⟨hclass, rfl⟩,
        mem_block.2 (.inr ⟨hr, rfl, Option.not_isSome_iff_eq_none.1 hsome⟩)⟩

theorem exists_rows {line : CommonRename → WordLine → Prop} (h : ∀ r, ∃ w, line r w)
    (rs : List CommonRename) : ∃ rows, List.Forall₂ line rs rows := by
  induction rs with
  | nil => exact ⟨[], .nil⟩
  | cons r rs ih =>
    obtain ⟨w, hw⟩ := h r
    obtain ⟨rows, hrows⟩ := ih
    exact ⟨w :: rows, .cons hw hrows⟩

theorem exists_srgLine (r : CommonRename) : ∃ w, SrgLine r w := by
  have hword : IsTableWord "x" := by decide
  cases r with
  | ofClass oldName newName => exact ⟨_, .ofClass oldName newName⟩
  | ofField owner oldName newName => exact ⟨_, .ofField owner oldName newName hword⟩
  | ofMethod owner oldName descriptor newName =>
    exact ⟨_, .ofMethod owner oldName descriptor newName hword hword⟩

theorem exists_csrgLine (r : CommonRename) : ∃ w, CsrgLine r w := by
  cases r with
  | ofClass oldName newName => exact ⟨_, .ofClass oldName newName⟩
  | ofField owner oldName newName => exact ⟨_, .ofField owner oldName newName⟩
  | ofMethod owner oldName descriptor newName =>
    exact ⟨_, .ofMethod owner oldName descriptor newName⟩

theorem exists_columnLine (hcolumns : 2 ≤ columns) (r : CommonRename) :
    ∃ w, ColumnLine columns r w := by
  have hwords : ∀ s ∈ List.replicate (columns - 2) "x", IsTableWord s := by
    intro s hs
    rw [List.eq_of_mem_replicate hs]
    decide
  have hcount : (List.replicate (columns - 2) "x").length + 2 = columns := by
    rw [List.length_replicate]
    omega
  cases r with
  | ofClass oldName newName => exact ⟨_, .ofClass oldName newName hwords hcount⟩
  | ofField owner oldName newName => exact ⟨_, .ofField owner oldName newName hwords hcount⟩
  | ofMethod owner oldName descriptor newName =>
    exact ⟨_, .ofMethod owner oldName descriptor newName hwords hcount⟩

/-- There is a text in each format, with any number of columns from two on. -/
theorem exists_textOf (hrs : Sayable rs) {format : TableFormat}
    (hcolumns : ∀ columns, format = .tsrg2 columns → 2 ≤ columns) :
    ∃ text, TextOf rs format text := by
  have hperm := grouped_perm hrs.keys_nodup hrs.owners
  have hgrouped : Grouped none (grouped rs) :=
    grouped_flatMap_block (fun _ hr => (List.mem_filter.1 hr).2) none
  cases format with
  | srg =>
    obtain ⟨rows, hrows⟩ := exists_rows exists_srgLine rs
    exact ⟨_, .srg (.refl rs) hrows⟩
  | csrg =>
    obtain ⟨rows, hrows⟩ := exists_rows exists_csrgLine rs
    exact ⟨_, .csrg (.refl rs) hrows⟩
  | tsrg =>
    obtain ⟨rows, hrows⟩ := exists_rows (exists_columnLine le_rfl) (grouped rs)
    exact ⟨_, .tsrg hperm hgrouped hrows⟩
  | tsrg2 columns =>
    have hcount := hcolumns columns rfl
    obtain ⟨rows, hrows⟩ := exists_rows (exists_columnLine hcount) (grouped rs)
    obtain ⟨namespaces, rfl, hwords⟩ : ∃ namespaces : List String,
        namespaces.length = columns ∧ ∀ name ∈ namespaces, IsTableWord name := by
      refine ⟨List.replicate columns "x", List.length_replicate, fun name hname => ?_⟩
      rw [List.eq_of_mem_replicate hname]
      decide
    exact ⟨_, .tsrg2 hperm hgrouped hcount hwords hrows⟩

/-! ## One table -/

/-- Renames that can be said in every format have a text in each of them, and whatever texts say
these renames, in whatever formats and orders, they are read as tables that agree, and that have
each rename where it is looked up. -/
theorem formats_agree (hrs : Sayable rs) :
    (∀ format, (∀ columns, format = .tsrg2 columns → 2 ≤ columns) →
      ∃ text, TextOf rs format text) ∧
    ∀ format format' text text', TextOf rs format text → TextOf rs format' text' →
      ∃ t t', RenameTable.parse text = .ok t ∧ RenameTable.parse text' = .ok t' ∧
        t.agrees t' = true ∧ ∀ r ∈ rs, r.ToldBy t := by
  refine ⟨fun format hcolumns => exists_textOf hrs hcolumns, ?_⟩
  intro format format' text text' h h'
  obtain ⟨rs₁, hperm, hparse⟩ := h.parse_ok hrs
  obtain ⟨rs₂, hperm', hparse'⟩ := h'.parse_ok hrs
  have hnodup : ∀ {l}, List.Perm l rs → (l.map key).Nodup :=
    fun hl => (hl.map key).nodup_iff.2 hrs.keys_nodup
  refine ⟨_, _, hparse, hparse', agrees_of_perm (hperm.trans hperm'.symm) (hnodup hperm'), ?_⟩
  exact fun r hr => toldBy_table (hnodup hperm) (hperm.symm.subset hr)

/-- Members that stand before their class, and behind it with a third column. -/
theorem formats_agree_membersFirst :
    ∃ t t',
      RenameTable.parse "FD: a/f net/Foo/count\nMD: a/m (La;)V x/run (Lx;)V\nCL: a net/Foo\n" =
        .ok t ∧
      RenameTable.parse "tsrg2 left right id\na net/Foo 1\n\tm (La;)V run 2\n\tf count 3\n" =
        .ok t' ∧
      t.agrees t' = true ∧ t.methodName? "a" "m" "(La;)V" = some "run" := by
  let f : CommonRename := .ofField "a" "f" "count"
  let m : CommonRename := .ofMethod "a" "m" "(La;)V" "run"
  let c : CommonRename := .ofClass "a" "net/Foo"
  have hparse : MethodDescriptor.parse "(La;)V" = .ok ⟨[⟨0, .object "a"⟩], none⟩ := by
    decide +kernel
  have hrs : Sayable [f, m, c] := by
    have howner : ∀ r ∈ [f, m, c], r.owner = "a" := by decide
    refine ⟨by decide, fun r hr => ⟨"net/Foo", ?_⟩, ?_, fun r hr => ?_⟩
    · rw [howner r hr]
      exact List.mem_of_mem_getLast? rfl
    · simp only [List.forall_mem_cons]
      refine ⟨⟨by decide, ⟨by decide, by decide⟩, by decide, by decide⟩, ?_,
        ⟨by decide, by decide⟩, by simp⟩
      exact ⟨by decide, ⟨by decide, by decide⟩, ⟨by decide, by decide⟩, _, hparse, by decide⟩
    · rw [howner r hr]
      exact ⟨by decide, by decide⟩
  have hsrg : TextOf [f, m, c] .srg (WordLine.spell
      [⟨0, ["FD:", "a" ++ "/" ++ "f", "net/Foo" ++ "/" ++ "count"]⟩,
        ⟨0, ["MD:", "a" ++ "/" ++ "m", "(La;)V", "x" ++ "/" ++ "run", "(Lx;)V"]⟩,
        ⟨0, ["CL:", "a", "net/Foo"]⟩]) :=
    .srg (.refl _) (.cons (.ofField _ _ _ (by decide))
      (.cons (.ofMethod _ _ _ _ (by decide) (by decide)) (.cons (.ofClass _ _) .nil)))
  have hgrouped : Grouped none [c, m, f] :=
    ⟨fun h => absurd h (by decide), fun _ => rfl, fun _ => rfl, trivial⟩
  have hrows : List.Forall₂ (ColumnLine ["left", "right", "id"].length) [c, m, f]
      [⟨0, ["a", "net/Foo", "1"]⟩, ⟨1, ["m", "(La;)V", "run", "2"]⟩, ⟨1, ["f", "count", "3"]⟩] :=
    .cons (.ofClass _ _ (by decide) rfl) (.cons (.ofMethod _ _ _ _ (by decide) rfl)
      (.cons (.ofField _ _ _ (by decide) rfl) .nil))
  have htsrg2 := TextOf.tsrg2 (show [c, m, f].Perm [f, m, c] by decide) hgrouped (by decide)
    (by decide) hrows
  obtain ⟨t, t', ht, ht', hagree, htold⟩ := (formats_agree hrs).2 _ _ _ _ hsrg htsrg2
  exact ⟨t, t', ht, ht', hagree, htold m (by simp)⟩

end CommonRename

end JarRemap
