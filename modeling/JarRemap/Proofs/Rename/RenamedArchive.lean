import JarRemap.Proofs.Hierarchy.Ancestors
import JarRemap.Proofs.Rename.RenamedShape
import JarRemap.Proofs.RenameTable.Reverse

/-!
# A renamed archive

The classes of an archive are renamed by a table that is one-to-one on their names. Then a name has
a class in the archive exactly if its new name has one in the renamed archive, the second is the
first one renamed, and the ancestors of one correspond to those of the other. So both archives can
be walked without meeting a cycle, if one can.
-/

namespace JarRemap

open ConstantPool Walk

/-- The classes of an archive. -/
def ClassPath.ofArchive (entries : List ClassEntry) : ClassPath :=
  ⟨[Entry.classSource (entries.map .ofClass)]⟩

/-- A remapper with a table on the classes of an archive. -/
def Remapper.onArchive (t : RenameTable) (entries : List ClassEntry) : Remapper :=
  ⟨t, .ofArchive entries⟩

/-- The entries are renamed one by one, each of them at some point of a renaming. -/
def RenamedEach (r : Remapper) : List ClassEntry → List ClassEntry → Prop :=
  List.Forall₂ fun e e' => ∃ s s', Renaming.Reachable r s ∧
    Renaming.processClass r e s = (.ok e', s')

/-- A run over the classes of an archive renames them one by one. -/
theorem RenamedEach.of_mapM {r : Remapper} {entries entries' : List ClassEntry}
    {s s' : RenamingState} (hs : Renaming.Reachable r s)
    (h : entries.mapM (Renaming.processClass r) s = (.ok entries', s')) :
    RenamedEach r entries entries' := by
  induction entries generalizing entries' s with
  | nil =>
    cases h
    exact .nil
  | cons e rest ih =>
    rw [List.mapM_cons] at h
    obtain ⟨e', s₁, he, h⟩ := bind_stateful_ok_iff.1 h
    obtain ⟨rest', s₂, hrest, h⟩ := bind_stateful_ok_iff.1 h
    cases h
    have hs₁ : Renaming.Reachable r s₁ := by
      have := hs.step e
      rwa [he] at this
    exact .cons ⟨s, s₁, hs, he⟩ (ih hs₁ hrest)

/-- Each class of the archive is stored under its own name, and the names of classes that the
hierarchy sees are all in `names`. -/
structure ArchiveOver (names : Set String) (entries : List ClassEntry) : Prop where
  stored : ∀ e ∈ entries, ∃ c, ClassFile.parse e.data = .ok c ∧ c.name = .ok e.name
  names_mem : ∀ e ∈ entries, e.name ∈ names
  parents_mem : ∀ e ∈ entries, ∀ s, ClassShape.parse e.data = .ok s →
    ∀ p ∈ s.parents, p ∈ names ∨ Text.beginsWith '[' p = true
  members_only : ∀ e ∈ entries, ∀ s, ClassShape.parse e.data = .ok s →
    ∀ kind, ∀ m ∈ s.members kind, NamesOnly names m.descriptor

/-! ## Class constants -/

/-- What is among the names unless it is an array. -/
theorem mem_of_not_bracket {names : Set String} {p : String}
    (h : p ∈ names ∨ Text.beginsWith '[' p = true) (hbracket : Text.beginsWith '[' p = false) :
    p ∈ names :=
  h.resolve_right (by rw [hbracket]; exact Bool.false_ne_true)

/-- An array stays an array. -/
theorem beginsWith_bracket_of_rename {f : String → String} {s s' : String}
    (hs : Text.beginsWith '[' s = true) (h : renameDescriptor f s = .ok s') :
    Text.beginsWith '[' s' = true := by
  obtain ⟨d, -, rfl, rfl⟩ := renameDescriptor_ok_iff.1 h
  rw [Text.beginsWith] at hs ⊢
  cases d with
  | method d =>
    rw [Descriptor.text, MethodDescriptor.text, String.toList_ofList] at hs
    cases hs
  | field t =>
    obtain ⟨dimensions, base⟩ := t
    rw [Descriptor.text, FieldType.text, String.toList_ofList, FieldType.chars] at hs
    rw [Descriptor.rename, Descriptor.text, FieldType.text, String.toList_ofList, FieldType.chars]
    simp only [FieldType.rename] at hs ⊢
    generalize dimensions.toNat = n at hs ⊢
    rcases n with _ | n
    · obtain ⟨c, rest, hchars, hc, -⟩ := base.head_chars
      rw [List.replicate_zero, List.nil_append, hchars] at hs
      simp [hc] at hs
    · rfl

namespace RenameTable

variable {t t' : RenameTable} {names : Set String}

theorem newClassConstant_of_class {p : String} (h : Text.beginsWith '[' p = false) :
    t.newClassConstant p = .ok (t.newClassName p) := by
  rw [newClassConstant, h, if_neg Bool.false_ne_true]

theorem newClassConstant_of_array {p : String} (h : Text.beginsWith '[' p = true) :
    t.newClassConstant p = renameDescriptor t.newClassName p := by
  rw [newClassConstant, h, if_pos rfl]

/-- The new form of a name begins as an array exactly if the name does. -/
theorem OneToOne.beginsWith_iff (hone : t.OneToOne names) {p p' : String}
    (h : t.newClassConstant p = .ok p') :
    Text.beginsWith '[' p' = Text.beginsWith '[' p := by
  rcases hbracket : Text.beginsWith '[' p with _ | _
  · rw [newClassConstant_of_class hbracket] at h
    cases h
    exact hone.no_bracket hbracket
  · rw [newClassConstant_of_array hbracket] at h
    exact beginsWith_bracket_of_rename hbracket h

end RenameTable

/-! ## Entries -/

/-- How an entry of the archive and its renamed form correspond. -/
structure StoredRenamed (r : Remapper) (names : Set String) (e e' : ClassEntry) : Prop where
  version_eq : e'.version = e.version
  name_iff : ∀ p ∈ names, Text.beginsWith '[' p = false →
    (e'.name = r.table.newClassName p ↔ e.name = p)
  shapes : ∃ s s', ClassShape.parse e.data = .ok s ∧ ClassShape.parse e'.data = .ok s' ∧
    s.name = e.name ∧ ShapeRenamed r s s'

section

variable {r : Remapper} {names : Set String} {entries entries' : List ClassEntry}

theorem ClassEntry.Becomes.storedRenamed {e e' : ClassEntry} {c c' : ClassFile}
    (h : ClassEntry.Becomes r e e' e.name c c') (hone : r.table.OneToOne names)
    (hname : e.name ∈ names) : StoredRenamed r names e e' := by
  obtain ⟨s, s', hs, hs', hsname, hrenamed⟩ := h.shape
  refine ⟨?_, ?_, s, s', hs, hs', hsname, hrenamed⟩
  · rw [h.entry_eq]
    split <;> rfl
  intro p hp hbracket
  -- A class whose bytes do not change keeps its name in the archive, and so has the same new name.
  have hclass : Text.beginsWith '[' e.name = false → e'.name = r.table.newClassName e.name := by
    intro hplain
    have hentry := h.entry_eq
    by_cases hsame : c'.encode = e.data
    · rw [if_pos hsame] at hentry
      rw [hentry, hs] at hs'
      obtain rfl := Except.ok.inj hs'
      have hown := hrenamed.name_renamed
      rw [hsname, RenameTable.newClassConstant_of_class hplain] at hown
      rw [hentry, Except.ok.inj hown]
    · rw [if_neg hsame] at hentry
      rw [hentry]
  constructor
  · intro heq
    rcases hplain : Text.beginsWith '[' e.name with _ | _
    · rw [hclass hplain] at heq
      exact hone.injOn hname hp heq
    · have hentry := h.entry_eq
      by_cases hsame : c'.encode = e.data
      · rw [if_pos hsame] at hentry
        have := hone.no_bracket hbracket
        rw [← heq, hentry, hplain] at this
        cases this
      · rw [if_neg hsame] at hentry
        rw [hentry] at heq
        exact hone.injOn hname hp heq
  · rintro rfl
    exact hclass hbracket

theorem RenamedEach.stored (h : RenamedEach r entries entries')
    (harchive : ArchiveOver names entries) (hone : r.table.OneToOne names) :
    List.Forall₂ (StoredRenamed r names) entries entries' := by
  obtain ⟨hstored, hnames, -, -⟩ := harchive
  induction h with
  | nil => exact .nil
  | cons he _ ih =>
    rw [List.forall_mem_cons] at hstored hnames
    refine .cons ?_ (ih hstored.2 hnames.2)
    obtain ⟨s, s', hs, hrun⟩ := he
    obtain ⟨owner, c, c', hbecomes⟩ := hs.becomes hrun
    obtain ⟨d, hd, hname⟩ := hstored.1
    cases hbecomes.parse_eq.symm.trans hd
    cases hbecomes.name_eq.symm.trans hname
    exact hbecomes.storedRenamed hone hnames.1

/-! ## Looking classes up -/

/-- The classes of an archive in the order in which they are looked up. -/
def lookupOrder (entries : List ClassEntry) : List ClassEntry :=
  entries.filter (·.version.isNone) ++ entries.filter fun e => !e.version.isNone

theorem classSource_ofClass (entries : List ClassEntry) :
    Entry.classSource (entries.map .ofClass) =
      (lookupOrder entries).map fun e => (e.name, e.data) := by
  have hclasses : (entries.map Entry.ofClass).filterMap Entry.class? = entries := by
    rw [List.filterMap_map]
    exact List.filterMap_some
  rw [Entry.classSource, hclasses, List.partition_eq_filter_filter, lookupOrder]
  rfl

theorem find?_ofArchive (entries : List ClassEntry) (p : String) :
    (ClassPath.ofArchive entries).find? p =
      if Text.beginsWith '[' p then none
      else (((lookupOrder entries).map fun e => (e.name, e.data)).lookup p).bind
        fun data => (ClassShape.parse data).toOption := by
  rw [ClassPath.ofArchive, ClassPath.find?, ClassPath.bytes?, classSource_ofClass,
    List.findSome?_singleton]

/-- What is found under a name is in an entry of the archive. -/
theorem mem_of_lookup {entries : List ClassEntry} {p : String} {data : Bytes}
    (h : (entries.map fun e => (e.name, e.data)).lookup p = some data) :
    ∃ e ∈ entries, e.name = p ∧ e.data = data := by
  induction entries with
  | nil => cases h
  | cons e rest ih =>
    rw [List.map_cons, List.lookup_cons] at h
    by_cases hname : p = e.name
    · subst hname
      simp only [beq_self_eq_true, Option.some.injEq] at h
      exact ⟨e, by simp, rfl, h⟩
    · rw [beq_eq_false_iff_ne.2 hname] at h
      obtain ⟨d, hd, hdname, hddata⟩ := ih h
      exact ⟨d, List.mem_cons_of_mem _ hd, hdname, hddata⟩

/-- What is found in both archives, if anything is. -/
theorem lookup_renamed (h : List.Forall₂ (StoredRenamed r names) entries entries') {p : String}
    (hp : p ∈ names) (hbracket : Text.beginsWith '[' p = false) :
    ((entries.map fun e => (e.name, e.data)).lookup p = none ∧
      (entries'.map fun e => (e.name, e.data)).lookup (r.table.newClassName p) = none) ∨
    ∃ e ∈ entries, ∃ e', StoredRenamed r names e e' ∧ e.name = p ∧
      (entries.map fun e => (e.name, e.data)).lookup p = some e.data ∧
      (entries'.map fun e => (e.name, e.data)).lookup (r.table.newClassName p) = some e'.data := by
  induction h with
  | nil => exact .inl ⟨rfl, rfl⟩
  | cons he _ ih =>
    simp only [List.map_cons, List.lookup_cons]
    have hiff := he.name_iff p hp hbracket
    rename_i e e' rest rest' _
    by_cases hname : e.name = p
    · right
      have hname' := hiff.2 hname
      refine ⟨e, by simp, e', he, hname, ?_, ?_⟩
      · simp [hname]
      · simp [hname']
    · have hname' := mt hiff.1 hname
      rw [beq_eq_false_iff_ne.2 (Ne.symm hname), beq_eq_false_iff_ne.2 (Ne.symm hname')]
      refine ih.imp id ?_
      rintro ⟨d, hd, d', hrest⟩
      exact ⟨d, List.mem_cons_of_mem _ hd, d', hrest⟩

end

/-! ## Classes of both archives -/

/-- What the archives have under a name and under its new name. -/
structure FoundRenamed (r : Remapper) (names : Set String) (p : String) (s s' : ClassShape) :
    Prop where
  name_eq : s.name = p
  renamed : ShapeRenamed r s s'
  parents_mem : ∀ q ∈ s.parents, q ∈ names ∨ Text.beginsWith '[' q = true
  members_only : ∀ kind, ∀ m ∈ s.members kind, NamesOnly names m.descriptor

theorem FoundRenamed.newName_eq {r : Remapper} {names : Set String} {p : String} {s s' : ClassShape}
    (h : FoundRenamed r names p s s') (hbracket : Text.beginsWith '[' p = false) :
    s'.name = r.table.newClassName p := by
  have hnew := h.renamed.name_renamed
  rw [h.name_eq, RenameTable.newClassConstant_of_class hbracket] at hnew
  exact (Except.ok.inj hnew).symm

/-- The renaming of an archive by a table that is one-to-one on its names. -/
structure ArchiveRenamed (t : RenameTable) (names : Set String)
    (entries entries' : List ClassEntry) : Prop where
  oneToOne : t.OneToOne names
  archive : ArchiveOver names entries
  renamed : RenamedEach (.onArchive t entries) entries entries'

theorem mem_lookupOrder {entries : List ClassEntry} {e : ClassEntry} (h : e ∈ lookupOrder entries) :
    e ∈ entries := by
  rw [lookupOrder, List.mem_append, List.mem_filter, List.mem_filter] at h
  exact h.elim And.left And.left

/-- A class that is found is in an entry of the archive. -/
theorem mem_of_find? {entries : List ClassEntry} {p : String} {s : ClassShape}
    (h : (ClassPath.ofArchive entries).find? p = some s) :
    Text.beginsWith '[' p = false ∧ p ∈ (ClassPath.ofArchive entries).names ∧
      ∃ e ∈ entries, e.name = p ∧ ClassShape.parse e.data = .ok s := by
  rw [find?_ofArchive] at h
  rcases hbracket : Text.beginsWith '[' p with _ | _
  · rw [hbracket, if_neg Bool.false_ne_true] at h
    obtain ⟨data, hdata, hs⟩ := Option.bind_eq_some_iff.1 h
    obtain ⟨e, he, rfl, rfl⟩ := mem_of_lookup hdata
    refine ⟨rfl, ?_, e, mem_lookupOrder he, rfl, ?_⟩
    · rw [ClassPath.names, ClassPath.ofArchive, classSource_ofClass]
      simpa using ⟨e, he, rfl⟩
    · rcases hparse : ClassShape.parse e.data with error | s'
      · rw [hparse] at hs
        cases hs
      · rw [hparse] at hs
        rw [Option.some.inj hs]
  · rw [hbracket, if_pos rfl] at h
    cases h

/-- A name with supertypes is not that of an array. -/
theorem not_bracket_of_extends {entries : List ClassEntry} {p q : String}
    (h : Extends (ClassPath.ofArchive entries).find? p q) : Text.beginsWith '[' p = false := by
  obtain ⟨s, hs, -⟩ := h
  exact (mem_of_find? hs).1

theorem ArchiveOver.name_eq {names : Set String} {entries : List ClassEntry} {p : String}
    {s : ClassShape} (h : ArchiveOver names entries)
    (hs : (ClassPath.ofArchive entries).find? p = some s) : s.name = p := by
  obtain ⟨-, -, e, he, rfl, hparse⟩ := mem_of_find? hs
  obtain ⟨c, hc, hname⟩ := h.stored e he
  rw [ClassShape.parse, hc] at hparse
  exact Except.ok.inj ((ClassShape.ofClass_ok_iff.1 hparse).1.symm.trans hname)

/-- A walk in an archive without cycles meets no cycle. -/
theorem ArchiveOver.upright {names : Set String} {entries : List ClassEntry}
    (h : ArchiveOver names entries)
    (hacyclic : ∀ p, ¬ Ancestor (ClassPath.ofArchive entries).find? p p) (start : String) :
    Upright (ClassPath.ofArchive entries).find? (ClassPath.ofArchive entries).names start where
  name_eq _ _ _ hs := h.name_eq hs
  mem_names _ _ _ hs := (mem_of_find? hs).2.1
  acyclic p _ := hacyclic p

namespace ArchiveRenamed

variable {t : RenameTable} {names : Set String} {entries entries' : List ClassEntry}

theorem find?_cases (h : ArchiveRenamed t names entries entries') {p : String} (hp : p ∈ names)
    (hbracket : Text.beginsWith '[' p = false) :
    ((ClassPath.ofArchive entries).find? p = none ∧
      (ClassPath.ofArchive entries').find? (t.newClassName p) = none) ∨
    ∃ s s', (ClassPath.ofArchive entries).find? p = some s ∧
      (ClassPath.ofArchive entries').find? (t.newClassName p) = some s' ∧
      FoundRenamed (.onArchive t entries) names p s s' := by
  have hall := h.renamed.stored h.archive h.oneToOne
  have htable : (Remapper.onArchive t entries).table = t := rfl
  -- Versions stay, so classes are looked up in the same order.
  have horder : List.Forall₂ (StoredRenamed (.onArchive t entries) names) (lookupOrder entries)
      (lookupOrder entries') := by
    refine List.rel_append (List.rel_filter (fun e e' he => ?_) hall)
      (List.rel_filter (fun e e' he => ?_) hall) <;> simp [he.version_eq]
  have hbracket' := h.oneToOne.no_bracket hbracket
  rw [find?_ofArchive, find?_ofArchive, hbracket, hbracket', if_neg Bool.false_ne_true,
    if_neg Bool.false_ne_true]
  rcases lookup_renamed horder hp hbracket with
    ⟨hnone, hnone'⟩ | ⟨e, he, e', hee', hname, hdata, hdata'⟩
  · left
    rw [htable] at hnone'
    rw [hnone, hnone']
    exact ⟨rfl, rfl⟩
  · right
    obtain ⟨s, s', hs, hs', hsname, hrenamed⟩ := hee'.shapes
    have hmem := mem_lookupOrder he
    refine ⟨s, s', ?_, ?_, hsname.trans hname, hrenamed, h.archive.parents_mem e hmem s hs,
      h.archive.members_only e hmem s hs⟩
    · rw [hdata, Option.bind_some, hs]
      rfl
    · rw [htable] at hdata'
      rw [hdata', Option.bind_some, hs']
      rfl

theorem found_renamed (h : ArchiveRenamed t names entries entries') {p : String} {s : ClassShape}
    (hp : p ∈ names) (hs : (ClassPath.ofArchive entries).find? p = some s) :
    ∃ s', (ClassPath.ofArchive entries').find? (t.newClassName p) = some s' ∧
      FoundRenamed (.onArchive t entries) names p s s' := by
  rcases h.find?_cases hp (mem_of_find? hs).1 with ⟨hnone, -⟩ | ⟨d, s', hd, hs', hfound⟩
  · rw [hs] at hnone
    cases hnone
  · cases hs.symm.trans hd
    exact ⟨s', hs', hfound⟩

theorem found_original (h : ArchiveRenamed t names entries entries') {p : String} {s' : ClassShape}
    (hp : p ∈ names) (hbracket : Text.beginsWith '[' p = false)
    (hs' : (ClassPath.ofArchive entries').find? (t.newClassName p) = some s') :
    ∃ s, (ClassPath.ofArchive entries).find? p = some s ∧
      FoundRenamed (.onArchive t entries) names p s s' := by
  rcases h.find?_cases hp hbracket with ⟨-, hnone⟩ | ⟨s, d, hs, hd, hfound⟩
  · rw [hs'] at hnone
    cases hnone
  · cases hs'.symm.trans hd
    exact ⟨s, hs, hfound⟩

/-! ## Ancestors -/

/-- A supertype in the archive is one in the renamed archive. -/
theorem extends_renamed (h : ArchiveRenamed t names entries entries') {p q : String}
    (hp : p ∈ names) (hext : Extends (ClassPath.ofArchive entries).find? p q) :
    ∃ q', t.newClassConstant q = .ok q' ∧ (q ∈ names ∨ Text.beginsWith '[' q = true) ∧
      Extends (ClassPath.ofArchive entries').find? (t.newClassName p) q' := by
  obtain ⟨s, hs, hq⟩ := hext
  obtain ⟨s', hs', hfound⟩ := h.found_renamed hp hs
  obtain ⟨q', hq', hnew⟩ := exists_right_of_mem hfound.renamed.parents_renamed hq
  exact ⟨q', hnew, hfound.parents_mem q hq, s', hs', hq'⟩

/-- A supertype in the renamed archive was one in the archive. -/
theorem extends_original (h : ArchiveRenamed t names entries entries') {p q' : String}
    (hp : p ∈ names) (hbracket : Text.beginsWith '[' p = false)
    (hext : Extends (ClassPath.ofArchive entries').find? (t.newClassName p) q') :
    ∃ q, t.newClassConstant q = .ok q' ∧ (q ∈ names ∨ Text.beginsWith '[' q = true) ∧
      Extends (ClassPath.ofArchive entries).find? p q := by
  obtain ⟨s', hs', hq'⟩ := hext
  obtain ⟨s, hs, hfound⟩ := h.found_original hp hbracket hs'
  obtain ⟨q, hq, hnew⟩ := exists_left_of_mem hfound.renamed.parents_renamed hq'
  exact ⟨q, hnew, hfound.parents_mem q hq, s, hs, hq⟩

/-- What has a new name that a class can have is a class. -/
theorem class_of_newClassConstant (h : ArchiveRenamed t names entries entries') {q q' : String}
    (hq : q ∈ names ∨ Text.beginsWith '[' q = true) (hnew : t.newClassConstant q = .ok q')
    (hbracket : Text.beginsWith '[' q' = false) :
    q ∈ names ∧ Text.beginsWith '[' q = false ∧ q' = t.newClassName q := by
  rw [h.oneToOne.beginsWith_iff hnew] at hbracket
  rw [RenameTable.newClassConstant_of_class hbracket] at hnew
  exact ⟨mem_of_not_bracket hq hbracket, hbracket,
    (Except.ok.inj hnew).symm⟩

/-- The ancestors of a class are those of the renamed class. -/
theorem ancestor_renamed (h : ArchiveRenamed t names entries entries') {p q : String}
    (hp : p ∈ names) (hup : Ancestor (ClassPath.ofArchive entries).find? p q) :
    ∃ q', t.newClassConstant q = .ok q' ∧ (q ∈ names ∨ Text.beginsWith '[' q = true) ∧
      Ancestor (ClassPath.ofArchive entries').find? (t.newClassName p) q' := by
  induction hup with
  | single hext =>
    obtain ⟨q', hnew, hq, hext'⟩ := h.extends_renamed hp hext
    exact ⟨q', hnew, hq, .single hext'⟩
  | tail _ hext ih =>
    obtain ⟨m', hm', hm, hup'⟩ := ih
    have hbracket := not_bracket_of_extends hext
    rw [RenameTable.newClassConstant_of_class hbracket] at hm'
    cases hm'
    obtain ⟨q', hnew, hq, hext'⟩ := h.extends_renamed (mem_of_not_bracket hm hbracket) hext
    exact ⟨q', hnew, hq, .tail hup' hext'⟩

/-- The ancestors of a renamed class are those of the class. -/
theorem ancestor_original (h : ArchiveRenamed t names entries entries') {p q' : String}
    (hp : p ∈ names) (hbracket : Text.beginsWith '[' p = false)
    (hup : Ancestor (ClassPath.ofArchive entries').find? (t.newClassName p) q') :
    ∃ q, t.newClassConstant q = .ok q' ∧ (q ∈ names ∨ Text.beginsWith '[' q = true) ∧
      Ancestor (ClassPath.ofArchive entries).find? p q := by
  induction hup with
  | single hext =>
    obtain ⟨q, hnew, hq, hext'⟩ := h.extends_original hp hbracket hext
    exact ⟨q, hnew, hq, .single hext'⟩
  | tail _ hext ih =>
    obtain ⟨m, hm', hm, hup'⟩ := ih
    obtain ⟨hm, hmbracket, rfl⟩ := h.class_of_newClassConstant hm hm' (not_bracket_of_extends hext)
    obtain ⟨q, hnew, hq, hext'⟩ := h.extends_original hm hmbracket hext
    exact ⟨q, hnew, hq, .tail hup' hext'⟩

/-- A walk in the renamed archive meets no cycle either. -/
theorem upright_renamed (h : ArchiveRenamed t names entries entries')
    (hacyclic : ∀ p, ¬ Ancestor (ClassPath.ofArchive entries).find? p p) {start : String}
    (hstart : start ∈ names) (hbracket : Text.beginsWith '[' start = false) :
    Upright (ClassPath.ofArchive entries').find? (ClassPath.ofArchive entries').names
      (t.newClassName start) := by
  -- What is found above the renamed class is a renamed class.
  have hclass : ∀ q', Relation.ReflTransGen (Extends (ClassPath.ofArchive entries').find?)
      (t.newClassName start) q' → Text.beginsWith '[' q' = false →
      ∃ q ∈ names, Text.beginsWith '[' q = false ∧ q' = t.newClassName q := by
    intro q' hreach hbracket'
    rcases Relation.reflTransGen_iff_eq_or_transGen.1 hreach with rfl | hup
    · exact ⟨start, hstart, hbracket, rfl⟩
    · obtain ⟨q, hnew, hq, -⟩ := h.ancestor_original hstart hbracket hup
      exact ⟨q, h.class_of_newClassConstant hq hnew hbracket'⟩
  refine ⟨?_, fun _ _ _ hs => (mem_of_find? hs).2.1, ?_⟩
  · intro q' s' hreach hs'
    obtain ⟨q, hq, hqbracket, rfl⟩ := hclass q' hreach (mem_of_find? hs').1
    obtain ⟨s, -, hfound⟩ := h.found_original hq hqbracket hs'
    exact hfound.newName_eq hqbracket
  · -- A cycle in the renamed archive would be one in the archive, as new names differ.
    intro q' hreach hcycle
    obtain ⟨_, hext, -⟩ := Relation.TransGen.head'_iff.1 hcycle
    have hqbracket' := not_bracket_of_extends hext
    obtain ⟨q, hq, hqbracket, rfl⟩ := hclass q' hreach hqbracket'
    obtain ⟨o, hnew, ho, hup⟩ := h.ancestor_original hq hqbracket hcycle
    obtain ⟨ho, -, heq⟩ := h.class_of_newClassConstant ho hnew hqbracket'
    obtain rfl := h.oneToOne.injOn hq ho heq
    exact hacyclic q hup

end ArchiveRenamed

end JarRemap
