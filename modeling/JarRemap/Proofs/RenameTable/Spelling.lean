import JarRemap.Proofs.RenameTable.ReadLine
import JarRemap.Proofs.RenameTable.Reverse
import JarRemap.Proofs.Text.Line

/-!
# Tables that can be spelled

The words of a table in text hold no blank and no mark of a comment, and a parenthesis tells methods
from fields. A table is *spellable* if all that it says can be written so. Every line that is read,
but for those of SRG, adds to a table what was spelled in it, and reversing a table with writable
names turns words into words, so both give spellable tables.
-/

namespace JarRemap

/-! ## Spellable rows -/

/-- Whether a letter can stand in a word: it is no blank, and it begins no comment. -/
def isWordLetter (c : Char) : Bool :=
  !Text.isBlank c && c != '#'

/-- A word that can stand in a line. -/
structure IsTableWord (s : String) : Prop where
  ne_empty : s ≠ ""
  letters : ∀ c ∈ s.toList, isWordLetter c = true

theorem isTableWord_iff {s : String} :
    IsTableWord s ↔ s ≠ "" ∧ s.toList.all isWordLetter = true := by
  rw [List.all_eq_true]
  exact ⟨fun h => ⟨h.ne_empty, h.letters⟩, fun h => ⟨h.1, h.2⟩⟩

instance (s : String) : Decidable (IsTableWord s) :=
  decidable_of_iff _ isTableWord_iff.symm

/-- The parameter is spelled with words. -/
structure ParameterRename.Spellable (p : ParameterRename) : Prop where
  oldName : IsTableWord p.oldName
  newName : IsTableWord p.newName

/-- The field is spelled with words, and its descriptor is not taken for that of a method. -/
structure FieldRename.Spellable (f : FieldRename) : Prop where
  oldName : IsTableWord f.oldName
  newName : IsTableWord f.newName
  descriptor : ∀ d ∈ f.descriptor, IsTableWord d ∧ Text.beginsWith '(' d = false

/-- The method and its parameters are spelled with words, and its descriptor is one. -/
structure MethodRename.Spellable (m : MethodRename) : Prop where
  oldName : IsTableWord m.oldName
  newName : IsTableWord m.newName
  descriptor : IsTableWord m.descriptor
  descriptor_ok : ∃ d, MethodDescriptor.parse m.descriptor = .ok d
  params : ∀ p ∈ m.params, p.Spellable

/-- The class and its members are spelled with words. -/
structure ClassRename.Spellable (c : ClassRename) : Prop where
  oldName : IsTableWord c.oldName
  newName : IsTableWord c.newName
  fields : ∀ f ∈ c.fields, f.Spellable
  methods : ∀ m ∈ c.methods, m.Spellable

/-- All that the table says is spelled with words. -/
def RenameTable.Spellable (t : RenameTable) : Prop :=
  ∀ c ∈ t.classes, c.Spellable

/-- What the step adds is spelled with words. -/
def TableStep.Spellable : TableStep → Prop
  | .addClass oldName newName => IsTableWord oldName ∧ IsTableWord newName
  | .keepClass name => IsTableWord name
  | .addField owner f => IsTableWord owner ∧ f.Spellable
  | .addMethod owner name descriptor newName =>
    IsTableWord owner ∧ MethodRename.Spellable ⟨name, descriptor, newName, []⟩
  | .addParam owner _ _ slot oldName newName =>
    IsTableWord owner ∧ ParameterRename.Spellable ⟨slot.toNat, oldName, newName⟩

theorem IsTableWord.isWord {s : String} (h : IsTableWord s) : Text.IsWord s.toList := by
  refine ⟨fun hnil => h.ne_empty (String.toList_eq_nil_iff.1 hnil), fun c hc => ?_⟩
  have hletter := h.letters c hc
  rw [isWordLetter, Bool.and_eq_true] at hletter
  simpa using hletter.1

theorem IsTableWord.no_comment {s : String} (h : IsTableWord s) : '#' ∉ s.toList :=
  fun hmem => absurd (h.letters '#' hmem) (by decide)

/-! ## Adding what is spelled -/

namespace ClassRename

variable {c : ClassRename}

theorem Spellable.addField (h : c.Spellable) {f : FieldRename} (hf : f.Spellable) :
    (c.addField f).Spellable :=
  ⟨h.oldName, h.newName, forall_upsert h.fields (fun _ _ _ => hf) hf, h.methods⟩

theorem Spellable.addMethod (h : c.Spellable) {name descriptor newName : String}
    (hm : MethodRename.Spellable ⟨name, descriptor, newName, []⟩) :
    (c.addMethod name descriptor newName).Spellable := by
  refine ⟨h.oldName, h.newName, h.fields, forall_upsert h.methods (fun m _ h => ?_) hm⟩
  exact ⟨h.oldName, hm.newName, h.descriptor, h.descriptor_ok, h.params⟩

theorem Spellable.addParam (h : c.Spellable) (name descriptor : String) {p : ParameterRename}
    (hp : p.Spellable) : (c.addParam name descriptor p).Spellable := by
  refine ⟨h.oldName, h.newName, h.fields, fun m hm => ?_⟩
  obtain ⟨n, hn, rfl⟩ := List.mem_map.1 hm
  have hn := h.methods n hn
  split
  · refine ⟨hn.oldName, hn.newName, hn.descriptor, hn.descriptor_ok, fun q hq => ?_⟩
    rcases List.mem_append.1 hq with hq | hq
    · exact hn.params q (List.mem_filter.1 hq).1
    · rwa [List.mem_singleton.1 hq]
  · exact hn

end ClassRename

namespace RenameTable

variable {t t' : RenameTable}

theorem Spellable.modifyClass (h : t.Spellable) {name : String} (hname : IsTableWord name)
    {f : ClassRename → ClassRename} (hf : ∀ c, c.Spellable → (f c).Spellable) :
    (t.modifyClass name f).Spellable :=
  forall_upsert h (fun c _ => hf c) (hf _ ⟨hname, hname, by simp [ClassRename.identity],
    by simp [ClassRename.identity]⟩)

/-- One step keeps a table spellable if what it adds is. -/
theorem Spellable.apply (h : t.Spellable) {s : TableStep} (hs : s.Spellable) :
    (s.apply t).Spellable := by
  cases s with
  | addClass oldName newName =>
    exact h.modifyClass (f := fun c => { c with newName }) hs.1
      fun _ hc => ⟨hc.oldName, hs.2, hc.fields, hc.methods⟩
  | keepClass name => exact h.modifyClass hs fun _ hc => hc
  | addField owner f =>
    exact h.modifyClass (f := fun c => c.addField f) hs.1 fun _ hc => hc.addField hs.2
  | addMethod owner name descriptor newName =>
    exact h.modifyClass (f := fun c => c.addMethod name descriptor newName) hs.1
      fun _ hc => hc.addMethod hs.2
  | addParam owner name descriptor slot oldName newName =>
    exact h.modifyClass (f := fun c => c.addParam name descriptor ⟨slot.toNat, oldName, newName⟩)
      hs.1 fun _ hc => hc.addParam name descriptor hs.2

/-- Any number of steps. -/
theorem Spellable.foldl (h : t.Spellable) {steps : List TableStep}
    (hsteps : ∀ s ∈ steps, s.Spellable) : (steps.foldl TableStep.apply t).Spellable := by
  induction steps generalizing t with
  | nil => exact h
  | cons s steps ih =>
    rw [List.forall_mem_cons] at hsteps
    exact ih (h.apply hsteps.1) hsteps.2

end RenameTable

/-- What is said in a spellable row is added by steps that are spellable. -/
theorem ClassRename.Spellable.steps {c : ClassRename} (h : c.Spellable) :
    ∀ s ∈ c.steps, s.Spellable := by
  intro s hs
  rw [ClassRename.steps, List.mem_append, List.mem_cons, List.mem_map, List.mem_flatMap] at hs
  rcases hs with (rfl | ⟨f, hf, rfl⟩) | ⟨m, hm, hs⟩
  · exact ⟨h.oldName, h.newName⟩
  · exact ⟨h.oldName, h.fields f hf⟩
  · have hmethod := h.methods m hm
    rcases List.mem_cons.1 hs with rfl | hs
    · exact ⟨h.oldName, hmethod.oldName, hmethod.newName, hmethod.descriptor,
        hmethod.descriptor_ok, by simp⟩
    · obtain ⟨p, hp, rfl⟩ := List.mem_map.1 hs
      exact ⟨h.oldName, (hmethod.params p hp).oldName, (hmethod.params p hp).newName⟩

/-! ## Reading -/

theorem TableLine.isTableWord {line : TableLine} (hline : '#' ∉ line.text) {w : String}
    (h : w ∈ line.words) : IsTableWord w := by
  obtain ⟨letters, hletters, rfl⟩ := List.mem_map.1 h
  obtain ⟨hword, hsub⟩ := Text.isWord_of_mem_words hletters
  refine ⟨fun hempty => hword.1 ?_, fun c hc => ?_⟩
  · rw [← String.toList_ofList (l := letters), hempty]
    rfl
  · rw [String.toList_ofList] at hc
    have hne : c ≠ '#' := fun heq => hline (heq ▸ hsub c hc)
    rw [isWordLetter, hword.2 c hc, bne_iff_ne.2 hne]
    rfl

theorem TableLine.no_comment {text : String} {line : TableLine} (h : line ∈ ofText text) :
    '#' ∉ line.text := by
  obtain ⟨hmem, -⟩ := List.mem_filter.1 h
  obtain ⟨⟨s, i⟩, -, rfl⟩ := List.mem_map.1 hmem
  intro hhash
  have hfront := Text.mem_of_mem_trimEnd hhash
  exact absurd (List.mem_takeWhile_imp hfront) (by decide)

theorem TableStep.Told.spellable {format : TableFormat} {named : String → Prop} {step : TableStep}
    (h : step.Told format named) (hnamed : ∀ name, named name → IsTableWord name) :
    step.Spellable := by
  cases step with
  | addClass oldName newName => exact ⟨hnamed _ h.1, hnamed _ h.2⟩
  | keepClass name => exact absurd h id
  | addField owner f =>
    obtain ⟨howner, hold, hnew, hdescriptor⟩ := h
    refine ⟨hnamed _ howner, hnamed _ hold, hnamed _ hnew, fun d hd => ?_⟩
    obtain ⟨hword, hparen, -⟩ := hdescriptor d hd
    exact ⟨hnamed _ hword, hparen⟩
  | addMethod owner name descriptor newName =>
    obtain ⟨howner, hold, hnew, hdescriptor, hok⟩ := h
    exact ⟨hnamed _ howner, hnamed _ hold, hnamed _ hnew, hnamed _ hdescriptor, hok, by simp⟩
  | addParam owner name descriptor slot oldName newName =>
    exact ⟨hnamed _ h.1, hnamed _ h.2.1, hnamed _ h.2.2⟩

namespace TableState

/-- The table so far is built with words, and so is the name of the class that members are read
for. -/
structure Spelled (s : TableState) : Prop where
  built : s.table.Built
  spellable : s.table.Spellable
  currentClass : ∀ name ∈ s.currentClass, IsTableWord name

variable {s s' : TableState} {line : TableLine} {format : TableFormat}

theorem spelled_start : start.Spelled :=
  ⟨.empty, by simp [RenameTable.Spellable, start, RenameTable.empty], by simp [start]⟩

theorem Spelled.adds (h : s.Spelled) (hformat : format ≠ .srg) (hline : '#' ∉ line.text)
    (hadds : s.Adds format line s') : s'.Spelled := by
  have hnamed : ∀ name, name ∈ line.words ∨ name ∈ s.currentClass → IsTableWord name := by
    rintro name (hword | hclass)
    · exact TableLine.isTableWord hline hword
    · exact h.currentClass name hclass
  have hclass : ∀ name ∈ s'.currentClass, IsTableWord name :=
    fun name hname => hnamed name (hadds.currentClass name hname)
  rcases hadds.table with hsame | ⟨step, htold, htable⟩
  · exact ⟨hsame ▸ h.built, hsame ▸ h.spellable, hclass⟩
  · have hstep := htold.spellable fun name hname => hnamed name (hname hformat)
    exact ⟨htable ▸ h.built.step step, htable ▸ h.spellable.apply hstep, hclass⟩

theorem Reached.spelled {lines : List TableLine} (h : Reached format lines s)
    (hformat : format ≠ .srg) (hlines : ∀ line ∈ lines, '#' ∉ line.text) : s.Spelled := by
  induction h with
  | start => exact spelled_start
  | line _ hline hadds ih => exact ih.adds hformat (hlines _ hline) hadds

end TableState

namespace RenameTable

/-- A table that is read from a text of any format but SRG is built, and spellable. -/
theorem spelled_of_parse {text : String} {t : RenameTable}
    (hformat : TableFormat.detect (TableLine.ofText text) ≠ .ok .srg)
    (h : RenameTable.parse text = .ok t) : t.Built ∧ t.Spellable := by
  obtain ⟨format, s, hdetect, hreached, rfl⟩ := reached_of_parse h
  have hne : format ≠ .srg := fun hsrg => hformat (hsrg ▸ hdetect)
  have hspelled := hreached.spelled hne fun _ => TableLine.no_comment
  exact ⟨hspelled.built, hspelled.spellable⟩

end RenameTable

/-! ## Reversing -/

/-- The letters of a type are those of words exactly if the letters of its class are. -/
theorem FieldType.letters_iff (t : FieldType) :
    (∀ c ∈ t.chars, isWordLetter c = true) ↔
      ∀ name ∈ t.base.className?, ∀ c ∈ name.toList, isWordLetter c = true := by
  have hbracket : isWordLetter '[' = true := by decide
  obtain ⟨dimensions, p | name⟩ := t
  · have hletter : isWordLetter p.letter = true := by cases p <;> decide
    simp [chars, BaseType.chars, BaseType.className?, or_imp, forall_and, hletter, hbracket]
  · have hobject : isWordLetter 'L' = true ∧ isWordLetter ';' = true := by decide
    simp [chars, BaseType.chars, BaseType.className?, or_imp, forall_and, hobject, hbracket]

/-- The letters of a descriptor are those of words exactly if the letters of its classes are. -/
theorem Descriptor.letters_iff (d : Descriptor) :
    (∀ c ∈ d.text.toList, isWordLetter c = true) ↔
      ∀ name ∈ d.classNames, ∀ c ∈ name.toList, isWordLetter c = true := by
  cases d with
  | field t =>
    rw [text, FieldType.text, String.toList_ofList, t.letters_iff]
    simp [classNames]
  | method d =>
    have hparen : isWordLetter '(' = true ∧ isWordLetter ')' = true ∧ isWordLetter 'V' = true := by
      decide
    have hchars : (∀ c ∈ d.chars, isWordLetter c = true) ↔
        ∀ t ∈ d.params ++ d.ret.toList, ∀ c ∈ t.chars, isWordLetter c = true := by
      obtain ⟨params, _ | t⟩ := d
      · simp only [MethodDescriptor.chars, List.forall_mem_cons, List.forall_mem_append,
          List.forall_mem_flatMap, hparen]
        simp [hparen]
      · simp only [MethodDescriptor.chars, List.forall_mem_cons, List.forall_mem_append,
          List.forall_mem_flatMap, hparen]
        simp
    rw [text, MethodDescriptor.text, String.toList_ofList, hchars, classNames,
      MethodDescriptor.classNames]
    simp only [FieldType.letters_iff, List.mem_filterMap, forall_exists_index, and_imp]
    exact ⟨fun h name t ht hname => h t ht name hname, fun h t ht name hname => h name t ht hname⟩

theorem Descriptor.text_ne_empty (d : Descriptor) : d.text ≠ "" := by
  intro hempty
  rcases d with t | d
  · obtain ⟨c, rest, hchars, -⟩ := t.head_chars
    rw [text, FieldType.text, hchars] at hempty
    simp at hempty
  · rw [text, MethodDescriptor.text, MethodDescriptor.chars] at hempty
    simp at hempty

theorem Descriptor.beginsWith_text_rename (f : String → String) (d : Descriptor) :
    Text.beginsWith '(' (d.rename f).text = Text.beginsWith '(' d.text := by
  cases d with
  | field t => exact (t.rename f).beginsWith_text.trans t.beginsWith_text.symm
  | method d => exact (d.rename f).beginsWith_text.trans d.beginsWith_text.symm

/-- Renaming a method descriptor gives one, if the new names can be written. -/
theorem MethodDescriptor.parse_renamed {f : String → String} {s s' : String} {d : MethodDescriptor}
    (hf : ∀ name, IsWritable name → IsWritable (f name)) (hd : parse s = .ok d)
    (h : renameDescriptor f s = .ok s') : ∃ d', parse s' = .ok d' := by
  obtain ⟨hwritable, rfl⟩ := parse_ok_iff.1 hd
  have hparse : Descriptor.parse d.text = .ok (.method d) :=
    Descriptor.parse_ok_iff.2 ⟨Descriptor.writable_method_iff.2 hwritable, rfl⟩
  rw [renameDescriptor, hparse] at h
  cases h
  refine ⟨d.rename f, parse_ok_iff.2 ⟨Descriptor.writable_method_iff.1 ?_, rfl⟩⟩
  refine Descriptor.Writable.rename (d := .method d) fun name hname => hf name ?_
  exact Descriptor.writable_method_iff.2 hwritable name hname

namespace RenameTable

variable {t t' : RenameTable}

theorem Spellable.letters_newClassName (h : t.Spellable) {name : String}
    (hname : ∀ c ∈ name.toList, isWordLetter c = true) :
    ∀ c ∈ (t.newClassName name).toList, isWordLetter c = true := by
  revert hname
  refine newClassName_induction (motive := fun name new =>
    (∀ c ∈ name.toList, isWordLetter c = true) → ∀ c ∈ new.toList, isWordLetter c = true)
    ?_ ?_ ?_ name
  · exact fun c hc _ => (h c hc).newName.letters
  · exact fun _ _ _ hname => hname
  · intro front back _ _ ih hname
    simp only [String.toList_append, List.forall_mem_append] at hname ⊢
    exact ⟨⟨ih hname.1.1, hname.1.2⟩, hname.2⟩

/-- Words that are descriptors are renamed to words of the same kind. -/
theorem Spellable.renameDescriptor (h : t.Spellable) {d d' : String} (hd : IsTableWord d)
    (hd' : JarRemap.renameDescriptor t.newClassName d = .ok d') :
    IsTableWord d' ∧ Text.beginsWith '(' d' = Text.beginsWith '(' d := by
  obtain ⟨e, -, rfl, rfl⟩ := renameDescriptor_ok_iff.1 hd'
  refine ⟨⟨(e.rename _).text_ne_empty, (Descriptor.letters_iff _).2 ?_⟩,
    e.beginsWith_text_rename _⟩
  rw [Descriptor.classNames_rename]
  exact List.forall_mem_map.2 fun name hname =>
    h.letters_newClassName (e.letters_iff.1 hd.letters name hname)

/-- No class gets a name that ends within a descriptor. -/
def WritableNames (t : RenameTable) : Prop :=
  ∀ c ∈ t.classes, ';' ∉ c.newName.toList

end RenameTable

variable {t t' : RenameTable}

theorem FieldRename.Reversed.spellable {f f' : FieldRename} (h : FieldRename.Reversed t f f')
    (ht : t.Spellable) (hf : f.Spellable) : f'.Spellable := by
  refine ⟨h.oldName_eq ▸ hf.newName, h.newName_eq ▸ hf.oldName, fun d' hd' => ?_⟩
  obtain ⟨d, hd, hrename⟩ := h.descriptor_of_some hd'
  obtain ⟨hword, hparen⟩ := ht.renameDescriptor (hf.descriptor d hd).1 hrename
  exact ⟨hword, hparen.trans (hf.descriptor d hd).2⟩

theorem MethodRename.Reversed.spellable {m m' : MethodRename} (h : MethodRename.Reversed t m m')
    (ht : t.Spellable) (hnames : t.WritableNames) (hm : m.Spellable) : m'.Spellable := by
  obtain ⟨d, hd⟩ := hm.descriptor_ok
  have hnew : ∀ c ∈ t.classes, IsWritable c.newName :=
    fun c hc => ⟨(ht c hc).newName.ne_empty, hnames c hc⟩
  refine ⟨h.oldName_eq ▸ hm.newName, h.newName_eq ▸ hm.oldName,
    (ht.renameDescriptor hm.descriptor h.descriptor_ok).1,
    d.parse_renamed (fun _ => RenameTable.isWritable_newClassName hnew) hd h.descriptor_ok, ?_⟩
  rw [h.params_eq]
  exact List.forall_mem_map.2 fun p hp => ⟨(hm.params p hp).newName, (hm.params p hp).oldName⟩

theorem ClassRename.Reversed.spellable {c c' : ClassRename} (h : ClassRename.Reversed t c c')
    (ht : t.Spellable) (hnames : t.WritableNames) (hc : c.Spellable) : c'.Spellable :=
  ⟨h.oldName_eq ▸ hc.newName, h.newName_eq ▸ hc.oldName,
    forall_of_forall₂ (fun _ _ hf => hf.spellable ht) h.fields hc.fields,
    forall_of_forall₂ (fun _ _ hm => hm.spellable ht hnames) h.methods hc.methods⟩

namespace RenameTable

/-- The inverse of a table that is built and spellable is so too, if the new names of classes can
be written. -/
theorem spelled_of_reverse (hbuilt : t.Built) (hspellable : t.Spellable)
    (hnames : t.WritableNames) (h : t.reverse = .ok t') : t'.Built ∧ t'.Spellable := by
  obtain ⟨rows, hrows, rfl⟩ := reverse_ok h
  have hslots : ∀ c' ∈ rows, ∀ m' ∈ c'.methods, ∀ p ∈ m'.params, p.slot < 65536 := by
    intro c' hc' m' hm'
    obtain ⟨c, hc, hreversed⟩ := exists_left_of_mem hrows hc'
    obtain ⟨m, hm, hmm'⟩ := exists_left_of_mem hreversed.methods hm'
    rw [hmm'.params_eq]
    exact List.forall_mem_map.2 ((hbuilt.proper.rows c hc).methods m hm).slots_lt
  have hspelled : ∀ c' ∈ rows, c'.Spellable :=
    forall_of_forall₂ (fun _ _ hc => hc.spellable hspellable hnames) hrows hspellable
  rw [foldl_merge_eq_steps hslots]
  refine ⟨Built.empty.foldl _, Spellable.foldl (by simp [Spellable, empty]) fun s hs => ?_⟩
  obtain ⟨c', hc', hs⟩ := List.mem_flatMap.1 hs
  exact (hspelled c' hc').steps s hs

end RenameTable

end JarRemap
