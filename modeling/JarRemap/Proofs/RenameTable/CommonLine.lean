import JarRemap.Proofs.RenameTable.Order
import JarRemap.Proofs.RenameTable.WordLine

/-!
# Lines for one rename

A rename that can be said in every format has a line in each of them. Its names are words, so the
line is taken apart again, and reading it adds the rename to the table so far (`SrgLine.reads`,
`CsrgLine.reads`, `ColumnLine.reads`). A line without tabs begins with a mark of SRG or with the
name of a class, which is what tells the formats apart.
-/

namespace JarRemap

namespace CommonRename

/-! ## Names -/

/-- The name of a member: a word without slashes. -/
structure IsMemberName (s : String) : Prop where
  isTableWord : IsTableWord s
  no_slash : '/' ∉ s.toList

/-- A class name with which a line can begin: it does not look like the beginning of a table in
another format. -/
structure IsPlainName (s : String) : Prop where
  no_header : s ≠ "tsrg2"
  no_mark : ∀ mark ∈ srgMarks, ¬mark.toList <+: s.toList

/-- All names are words, those in a descriptor as well, and those of members have no slashes. -/
def Spellable : CommonRename → Prop
  | .ofClass oldName newName => IsTableWord oldName ∧ IsTableWord newName
  | .ofField owner oldName newName =>
    IsTableWord owner ∧ IsMemberName oldName ∧ IsMemberName newName
  | .ofMethod owner oldName descriptor newName =>
    IsTableWord owner ∧ IsMemberName oldName ∧ IsMemberName newName ∧
      ∃ d, MethodDescriptor.parse descriptor = .ok d ∧ ∀ name ∈ d.classNames, IsTableWord name

/-! ## Lines -/

/-- A line of SRG. It names the new owner of a member and the new descriptor of a method too, which
say nothing. -/
inductive SrgLine : CommonRename → WordLine → Prop
  | ofClass (oldName newName : String) :
    SrgLine (.ofClass oldName newName) ⟨0, ["CL:", oldName, newName]⟩
  | ofField (owner oldName newName : String) {newOwner : String} (howner : IsTableWord newOwner) :
    SrgLine (.ofField owner oldName newName)
      ⟨0, ["FD:", owner ++ "/" ++ oldName, newOwner ++ "/" ++ newName]⟩
  | ofMethod (owner oldName descriptor newName : String) {newOwner newDescriptor : String}
    (howner : IsTableWord newOwner) (hdescriptor : IsTableWord newDescriptor) :
    SrgLine (.ofMethod owner oldName descriptor newName)
      ⟨0, ["MD:", owner ++ "/" ++ oldName, descriptor, newOwner ++ "/" ++ newName, newDescriptor]⟩

/-- A line of CSRG. -/
inductive CsrgLine : CommonRename → WordLine → Prop
  | ofClass (oldName newName : String) :
    CsrgLine (.ofClass oldName newName) ⟨0, [oldName, newName]⟩
  | ofField (owner oldName newName : String) :
    CsrgLine (.ofField owner oldName newName) ⟨0, [owner, oldName, newName]⟩
  | ofMethod (owner oldName descriptor newName : String) :
    CsrgLine (.ofMethod owner oldName descriptor newName)
      ⟨0, [owner, oldName, descriptor, newName]⟩

/-- A line of TSRG or TSRG2 with a word for each column, of which the first two count. -/
inductive ColumnLine (columns : ℕ) : CommonRename → WordLine → Prop
  | ofClass (oldName newName : String) {more : List String} (hmore : ∀ s ∈ more, IsTableWord s)
    (hcount : more.length + 2 = columns) :
    ColumnLine columns (.ofClass oldName newName) ⟨0, oldName :: newName :: more⟩
  | ofField (owner oldName newName : String) {more : List String}
    (hmore : ∀ s ∈ more, IsTableWord s) (hcount : more.length + 2 = columns) :
    ColumnLine columns (.ofField owner oldName newName) ⟨1, oldName :: newName :: more⟩
  | ofMethod (owner oldName descriptor newName : String) {more : List String}
    (hmore : ∀ s ∈ more, IsTableWord s) (hcount : more.length + 2 = columns) :
    ColumnLine columns (.ofMethod owner oldName descriptor newName)
      ⟨1, oldName :: descriptor :: newName :: more⟩

end CommonRename

/-! ### Spelled lines -/

theorem IsTableWord.member {owner name : String} (howner : IsTableWord owner)
    (hname : IsTableWord name) : IsTableWord (owner ++ "/" ++ name) := by
  refine ⟨fun hempty => hname.ne_empty ?_, fun c hc => ?_⟩
  · have hlist := congrArg String.toList hempty
    simp at hlist
  · simp only [String.toList_append, List.mem_append] at hc
    rcases hc with (hc | hc) | hc
    · exact howner.letters c hc
    · obtain rfl : c = '/' := by simpa using hc
      decide
    · exact hname.letters c hc

/-- A method descriptor is a word if the names of its classes are. -/
theorem MethodDescriptor.isTableWord_of_parse {descriptor : String} {d : MethodDescriptor}
    (h : parse descriptor = .ok d) (hnames : ∀ name ∈ d.classNames, IsTableWord name) :
    IsTableWord descriptor := by
  obtain ⟨-, rfl⟩ := parse_ok_iff.1 h
  exact ⟨Descriptor.text_ne_empty (.method d),
    (Descriptor.letters_iff (.method d)).2 fun name hname => (hnames name hname).letters⟩

namespace CommonRename

variable {r : CommonRename} {w : WordLine} {columns : ℕ} {t : RenameTable}

theorem SrgLine.spelled (h : SrgLine r w) (hr : r.Spellable) : w.Spelled := by
  cases h with
  | ofClass oldName newName =>
    exact ⟨List.cons_ne_nil _ _, by simpa using ⟨by decide, hr⟩⟩
  | ofField owner oldName newName howner =>
    obtain ⟨hown, hold, hnew⟩ := hr
    refine ⟨List.cons_ne_nil _ _, ?_⟩
    simpa using ⟨by decide, hown.member hold.isTableWord, howner.member hnew.isTableWord⟩
  | ofMethod owner oldName descriptor newName howner hdescriptor =>
    obtain ⟨hown, hold, hnew, d, hd, hnames⟩ := hr
    refine ⟨List.cons_ne_nil _ _, ?_⟩
    simpa using ⟨by decide, hown.member hold.isTableWord, d.isTableWord_of_parse hd hnames,
      howner.member hnew.isTableWord, hdescriptor⟩

theorem CsrgLine.spelled (h : CsrgLine r w) (hr : r.Spellable) : w.Spelled := by
  cases h with
  | ofClass oldName newName => exact ⟨List.cons_ne_nil _ _, by simpa using ⟨hr.1, hr.2⟩⟩
  | ofField owner oldName newName =>
    obtain ⟨hown, hold, hnew⟩ := hr
    exact ⟨List.cons_ne_nil _ _, by simpa using ⟨hown, hold.isTableWord, hnew.isTableWord⟩⟩
  | ofMethod owner oldName descriptor newName =>
    obtain ⟨hown, hold, hnew, d, hd, hnames⟩ := hr
    refine ⟨List.cons_ne_nil _ _, ?_⟩
    simpa using ⟨hown, hold.isTableWord, d.isTableWord_of_parse hd hnames, hnew.isTableWord⟩

theorem ColumnLine.spelled (h : ColumnLine columns r w) (hr : r.Spellable) : w.Spelled := by
  cases h with
  | ofClass oldName newName hmore =>
    refine ⟨List.cons_ne_nil _ _, ?_⟩
    simpa only [List.forall_mem_cons] using ⟨hr.1, hr.2, hmore⟩
  | ofField owner oldName newName hmore =>
    obtain ⟨-, hold, hnew⟩ := hr
    refine ⟨List.cons_ne_nil _ _, ?_⟩
    simpa only [List.forall_mem_cons] using ⟨hold.isTableWord, hnew.isTableWord, hmore⟩
  | ofMethod owner oldName descriptor newName hmore =>
    obtain ⟨-, hold, hnew, d, hd, hnames⟩ := hr
    refine ⟨List.cons_ne_nil _ _, ?_⟩
    simpa only [List.forall_mem_cons] using
      ⟨hold.isTableWord, d.isTableWord_of_parse hd hnames, hnew.isTableWord, hmore⟩

theorem Spellable.isTableWord_owner (h : r.Spellable) : IsTableWord r.owner := by
  cases r with
  | ofClass | ofField | ofMethod => exact h.1

/-! ## Reading lines -/

open TableState

theorem splitMember_member {line : TableLine} {problem : LineProblem} {owner name : String}
    (hname : IsMemberName name) :
    splitMember line problem (owner ++ "/" ++ name) = .ok (owner, name) := by
  have hsplit : Text.splitLast? '/' (owner ++ "/" ++ name) = some (owner, name) :=
    Text.splitLast?_eq_some_iff.2 ⟨by simp, hname.no_slash⟩
  rw [splitMember, hsplit]

/-- A line of SRG adds its rename. -/
theorem SrgLine.reads (h : SrgLine r w) (hr : r.Spellable) :
    Reads .srg (HasTable t) [w] (HasTable (apply t r)) := by
  refine .line (h.spelled hr) fun s hs line hwords _ => ?_
  obtain rfl : s.table = t := hs
  refine ⟨{ s with table := apply s.table r }, ?_, rfl⟩
  cases h with
  | ofClass oldName newName =>
    rw [readLine, srgLine, hwords]
    rfl
  | ofField owner oldName newName =>
    obtain ⟨-, hold, hnew⟩ := hr
    simp only [readLine, srgLine, hwords, splitMember_member hold, splitMember_member hnew]
    rfl
  | ofMethod owner oldName descriptor newName =>
    obtain ⟨-, hold, hnew, d, hd, -⟩ := hr
    have hcheck : line.checkMethodDescriptor descriptor = .ok () :=
      TableLine.checkMethodDescriptor_ok_iff.2 ⟨d, hd⟩
    simp only [readLine, srgLine, hwords, splitMember_member hold, splitMember_member hnew, hcheck]
    rfl

/-- A line of CSRG adds its rename. -/
theorem CsrgLine.reads (h : CsrgLine r w) (hr : r.Spellable) :
    Reads .csrg (HasTable t) [w] (HasTable (apply t r)) := by
  refine .line (h.spelled hr) fun s hs line hwords _ => ?_
  obtain rfl : s.table = t := hs
  refine ⟨{ s with table := apply s.table r }, ?_, rfl⟩
  cases h with
  | ofClass oldName newName | ofField owner oldName newName =>
    rw [readLine, csrgLine, hwords]
    rfl
  | ofMethod owner oldName descriptor newName =>
    obtain ⟨-, -, -, d, hd, -⟩ := hr
    have hcheck : line.checkMethodDescriptor descriptor = .ok () :=
      TableLine.checkMethodDescriptor_ok_iff.2 ⟨d, hd⟩
    simp only [readLine, csrgLine, hwords, hcheck]
    rfl

/-- Members are read for this class, if for any. -/
def AtClass (current : Option String) (t : RenameTable) (s : TableState) : Prop :=
  s.table = t ∧ s.currentClass = current

/-- A line with columns adds its rename, if it is that of a class or stands behind its class. -/
theorem ColumnLine.reads {format : TableFormat} {current : Option String}
    (h : ColumnLine columns r w) (hr : r.Spellable)
    (hformat : ∀ (s : TableState) line, s.readLine format line = s.tsrgLine columns line)
    (hcurrent : r.className? = none → current = some r.owner) :
    Reads format (AtClass current t) [w] (AtClass (some r.owner) (apply t r)) := by
  refine .line (h.spelled hr) fun s hs line hwords hdepth => ?_
  obtain ⟨rfl, rfl⟩ := hs
  cases h with
  | ofClass oldName newName hmore hcount =>
    exact ⟨_, (hformat s line).trans (tsrgLine_class hdepth hwords hcount), rfl, rfl⟩
  | ofField owner oldName newName hmore hcount =>
    exact ⟨_, (hformat s line).trans (tsrgLine_field (hcurrent rfl) hdepth hwords hcount), rfl, rfl⟩
  | ofMethod owner oldName descriptor newName hmore hcount =>
    obtain ⟨-, -, -, d, hd, -⟩ := hr
    have hread := tsrgLine_method (hcurrent rfl) hdepth hwords hcount ⟨d, hd⟩
    exact ⟨_, (hformat s line).trans hread, rfl, rfl⟩

/-! ## First words -/

/-- Behind the first word of a line stands a blank. -/
theorem chars_eq_of_words {word next : String} {more : List String} :
    ∃ rest, (⟨0, word :: next :: more⟩ : WordLine).chars = word.toList ++ ' ' :: rest :=
  ⟨_, by rw [WordLine.chars, List.map_cons, List.map_cons, Text.intercalate_cons_cons]; rfl⟩

theorem SrgLine.exists_mark (h : SrgLine r w) :
    ∃ mark ∈ srgMarks, ∃ rest, w.chars = mark.toList ++ ' ' :: rest := by
  cases h with
  | ofClass => exact ⟨"CL:", by decide, chars_eq_of_words⟩
  | ofField => exact ⟨"FD:", by decide, chars_eq_of_words⟩
  | ofMethod => exact ⟨"MD:", by decide, chars_eq_of_words⟩

theorem CsrgLine.begins (h : CsrgLine r w) :
    w.depth = 0 ∧ ∃ rest, w.chars = r.owner.toList ++ ' ' :: rest := by
  cases h <;> exact ⟨rfl, chars_eq_of_words⟩

theorem ColumnLine.begins (h : ColumnLine columns r w) (hr : r.className? ≠ none) :
    w.depth = 0 ∧ ∃ rest, w.chars = r.owner.toList ++ ' ' :: rest := by
  cases h with
  | ofClass => exact ⟨rfl, chars_eq_of_words⟩
  | ofField | ofMethod => exact absurd rfl hr

/-- Without tabs, a line of TSRG is one of CSRG. -/
theorem ColumnLine.csrgLine (h : ColumnLine 2 r w) (hdepth : w.depth = 0) : CsrgLine r w := by
  cases h with
  | ofClass oldName newName hmore hcount =>
    rw [List.length_eq_zero_iff.1 (Nat.add_right_cancel hcount)]
    exact .ofClass oldName newName
  | ofField | ofMethod => cases hdepth

end CommonRename

end JarRemap
