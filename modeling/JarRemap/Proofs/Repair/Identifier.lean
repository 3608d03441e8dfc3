import JarRemap.Proofs.Repair.Revised
import JarRemap.Proofs.Repair.Target
import JarRemap.Repair.Identifier

/-!
# The repair of names of local variables

A class is settled if no local variable in it has an offending name. The repair leaves such a class
alone, and makes every other one settled, which shows in its bytes.

This is shown from the inside out: for a variable, for a table of variables, for a method body, for
a method, and at last for all methods.
-/

namespace JarRemap

open ConstantPool

/-! ## The names that are given -/

/-- A name as the repair makes one. -/
def IsGivenName (name : String) : Prop :=
  ∃ (slot : UInt16) (n : ℕ), name = s!"lvt_{slot}_{n}_"

/-- The first letters of every name that is given. -/
def givenStart : List Char := ['l', 'v', 't', '_']

theorem toList_givenName (slot : UInt16) (n : ℕ) :
    (s!"lvt_{slot}_{n}_").toList =
      givenStart ++ (Nat.toDigits 10 slot.toNat ++ '_' :: (Nat.toDigits 10 n ++ ['_'])) := by
  simp [toString, givenStart]

theorem isIdentifierPart_of_isDigit {c : Char} (h : c.isDigit = true) :
    isIdentifierPart c = true := by
  have hsmall : c.toNat < 0x80 := by
    have hrange := h
    unfold Char.isDigit at hrange
    simp only [Bool.and_eq_true, decide_eq_true_eq] at hrange
    have hle : c.toNat ≤ '9'.toNat := hrange.2
    exact hle.trans_lt (by decide)
  unfold isIdentifierPart Text.isNumeric
  rw [if_pos hsmall, h, Bool.or_true]

theorem isIdentifier_givenName {name : String} (h : IsGivenName name) :
    isIdentifier name = true := by
  obtain ⟨slot, n, rfl⟩ := h
  have hdigits (m : ℕ) : (Nat.toDigits 10 m).all isIdentifierPart = true :=
    List.all_eq_true.2 fun c hc =>
      isIdentifierPart_of_isDigit (Nat.isDigit_of_mem_toDigits (by omega) (by omega) hc)
  -- No keyword has these first letters.
  have hkeyword : keywords.contains s!"lvt_{slot}_{n}_" = false := by
    by_contra hmem
    rw [Bool.not_eq_false, List.contains_iff_mem] at hmem
    have hstart : ∀ k ∈ keywords, k.toList.take 4 ≠ givenStart := by decide
    exact hstart _ hmem (by rw [toList_givenName]; rfl)
  have hrest (rest : List Char) : (givenStart ++ rest).tail.all isIdentifierPart =
      rest.all isIdentifierPart := by
    unfold givenStart
    rw [List.cons_append, List.tail_cons, List.all_append]
    rfl
  unfold isIdentifier
  rw [hkeyword, toList_givenName]
  show (isIdentifierStart 'l' && (givenStart ++ _).tail.all isIdentifierPart && !false) = true
  rw [hrest]
  simp only [List.all_append, List.all_cons, List.all_nil, hdigits]
  rfl

theorem offends_givenName {name : String} (scope : IdentifierScope) (h : IsGivenName name) :
    scope.offends name = false := by
  cases scope with
  | all =>
    unfold IdentifierScope.offends
    rw [isIdentifier_givenName h]
    rfl
  | snowmen =>
    obtain ⟨slot, n, rfl⟩ := h
    refine beq_eq_false_iff_ne.2 fun heq => ?_
    have htake := congrArg (fun s => s.toList.take 4) heq
    simp only [toList_givenName] at htake
    have hstart : givenStart = snowman.toList.take 4 := htake
    exact absurd hstart (by decide)

/-! ## Repairs within a method body -/

namespace NameEdit

/-- The pool is valid, and the names that have been given are as the repair makes them. -/
structure Good (s : ConstantPool × GivenNames) : Prop where
  valid : s.1.Valid
  given : ∀ p ∈ s.2, IsGivenName p.2

variable {α β : Type} {s s' : ConstantPool × GivenNames} {b : β}

theorem read_bind_ok_iff {g : ConstantPool → Except ClassError α} {f : α → NameEdit β} :
    (do f (← read g) : NameEdit β) s = (.ok b, s') ↔ ∃ a, g s.1 = .ok a ∧ f a s = (.ok b, s') := by
  refine bind_stateful_ok_iff.trans ?_
  unfold read
  rcases g s.1 with e | a
  · refine iff_of_false (fun ⟨_, _, h, _⟩ => ?_) fun ⟨_, h, _⟩ => nomatch h
    exact nomatch congrArg Prod.fst h
  · constructor
    · rintro ⟨_, _, ⟨⟩, h⟩
      exact ⟨a, rfl, h⟩
    · rintro ⟨_, ⟨⟩, h⟩
      exact ⟨a, s, rfl, h⟩

/-- A name that is given again was given before, and a new one is made as all are. -/
theorem nameFor_ok (hgood : Good s) {key : UInt16 × UInt16} {name : String}
    (h : nameFor key s = (.ok name, s')) : s'.1 = s.1 ∧ Good s' ∧ IsGivenName name := by
  obtain ⟨pool, given⟩ := s
  obtain ⟨⟨_, _⟩, s₁, hget, h⟩ := bind_stateful_ok_iff.1 h
  cases hget
  rcases hlookup : given.lookup key with _ | found
  · simp only [hlookup] at h
    obtain ⟨⟨⟩, s₂, hset, h⟩ := bind_stateful_ok_iff.1 h
    cases hset
    cases h
    have hname : IsGivenName s!"lvt_{key.1}_{given.length}_" := ⟨key.1, given.length, rfl⟩
    exact ⟨rfl, ⟨hgood.valid, List.forall_mem_cons.2 ⟨hname, hgood.given⟩⟩, hname⟩
  · simp only [hlookup] at h
    cases h
    obtain ⟨before, after, rfl, -⟩ := List.lookup_eq_some_iff.1 hlookup
    exact ⟨rfl, hgood, hgood.given _ (List.mem_append_right before List.mem_cons_self)⟩

/-- Putting a text adds at most that text, and no name is given. -/
theorem putText_grows {allowed : Constant → Prop} (hvalid : s.1.Valid) {text : String}
    (hallowed : allowed (.utf8 text)) {i : UInt16} (h : putText text s = (.ok i, s')) :
    s'.2 = s.2 ∧ s.1.Grows allowed s'.1 ∧ s'.1.text i = .ok text := by
  obtain ⟨pool, given⟩ := s
  rcases hput : PoolEdit.putText text pool with ⟨outcome, pool'⟩
  have hrun : putText text (pool, given) = (outcome.mapError .classFile, (pool', given)) := by
    unfold putText
    simp only [hput]
  rw [hrun] at h
  obtain ⟨houtcome, rfl⟩ := Prod.mk.inj h
  have hadds : PoolEdit.Adds allowed pool (PoolEdit.putText text) fun pool i =>
      pool.text i = .ok text := PoolEdit.putText_adds hallowed
  obtain ⟨hgrows, htext⟩ := hadds hvalid _ _ hput
  rcases outcome with e | j
  · cases houtcome
  · cases houtcome
    exact ⟨rfl, hgrows, htext i rfl⟩

theorem putText_ok (hgood : Good s) {text : String} {i : UInt16}
    (h : putText text s = (.ok i, s')) :
    Good s' ∧ s.1.Grows anyConstant s'.1 ∧ s'.1.text i = .ok text := by
  have hallowed : anyConstant (.utf8 text) := trivial
  obtain ⟨hgiven, hgrows, htext⟩ := putText_grows hgood.valid hallowed h
  exact ⟨⟨hgrows.valid, hgiven ▸ hgood.given⟩, hgrows, htext⟩

end NameEdit

/-! ## Parts of a method body -/

/-- Repairs of such parts that say of each whether they have changed it. -/
structure RepairTarget.NamedBy {α : Type} (t : RepairTarget α) (f : α → NameEdit (α × Bool)) :
    Prop where
  idle : ∀ {s a}, t.Settled s.1 a → f a s = (.ok (a, false), s)
  mends : ∀ {s s' a a' changed}, NameEdit.Good s → f a s = (.ok (a', changed), s') →
    NameEdit.Good s' ∧ t.Mends s.1 a s'.1 a' changed

namespace RepairTarget.NamedBy

variable {α : Type} {t : RepairTarget α} {f : α → NameEdit (α × Bool)}
  {s s' : ConstantPool × GivenNames} {l : List α} {repaired : List (α × Bool)}

theorem mapM_idle (h : t.NamedBy f) (hl : t.list.Settled s.1 l) :
    l.mapM f s = (.ok (l.map fun a => (a, false)), s) := by
  induction l with
  | nil => rfl
  | cons a l ih =>
    have hrest := ih fun b hb => hl b (List.mem_cons_of_mem a hb)
    rw [List.mapM_cons]
    refine bind_stateful_ok_iff.2 ⟨(a, false), s, h.idle (hl a List.mem_cons_self), ?_⟩
    exact bind_stateful_ok_iff.2 ⟨_, s, hrest, rfl⟩

theorem mapM_mends (h : t.NamedBy f) (hgood : NameEdit.Good s)
    (hl : l.mapM f s = (.ok repaired, s')) :
    NameEdit.Good s' ∧ t.list.Mends s.1 l s'.1 (repaired.map (·.1)) (repaired.any (·.2)) := by
  induction l generalizing s repaired with
  | nil =>
    cases hl
    exact ⟨hgood, .nil hgood.valid⟩
  | cons a l ih =>
    rw [List.mapM_cons] at hl
    obtain ⟨⟨a', changed⟩, s₁, hfirst, hl⟩ := bind_stateful_ok_iff.1 hl
    obtain ⟨rest, s₂, hrest, hl⟩ := bind_stateful_ok_iff.1 hl
    cases hl
    obtain ⟨hgood₁, hmends⟩ := h.mends hgood hfirst
    obtain ⟨hgood₂, hmends'⟩ := ih hgood₁ hrest
    exact ⟨hgood₂, hmends.cons hmends'⟩

/-- Where nothing is changed, there is no change. -/
theorem any_unchanged (l : List α) : (l.map fun a => (a, false)).any (·.2) = false := by
  rw [List.any_map]
  exact List.any_eq_false.2 fun _ _ => Bool.false_ne_true

end RepairTarget.NamedBy

/-! ## Attributes of a method body -/

namespace AttributeTarget

/-- Repairs of such attributes that say of each whether they have changed it. -/
abbrev NamedBy (t : AttributeTarget) (f : Attribute → NameEdit (Attribute × Bool)) : Prop :=
  t.toRepairTarget.NamedBy f

theorem untouched_named : untouched.NamedBy fun a => pure (a, false) := by
  constructor
  · intro s a _
    rfl
  · intro s s' a a' changed hgood h
    cases h
    exact ⟨hgood, .idle hgood.valid trivial⟩

theorem named_named {name : String} {t rest : AttributeTarget}
    {f g : Attribute → NameEdit (Attribute × Bool)} (hf : t.NamedBy f) (hg : rest.NamedBy g) :
    (named name t rest).NamedBy fun a => if a.name = name then f a else g a := by
  constructor
  · intro s a h
    by_cases hname : a.name = name
    · exact (congrFun (if_pos hname) s).trans (hf.idle (h.1 hname))
    · exact (congrFun (if_neg hname) s).trans (hg.idle (h.2 hname))
  · intro s s' a a' changed hgood h
    by_cases hname : a.name = name
    · obtain ⟨hgood', hmends⟩ := hf.mends hgood ((congrFun (if_pos hname) s).symm.trans h)
      exact ⟨hgood', mends_named_of_eq hname hmends⟩
    · obtain ⟨hgood', hmends⟩ := hg.mends hgood ((congrFun (if_neg hname) s).symm.trans h)
      exact ⟨hgood', mends_named_of_ne hname hmends⟩

end AttributeTarget

namespace IdentifierScope

variable (scope : IdentifierScope)

/-- A variable is settled if its name does not offend. -/
def variableTarget : RepairTarget LocalVariable where
  Settled pool v := ∃ name, pool.text v.name = .ok name ∧ scope.offends name = false
  SameShape _ _ := True
  settled_mono := by
    rintro pool pool' v hkeeps ⟨name, hname, hoffends⟩
    exact ⟨name, hkeeps.text hname, hoffends⟩
  sameShape_refl _ := trivial

theorem repairVariable_named : scope.variableTarget.NamedBy (repairVariable scope) := by
  constructor
  · rintro s v ⟨name, hname, hoffends⟩
    refine NameEdit.read_bind_ok_iff.2 ⟨name, hname, ?_⟩
    rw [hoffends]
    rfl
  · intro s s' v v' changed hgood h
    obtain ⟨old, hold, h⟩ := NameEdit.read_bind_ok_iff.1 h
    rcases hoffends : scope.offends old with _ | _
    · rw [hoffends] at h
      cases h
      exact ⟨hgood, .idle hgood.valid ⟨old, hold, hoffends⟩⟩
    · rw [hoffends] at h
      obtain ⟨new, s₁, hnew, h⟩ := bind_stateful_ok_iff.1 h
      obtain ⟨i, s₂, hi, h⟩ := bind_stateful_ok_iff.1 h
      cases h
      obtain ⟨hpool, hgood₁, hgiven⟩ := NameEdit.nameFor_ok hgood hnew
      obtain ⟨hgood₂, hgrows, htext⟩ := NameEdit.putText_ok hgood₁ hi
      rw [hpool] at hgrows
      have hfine := offends_givenName scope hgiven
      refine ⟨hgood₂, hgrows, trivial, ⟨new, htext, hfine⟩, nofun, fun _ heq => ?_⟩
      -- The slot that had an offending text has it still.
      have hslot : i = v.name := congrArg LocalVariable.name heq
      have hsame : old = new := by
        rw [hslot] at htext
        exact Except.ok.inj ((hgrows.text hold).symm.trans htext)
      rw [hsame, hfine] at hoffends
      cases hoffends

/-- The attributes that hold tables of variables in this format. -/
def tableTarget (format : AttributeFormat (List LocalVariable))
    (hexact : format.ExactFor fun _ => RowsFit anyRow) : AttributeTarget :=
  .ofBody scope.variableTarget.list format hexact fun _ h => h

theorem repairVariables_named {format : AttributeFormat (List LocalVariable)}
    (hexact : format.ExactFor fun _ => RowsFit anyRow)
    (hencode : format.encode =
      fun rows => Bytes.count16 rows ++ rows.flatMap LocalVariable.encode) :
    (scope.tableTarget format hexact).NamedBy (repairVariables scope format) := by
  constructor
  · rintro s a ⟨rows, hparse, hrows⟩
    refine NameEdit.read_bind_ok_iff.2 ⟨rows, hparse, ?_⟩
    refine bind_stateful_ok_iff.2 ⟨_, s, scope.repairVariable_named.mapM_idle hrows, ?_⟩
    rw [RepairTarget.NamedBy.any_unchanged]
    rfl
  · intro s s' a a' changed hgood h
    obtain ⟨rows, hparse, h⟩ := NameEdit.read_bind_ok_iff.1 h
    obtain ⟨repaired, s₁, hrepaired, h⟩ := bind_stateful_ok_iff.1 h
    obtain ⟨hgood₁, hmends⟩ := scope.repairVariable_named.mapM_mends hgood hrepaired
    have hattribute := AttributeTarget.mends_ofBody hexact (fun _ h => h) hparse hmends
      fun hshape hfits => by
        rw [hencode]
        exact RowsFit.keeps (f := LocalVariable.encode) (n := 10) (fun _ => rfl)
          hshape.length_eq.symm hfits
    rcases hany : repaired.any (·.2) with _ | _
    · rw [hany] at h hattribute
      cases h
      exact ⟨hgood₁, hattribute⟩
    · rw [hany] at h hattribute
      cases h
      exact ⟨hgood₁, hattribute⟩

/-- The attributes of a method body: the two tables of variables, and others. -/
def codeAttributeTarget : AttributeTarget :=
  .named AttributeFormat.localVariables.name
    (scope.tableTarget .localVariables AttributeFormat.localVariables_exact)
    (.named AttributeFormat.localVariableTypes.name
      (scope.tableTarget .localVariableTypes AttributeFormat.localVariableTypes_exact) .untouched)

theorem repairCodeAttribute_named :
    scope.codeAttributeTarget.NamedBy (repairCodeAttribute scope) :=
  AttributeTarget.named_named (scope.repairVariables_named AttributeFormat.localVariables_exact rfl)
    (AttributeTarget.named_named
      (scope.repairVariables_named AttributeFormat.localVariableTypes_exact rfl)
      AttributeTarget.untouched_named)

/-! ## Method bodies -/

/-- A method body is repaired in its attributes only. -/
def codeTarget : RepairTarget CodeBody :=
  scope.codeAttributeTarget.list.within CodeBody.attributes
    (fun body attributes => { body with attributes }) fun _ => rfl

/-- The attributes that hold method bodies. -/
def bodyTarget : AttributeTarget :=
  .ofBody scope.codeTarget .code AttributeFormat.code_exact fun hkeeps hfits =>
    hfits.mono hkeeps.carries

theorem repairCode_idle {s : ConstantPool × GivenNames} {a : Attribute}
    (h : scope.bodyTarget.Settled s.1 a) : repairCode scope a.info s = (.ok none, s) := by
  obtain ⟨body, hparse, hbody⟩ := h
  refine NameEdit.read_bind_ok_iff.2 ⟨body, hparse, ?_⟩
  refine bind_stateful_ok_iff.2 ⟨_, s, scope.repairCodeAttribute_named.mapM_idle hbody, ?_⟩
  rw [RepairTarget.NamedBy.any_unchanged]
  rfl

theorem repairCode_mends {s s' : ConstantPool × GivenNames} {a : Attribute} {found : Option Bytes}
    (hgood : NameEdit.Good s) (h : repairCode scope a.info s = (.ok found, s')) :
    scope.bodyTarget.Mends s.1 a s'.1 { a with info := found.getD a.info } found.isSome := by
  obtain ⟨body, hparse, h⟩ := NameEdit.read_bind_ok_iff.1 h
  obtain ⟨repaired, s₁, hrepaired, h⟩ := bind_stateful_ok_iff.1 h
  obtain ⟨-, hmends⟩ := scope.repairCodeAttribute_named.mapM_mends hgood hrepaired
  have hbody : scope.codeTarget.Mends s.1 body s₁.1
      { body with attributes := repaired.map (·.1) } (repaired.any (·.2)) :=
    .within (fun _ => rfl) (fun _ _ => rfl) hmends
  have hattribute : scope.bodyTarget.Mends s.1 a s₁.1 _ (repaired.any (·.2)) :=
    AttributeTarget.mends_ofBody AttributeFormat.code_exact
      (fun hkeeps hfits => hfits.mono hkeeps.carries) hparse hbody fun hshape hfits =>
        hfits.reencode (.refl _) (hshape.2.imp fun _ _ => scope.codeAttributeTarget.reencoded)
  rcases hany : repaired.any (·.2) with _ | _
  · rw [hany] at h hattribute
    cases h
    exact hattribute
  · rw [hany] at h hattribute
    cases h
    exact hattribute

/-! ## Methods -/

/-- The attributes of a method: its body, and others. -/
def methodAttributeTarget : AttributeTarget :=
  .named AttributeFormat.code.name scope.bodyTarget .untouched

theorem repairMethodAttribute_mended :
    scope.methodAttributeTarget.MendedBy (repairMethodAttribute scope) := by
  constructor
  · intro pool changed a h
    unfold repairMethodAttribute
    by_cases hname : a.name = AttributeFormat.code.name
    · have hidle : repairCode scope a.info (pool, []) = (.ok none, (pool, [])) :=
        scope.repairCode_idle (h.1 hname)
      simp only [if_pos hname, hidle]
    · exact if_neg hname
  · intro pool changed a pool' flag a' hvalid h
    unfold repairMethodAttribute at h
    by_cases hname : a.name = AttributeFormat.code.name
    · simp only [if_pos hname] at h
      rcases hcode : repairCode scope a.info (pool, []) with ⟨e | found, ⟨pool₁, given⟩⟩
      · rw [hcode] at h
        cases h
      · have hgood : NameEdit.Good (pool, []) := ⟨hvalid, fun _ hp => absurd hp List.not_mem_nil⟩
        have hnamed : scope.methodAttributeTarget.Mends pool a pool₁ _ found.isSome :=
          AttributeTarget.mends_named_of_eq hname (scope.repairCode_mends hgood hcode)
        rw [hcode] at h
        rcases found with _ | info
        · cases h
          exact ⟨false, (Bool.or_false _).symm, hnamed⟩
        · cases h
          exact ⟨true, (Bool.or_true _).symm, hnamed⟩
    · simp only [if_neg hname] at h
      cases h
      refine ⟨false, (Bool.or_false _).symm, AttributeTarget.mends_named_of_ne hname ?_⟩
      exact .idle hvalid trivial

/-- A method is repaired in its attributes only. -/
def methodTarget : RepairTarget Member :=
  scope.methodAttributeTarget.list.within Member.attributes
    (fun m attributes => { m with attributes }) fun _ => rfl

theorem repairMethod_mended : scope.methodTarget.MendedBy (repairMethod scope) := by
  have hattributes := scope.repairMethodAttribute_mended.each
  have hrun (m : Member) (s : ConstantPool × Bool) : repairMethod scope m s =
      match repairEach (repairMethodAttribute scope) m.attributes s with
      | ((attributes, failure), s) => (({ m with attributes }, failure), s) := rfl
  constructor
  · intro pool changed m h
    rw [hrun, hattributes.idle h]
  · intro pool changed m pool' flag m' hvalid h
    rw [hrun] at h
    rcases hall : repairEach (repairMethodAttribute scope) m.attributes (pool, changed) with
      ⟨⟨attributes, failure⟩, ⟨pool₁, flag₁⟩⟩
    rw [hall] at h
    cases h
    obtain ⟨now, hflag, hmends⟩ := hattributes.mends hvalid hall
    exact ⟨now, hflag, .within (fun _ => rfl) (fun _ _ => rfl) hmends⟩

variable {scope}

theorem revised_of_sameShape {m m' : Member} (h : scope.methodTarget.SameShape m m') :
    m.Revised m' := by
  obtain ⟨heq, hattributes⟩ := h
  refine ⟨?_, ?_, hattributes.imp fun _ _ => scope.methodAttributeTarget.reencoded⟩
  · rw [heq]
  · rw [heq]

/-- What has another name than a method body stays. -/
theorem findAttribute?_eq {name : String} (hname : name ≠ AttributeFormat.code.name)
    {attributes attributes' : List Attribute}
    (h : scope.methodAttributeTarget.list.SameShape attributes attributes') :
    findAttribute? name attributes' = findAttribute? name attributes := by
  induction h with
  | nil => rfl
  | @cons a a' l l' ha _ ih =>
    unfold findAttribute? at ih ⊢
    rw [List.find?_cons, List.find?_cons, ih]
    by_cases hcode : a.name = AttributeFormat.code.name
    · have hcode' : a'.name = a.name := (scope.methodAttributeTarget.reencoded ha).name_eq
      have hne : (a.name == name) = false := beq_eq_false_iff_ne.2 (hcode ▸ hname.symm)
      rw [hcode', hne]
    · obtain rfl : a' = a := ha.2 hcode
      rfl

end IdentifierScope

/-! ## The class -/

/-- No local variable has an offending name. -/
def IdentifiersSettled (scope : IdentifierScope) (c : ClassFile) : Prop :=
  scope.methodTarget.list.Settled c.pool c.methods

namespace IdentifiersSettled

variable {scope : IdentifierScope} {c c' : ClassFile}

theorem mono (h : IdentifiersSettled scope c) (hkeeps : c.pool.Keeps c'.pool)
    (hmethods : c'.methods = c.methods) : IdentifiersSettled scope c' := by
  unfold IdentifiersSettled
  rw [hmethods]
  exact scope.methodTarget.list.settled_mono hkeeps h

theorem repair_eq (h : IdentifiersSettled scope c) :
    repairIdentifiers scope c = (.ok false, c) := by
  have hidle : (repairEach (repairMethod scope) c.methods).run (c.pool, false) =
      ((c.methods, none), (c.pool, false)) := scope.repairMethod_mended.each.idle h
  unfold repairIdentifiers
  rw [hidle]

end IdentifiersSettled

/-- The methods of the class have been mended, and nothing else has changed but the pool. -/
structure IdentifiersMended (scope : IdentifierScope) (c c' : ClassFile) (changed : Bool) :
    Prop where
  eq : c' = { c with methods := c'.methods, pool := c'.pool }
  methods : scope.methodTarget.list.Mends c.pool c.methods c'.pool c'.methods changed

namespace IdentifiersMended

variable {scope : IdentifierScope} {c c' : ClassFile} {changed : Bool}

theorem revised (h : IdentifiersMended scope c c' changed) (names : List String) :
    c.Revised names c' := by
  refine ⟨?_, h.methods.grows, ?_, ?_, fun a ha => .inl ?_, ?_⟩
  · rw [h.eq]
    rfl
  · rw [h.eq]
    exact List.forall₂_same.2 fun m _ => .refl m
  · exact h.methods.sameShape.imp fun _ _ => IdentifierScope.revised_of_sameShape
  · rw [h.eq] at ha
    exact ha
  · rw [h.eq]

theorem encode_ne (h : IdentifiersMended scope c c' true) (hvalid : c.pool.Valid)
    (hle : c.pool.size ≤ maxSize) (hfits : c.Fits) : c'.encode ≠ c.encode := by
  intro heq
  have hrevised := h.revised []
  rw [hrevised.eq_withParts] at heq
  obtain ⟨-, hparts⟩ := ClassFile.parts_of_encode_eq hvalid hle h.methods.grows heq
  have hfields : c'.fields = c.fields := by rw [h.eq]
  have hattributes : c'.attributes = c.attributes := by rw [h.eq]
  rw [hfields, hattributes] at hparts
  have hspelled := List.append_cancel_right (List.append_cancel_left hparts)
  have hold : Member.AllFit c'.pool c.methods :=
    hfits.methods_fit.revised hrevised.keeps (List.forall₂_same.2 fun m _ => .refl m)
  have hnew : Member.AllFit c'.pool c'.methods :=
    hfits.methods_fit.revised hrevised.keeps hrevised.methods
  exact h.methods.differs rfl ((Member.readAll_exact c'.pool).write_inj hnew hold hspelled)

end IdentifiersMended

/-- A repair that does not fail has gone through all methods. -/
theorem repairIdentifiers_ok {scope : IdentifierScope} {c c' : ClassFile} {changed : Bool}
    (h : repairIdentifiers scope c = (.ok changed, c')) :
    c' = { c with methods := c'.methods, pool := c'.pool } ∧
      repairEach (repairMethod scope) c.methods (c.pool, false) =
        ((c'.methods, none), (c'.pool, changed)) := by
  unfold repairIdentifiers at h
  rcases hall : (repairEach (repairMethod scope) c.methods).run (c.pool, false) with
    ⟨⟨methods, _ | e⟩, ⟨pool, flag⟩⟩
  · rw [hall] at h
    cases h
    exact ⟨rfl, hall⟩
  · rw [hall] at h
    cases h

theorem IdentifiersMended.of_repair {scope : IdentifierScope} {c c' : ClassFile} {changed : Bool}
    (hvalid : c.pool.Valid) (h : repairIdentifiers scope c = (.ok changed, c')) :
    IdentifiersMended scope c c' changed := by
  obtain ⟨heq, hall⟩ := repairIdentifiers_ok h
  obtain ⟨now, hnow, hmends⟩ := scope.repairMethod_mended.each.mends hvalid hall
  rw [Bool.false_or] at hnow
  exact ⟨heq, hnow ▸ hmends⟩

/-- What the repair of local variables comes to. -/
theorem repairIdentifiers_cases {scope : IdentifierScope} {c c' : ClassFile} {changed : Bool}
    (hvalid : c.pool.Valid) (hle : c.pool.size ≤ maxSize) (hfits : c.Fits)
    (h : repairIdentifiers scope c = (.ok changed, c')) :
    (changed = false ∧ c' = c ∧ IdentifiersSettled scope c) ∨
    (changed = true ∧ IdentifiersSettled scope c' ∧ c'.encode ≠ c.encode ∧
      IdentifiersMended scope c c' true) := by
  have hmended := IdentifiersMended.of_repair hvalid h
  cases changed with
  | false =>
    obtain ⟨hpool, hmethods⟩ := hmended.methods.kept rfl
    have hsame : c' = c := by
      rw [hmended.eq, hpool, hmethods]
    exact .inl ⟨rfl, hsame, hsame ▸ hmended.methods.settled⟩
  | true => exact .inr ⟨rfl, hmended.methods.settled, hmended.encode_ne hvalid hle hfits, hmended⟩

end JarRemap
