import JarRemap.Proofs.Repair.Identifier
import JarRemap.Repair.Choice

/-!
# Which names local variables get

The repair of local variables changes nothing but offending names. Each of them is replaced by a
name with a number of its own, which all rows of one method body share that begin at the same
instruction in the same slot (`CodeBody.Repaired`).

In a method body the repair keeps a list of the names that it has given. This list and the pool only
grow (`NameEdit.Extends`), so what is true of a row once its name was given is true at the end; and
every name in the list has a number that is less than its length (`Numbered`), so the next one is
new. A slot of the pool that is not there at first can only come to hold a given name, which does
not offend: whether a row is repaired is therefore settled by the pool as it was
(`LocalVariable.offends_iff`).
-/

namespace JarRemap

open ConstantPool

/-! ## What comes of a class -/

/-- The variable has a name that the repair replaces. -/
def LocalVariable.Offends (scope : IdentifierScope) (pool : ConstantPool) (v : LocalVariable) :
    Prop :=
  ∃ name, pool.text v.name = .ok name ∧ scope.offends name = true

/-- The variable gets a name made of its slot and a number if its name offends, and stays otherwise.
The first pool is that of the class before the repair, the second one that of the class after it. -/
structure LocalVariable.Repaired (scope : IdentifierScope) (pool pool' : ConstantPool)
    (v v' : LocalVariable) : Prop where
  frame : v' = { v with name := v'.name }
  kept : ¬ v.Offends scope pool → v' = v
  given : v.Offends scope pool → ∃ n : ℕ, pool'.text v'.name = .ok s!"lvt_{v.slot}_{n}_"
  settled : ∃ name, pool'.text v'.name = .ok name ∧ scope.offends name = false

/-- The format of a table of local variables, by the name of the attribute. -/
def variableFormat? (name : String) : Option (AttributeFormat (List LocalVariable)) :=
  if name = AttributeFormat.localVariables.name then some .localVariables
  else if name = AttributeFormat.localVariableTypes.name then some .localVariableTypes
  else none

/-- An attribute of a method body is repaired row by row if it is a table of local variables, and
stays otherwise. -/
structure Attribute.VariablesRepaired (scope : IdentifierScope) (pool pool' : ConstantPool)
    (a a' : Attribute) : Prop where
  frame : a' = { a with info := a'.info }
  others : variableFormat? a.name = none → a' = a
  rows : ∀ format, variableFormat? a.name = some format → ∃ rows rows',
    format.parse pool' a.info = .ok rows ∧ format.parse pool' a'.info = .ok rows' ∧
    List.Forall₂ (LocalVariable.Repaired scope pool pool') rows rows'

/-- In a table of the first body there is the one row where the second body has the other row. -/
def CodeBody.RowsAt (pool' : ConstantPool) (body body' : CodeBody) (v v' : LocalVariable) : Prop :=
  ∃ a a' format rows rows', (a, a') ∈ body.attributes.zip body'.attributes ∧
    variableFormat? a.name = some format ∧ format.parse pool' a.info = .ok rows ∧
    format.parse pool' a'.info = .ok rows' ∧ (v, v') ∈ rows.zip rows'

/-- A method body is repaired in its tables of local variables only. Two of its variables get the
same name exactly if they begin at the same instruction in the same slot. -/
structure CodeBody.Repaired (scope : IdentifierScope) (pool pool' : ConstantPool)
    (body body' : CodeBody) : Prop where
  frame : body' = { body with attributes := body'.attributes }
  attributes :
    List.Forall₂ (Attribute.VariablesRepaired scope pool pool') body.attributes body'.attributes
  shared : ∀ v v' w w', RowsAt pool' body body' v v' → RowsAt pool' body body' w w' →
    v.Offends scope pool → w.Offends scope pool →
    (pool'.text v'.name = pool'.text w'.name ↔ v.slot = w.slot ∧ v.start = w.start)

/-- An attribute of a method is repaired if it holds a method body, and stays otherwise. -/
structure Attribute.BodyRepaired (scope : IdentifierScope) (pool pool' : ConstantPool)
    (a a' : Attribute) : Prop where
  frame : a' = { a with info := a'.info }
  others : a.name ≠ AttributeFormat.code.name → a' = a
  body : a.name = AttributeFormat.code.name → ∃ body body',
    AttributeFormat.code.parse pool' a.info = .ok body ∧
    AttributeFormat.code.parse pool' a'.info = .ok body' ∧
    body.Repaired scope pool pool' body'

/-- A method is repaired in its attributes only. -/
structure Member.VariablesRepaired (scope : IdentifierScope) (pool pool' : ConstantPool)
    (m m' : Member) : Prop where
  frame : m' = { m with attributes := m'.attributes }
  attributes :
    List.Forall₂ (Attribute.BodyRepaired scope pool pool') m.attributes m'.attributes

/-- A class is repaired in its methods only, and its pool keeps all entries. -/
structure ClassFile.VariablesRepaired (scope : IdentifierScope) (c c' : ClassFile) : Prop where
  frame : c' = { c with methods := c'.methods, pool := c'.pool }
  keeps : c.pool.Keeps c'.pool
  methods : List.Forall₂ (Member.VariablesRepaired scope c.pool c'.pool) c.methods c'.methods

/-! ## Numbered names -/

/-- The number can be read off a name. -/
theorem givenName_inj {slot other : UInt16} {m n : ℕ}
    (h : s!"lvt_{slot}_{m}_" = s!"lvt_{other}_{n}_") : m = n := by
  -- What follows a number begins where the digits end.
  have hskip (k : ℕ) (rest : List Char) :
      (Nat.toDigits 10 k ++ '_' :: rest).dropWhile Char.isDigit = '_' :: rest :=
    List.dropWhile_append_of_pos fun c hc => Nat.isDigit_of_mem_toDigits (by omega) (by omega) hc
  have hchars := congrArg String.toList h
  rw [toList_givenName, toList_givenName] at hchars
  have htail := congrArg (List.dropWhile Char.isDigit) (List.append_cancel_left hchars)
  rw [hskip, hskip] at htail
  have hrest := (List.cons.inj htail).2
  have hdigits := List.append_cancel_right hrest
  have hread := congrArg (fun digits => Nat.ofDigitChars 10 digits 0) hdigits
  simpa only [Nat.ofDigitChars_toDigits (by omega : 1 < 10) (by omega : 10 ≤ 10)] using hread

/-- Every name has a number that is less than how many there are, and no name is given to different
variables or to one variable beside another name. -/
structure Numbered (given : GivenNames) : Prop where
  number : ∀ p ∈ given, ∃ n < given.length, p.2 = s!"lvt_{p.1.1}_{n}_"
  shared : ∀ p ∈ given, ∀ q ∈ given, p.2 = q.2 ↔ p.1 = q.1

namespace Numbered

variable {given : GivenNames} {key : UInt16 × UInt16}

theorem nil : Numbered [] :=
  ⟨nofun, nofun⟩

/-- The next number makes a new name. -/
theorem cons (h : Numbered given) (hkey : ∀ p ∈ given, p.1 ≠ key) :
    Numbered ((key, s!"lvt_{key.1}_{given.length}_") :: given) := by
  have hnew : ∀ p ∈ given, p.2 ≠ s!"lvt_{key.1}_{given.length}_" := by
    intro p hp heq
    obtain ⟨n, hn, hname⟩ := h.number p hp
    have := givenName_inj (hname.symm.trans heq)
    omega
  constructor
  · intro p hp
    rcases List.mem_cons.1 hp with rfl | hp
    · exact ⟨given.length, Nat.lt_succ_self _, rfl⟩
    · obtain ⟨n, hn, hname⟩ := h.number p hp
      exact ⟨n, Nat.lt_succ_of_lt hn, hname⟩
  · intro p hp q hq
    rcases List.mem_cons.1 hp with rfl | hp
    · rcases List.mem_cons.1 hq with rfl | hq
      · exact iff_of_true rfl rfl
      · exact iff_of_false (fun h => hnew q hq h.symm) fun h => hkey q hq h.symm
    · rcases List.mem_cons.1 hq with rfl | hq
      · exact iff_of_false (hnew p hp) (hkey p hp)
      · exact h.shared p hp q hq

theorem isGivenName (h : Numbered given) {name : String} (hmem : (key, name) ∈ given) :
    IsGivenName name := by
  obtain ⟨n, -, hname⟩ := h.number _ hmem
  exact ⟨key.1, n, hname⟩

end Numbered

/-! ## One variable -/

/-- A text that is a given name. -/
def GivenConstant (k : Constant) : Prop :=
  ∃ name, IsGivenName name ∧ k = .utf8 name

namespace NameEdit

variable {before : ConstantPool} {s s' s'' : ConstantPool × GivenNames}

/-- The pool keeps its entries, and the names that have been given stay so. -/
structure Extends (s s' : ConstantPool × GivenNames) : Prop where
  keeps : s.1.Keeps s'.1
  given : ∀ p ∈ s.2, p ∈ s'.2

protected theorem Extends.refl (s : ConstantPool × GivenNames) : Extends s s :=
  ⟨fun _ _ => id, fun _ => id⟩

protected theorem Extends.trans (h : Extends s s') (h' : Extends s' s'') : Extends s s'' :=
  ⟨fun i k hk => h'.keeps i k (h.keeps i k hk), fun p hp => h'.given p (h.given p hp)⟩

/-- From the first pool on, nothing but given names has been put, and names are numbered. -/
structure Reached (before : ConstantPool) (s : ConstantPool × GivenNames) : Prop where
  grows : before.Grows GivenConstant s.1
  numbered : Numbered s.2

theorem nameFor_numbered {key : UInt16 × UInt16} {name : String} (h : Numbered s.2)
    (hname : nameFor key s = (.ok name, s')) :
    s'.1 = s.1 ∧ Numbered s'.2 ∧ (∀ p ∈ s.2, p ∈ s'.2) ∧ (key, name) ∈ s'.2 := by
  obtain ⟨pool, given⟩ := s
  obtain ⟨⟨_, _⟩, s₁, hget, hname⟩ := bind_stateful_ok_iff.1 hname
  cases hget
  rcases hlookup : given.lookup key with _ | found
  · simp only [hlookup] at hname
    obtain ⟨⟨⟩, s₂, hset, hname⟩ := bind_stateful_ok_iff.1 hname
    cases hset
    cases hname
    have hkey : ∀ p ∈ given, p.1 ≠ key := by
      intro p hp hkey
      exact bne_iff_ne.1 (List.lookup_eq_none_iff.1 hlookup p hp) hkey.symm
    exact ⟨rfl, h.cons hkey, fun p => List.mem_cons_of_mem _, List.mem_cons_self⟩
  · simp only [hlookup] at hname
    cases hname
    obtain ⟨front, back, rfl, -⟩ := List.lookup_eq_some_iff.1 hlookup
    exact ⟨rfl, h, fun _ => id, List.mem_append_right front List.mem_cons_self⟩

/-! ## Repairs of several parts -/

/-- Repairs that say of each part whether they have changed it, and leave it in this relation to
what it was. The relation stays as more names are given. -/
structure NamesBy {α : Type} (before : ConstantPool)
    (rel : ConstantPool × GivenNames → α → α → Prop) (f : α → NameEdit (α × Bool)) : Prop where
  mono : ∀ {s s' a a'}, Extends s s' → rel s a a' → rel s' a a'
  step : ∀ {s s' a a' changed}, Reached before s → f a s = (.ok (a', changed), s') →
    Reached before s' ∧ Extends s s' ∧ rel s' a a' ∧ (changed = false → a' = a)

/-- What a repair has made of one part stays while the parts behind it are repaired. -/
theorem NamesBy.mapM {α : Type} {rel : ConstantPool × GivenNames → α → α → Prop}
    {f : α → NameEdit (α × Bool)} {l : List α} {repaired : List (α × Bool)}
    (h : NamesBy before rel f) (hs : Reached before s) (hl : l.mapM f s = (.ok repaired, s')) :
    Reached before s' ∧ Extends s s' ∧ List.Forall₂ (rel s') l (repaired.map (·.1)) ∧
      (repaired.any (·.2) = false → repaired.map (·.1) = l) := by
  induction l generalizing s repaired with
  | nil =>
    cases hl
    exact ⟨hs, .refl _, .nil, fun _ => rfl⟩
  | cons a l ih =>
    rw [List.mapM_cons] at hl
    obtain ⟨⟨a', changed⟩, s₁, hfirst, hl⟩ := bind_stateful_ok_iff.1 hl
    obtain ⟨rest, s₂, hrest, hl⟩ := bind_stateful_ok_iff.1 hl
    cases hl
    obtain ⟨hs₁, hextends₁, hrel, hkept⟩ := h.step hs hfirst
    obtain ⟨hs₂, hextends₂, hrels, hkept'⟩ := ih hs₁ hrest
    refine ⟨hs₂, hextends₁.trans hextends₂, .cons (h.mono hextends₂ hrel) hrels, fun hany => ?_⟩
    obtain ⟨hfalse, hfalse'⟩ := Bool.or_eq_false_iff.1 hany
    rw [List.map_cons, hkept hfalse, hkept' hfalse']

end NameEdit

namespace LocalVariable

variable {scope : IdentifierScope} {before : ConstantPool} {s s' : ConstantPool × GivenNames}
  {v v' w w' : LocalVariable}

/-- What the pool has come to hold since then does not offend. -/
theorem offends_iff (scope : IdentifierScope) (hgrows : before.Grows GivenConstant s.1)
    {old : String} (hold : s.1.text v.name = .ok old) :
    v.Offends scope before ↔ scope.offends old = true := by
  constructor
  · rintro ⟨name, hname, hoffends⟩
    obtain rfl := Except.ok.inj ((hgrows.text hname).symm.trans hold)
    exact hoffends
  · -- An entry that has come to the pool since then is a given name.
    intro hoffends
    rcases hgrows.added _ _ (text_ok_iff.1 hold) with hentry | ⟨-, name, hgiven, heq⟩
    · exact ⟨old, text_ok_iff.2 hentry, hoffends⟩
    · cases heq
      rw [offends_givenName scope hgiven] at hoffends
      cases hoffends

/-- What comes of a variable when the names in the list have been given. -/
structure NamedIn (scope : IdentifierScope) (before : ConstantPool)
    (s : ConstantPool × GivenNames) (v v' : LocalVariable) : Prop where
  frame : v' = { v with name := v'.name }
  kept : ¬ v.Offends scope before → v' = v
  given : v.Offends scope before →
    ∃ name, ((v.slot, v.start), name) ∈ s.2 ∧ s.1.text v'.name = .ok name
  settled : ∃ name, s.1.text v'.name = .ok name ∧ scope.offends name = false

theorem NamedIn.mono (hextends : NameEdit.Extends s s') (h : NamedIn scope before s v v') :
    NamedIn scope before s' v v' := by
  refine ⟨h.frame, h.kept, fun hoffends => ?_, ?_⟩
  · obtain ⟨name, hmem, htext⟩ := h.given hoffends
    exact ⟨name, hextends.given _ hmem, hextends.keeps.text htext⟩
  · obtain ⟨name, htext, hfine⟩ := h.settled
    exact ⟨name, hextends.keeps.text htext, hfine⟩

theorem NamedIn.repaired (hnumbered : Numbered s.2) (h : NamedIn scope before s v v') :
    v.Repaired scope before s.1 v' := by
  refine ⟨h.frame, h.kept, fun hoffends => ?_, h.settled⟩
  obtain ⟨name, hmem, htext⟩ := h.given hoffends
  obtain ⟨n, -, hname⟩ := hnumbered.number _ hmem
  exact ⟨n, htext.trans (congrArg Except.ok hname)⟩

/-- Two variables share a name exactly if it was given for both. -/
theorem NamedIn.shared (hnumbered : Numbered s.2) (h : NamedIn scope before s v v')
    (h' : NamedIn scope before s w w') (hv : v.Offends scope before)
    (hw : w.Offends scope before) :
    s.1.text v'.name = s.1.text w'.name ↔ v.slot = w.slot ∧ v.start = w.start := by
  obtain ⟨name, hmem, htext⟩ := h.given hv
  obtain ⟨name', hmem', htext'⟩ := h'.given hw
  rw [htext, htext', Except.ok.injEq, hnumbered.shared _ hmem _ hmem', Prod.mk.injEq]

theorem namedBy_repair (scope : IdentifierScope) (before : ConstantPool) :
    NameEdit.NamesBy before (NamedIn scope before) (repairVariable scope) := by
  refine ⟨NamedIn.mono, fun {s s' v v' changed} hs h => ?_⟩
  obtain ⟨old, hold, h⟩ := NameEdit.read_bind_ok_iff.1 h
  have hiff := offends_iff scope hs.grows hold
  rcases hoffends : scope.offends old with _ | _
  · rw [hoffends] at h
    cases h
    refine ⟨hs, .refl _, ⟨rfl, fun _ => rfl, fun hv => ?_, old, hold, hoffends⟩, fun _ => rfl⟩
    exact absurd ((hiff.1 hv).symm.trans hoffends) nofun
  · rw [hoffends] at h
    obtain ⟨new, s₁, hnew, h⟩ := bind_stateful_ok_iff.1 h
    obtain ⟨i, s₂, hi, h⟩ := bind_stateful_ok_iff.1 h
    cases h
    obtain ⟨hpool, hnumbered, hkept, hmem⟩ := NameEdit.nameFor_numbered hs.numbered hnew
    have hgiven : IsGivenName new := hnumbered.isGivenName hmem
    have hallowed : GivenConstant (.utf8 new) := ⟨new, hgiven, rfl⟩
    obtain ⟨hsame, hgrows, htext⟩ :=
      NameEdit.putText_grows (hpool ▸ hs.grows.valid) hallowed hi
    rw [hpool] at hgrows
    refine ⟨⟨hs.grows.trans hgrows, hsame ▸ hnumbered⟩, ⟨hgrows.kept, hsame ▸ hkept⟩, ?_, nofun⟩
    exact ⟨rfl, fun hv => absurd (hiff.2 hoffends) hv, fun _ => ⟨new, hsame ▸ hmem, htext⟩,
      new, htext, offends_givenName scope hgiven⟩

end LocalVariable

/-! ## Tables of variables -/

theorem variableFormat?_exact {name : String} {format : AttributeFormat (List LocalVariable)}
    (h : variableFormat? name = some format) :
    (format.ExactFor fun _ => RowsFit anyRow) ∧
      format.encode = fun rows => Bytes.count16 rows ++ rows.flatMap LocalVariable.encode := by
  unfold variableFormat? at h
  by_cases hvariables : name = AttributeFormat.localVariables.name
  · rw [if_pos hvariables] at h
    cases h
    exact ⟨AttributeFormat.localVariables_exact, rfl⟩
  · rw [if_neg hvariables] at h
    by_cases htypes : name = AttributeFormat.localVariableTypes.name
    · rw [if_pos htypes] at h
      cases h
      exact ⟨AttributeFormat.localVariableTypes_exact, rfl⟩
    · rw [if_neg htypes] at h
      cases h

theorem repairCodeAttribute_eq (scope : IdentifierScope) (a : Attribute) :
    repairCodeAttribute scope a =
      match variableFormat? a.name with
      | some format => repairVariables scope format a
      | none => pure (a, false) := by
  unfold repairCodeAttribute variableFormat?
  by_cases hvariables : a.name = AttributeFormat.localVariables.name
  · rw [if_pos hvariables, if_pos hvariables]
  · rw [if_neg hvariables, if_neg hvariables]
    by_cases htypes : a.name = AttributeFormat.localVariableTypes.name
    · rw [if_pos htypes, if_pos htypes]
    · rw [if_neg htypes, if_neg htypes]

namespace Attribute

variable {scope : IdentifierScope} {before pool : ConstantPool}
  {s s' : ConstantPool × GivenNames} {a a' : Attribute}

/-- What comes of an attribute of a method body when the names in the list have been given. -/
structure NamedIn (scope : IdentifierScope) (before : ConstantPool)
    (s : ConstantPool × GivenNames) (a a' : Attribute) : Prop where
  frame : a' = { a with info := a'.info }
  others : variableFormat? a.name = none → a' = a
  rows : ∀ format, variableFormat? a.name = some format → ∃ rows rows',
    (∀ pool, format.parse pool a.info = .ok rows) ∧
    (∀ pool, format.parse pool a'.info = .ok rows') ∧
    List.Forall₂ (LocalVariable.NamedIn scope before s) rows rows'

theorem NamedIn.mono (hextends : NameEdit.Extends s s') (h : NamedIn scope before s a a') :
    NamedIn scope before s' a a' := by
  refine ⟨h.frame, h.others, fun format hformat => ?_⟩
  obtain ⟨rows, rows', hrows, hrows', hall⟩ := h.rows format hformat
  exact ⟨rows, rows', hrows, hrows', hall.imp fun _ _ => LocalVariable.NamedIn.mono hextends⟩

theorem NamedIn.repaired (hnumbered : Numbered s.2) (h : NamedIn scope before s a a') :
    a.VariablesRepaired scope before s.1 a' := by
  refine ⟨h.frame, h.others, fun format hformat => ?_⟩
  obtain ⟨rows, rows', hrows, hrows', hall⟩ := h.rows format hformat
  exact ⟨rows, rows', hrows s.1, hrows' s.1,
    hall.imp fun _ _ => LocalVariable.NamedIn.repaired hnumbered⟩

/-- A table stays as long as it is. -/
theorem NamedIn.reencoded (h : NamedIn scope before s a a') : a.Reencoded a' := by
  rcases hformat : variableFormat? a.name with _ | format
  · rw [h.others hformat]
    exact ⟨rfl, rfl, rfl⟩
  · obtain ⟨rows, rows', hrows, hrows', hall⟩ := h.rows format hformat
    obtain ⟨hexact, hencode⟩ := variableFormat?_exact hformat
    obtain ⟨hfits, hinfo⟩ := (AttributeFormat.parse_ok_iff hexact).1 (hrows s.1)
    obtain ⟨-, hinfo'⟩ := (AttributeFormat.parse_ok_iff hexact).1 (hrows' s.1)
    rw [h.frame]
    refine .of_info ?_
    rw [hinfo, hinfo', hencode]
    exact (RowsFit.keeps (f := LocalVariable.encode) (n := 10) (fun _ => rfl)
      hall.length_eq.symm hfits).1

/-- Both formats of tables are read alike from every pool. -/
theorem parse_variables {name : String} {format : AttributeFormat (List LocalVariable)}
    (h : variableFormat? name = some format) {info : Bytes} {rows : List LocalVariable}
    (hparse : format.parse before info = .ok rows) (pool : ConstantPool) :
    format.parse pool info = .ok rows := by
  obtain ⟨hexact, -⟩ := variableFormat?_exact h
  exact (AttributeFormat.parse_ok_iff hexact).2 ((AttributeFormat.parse_ok_iff hexact).1 hparse)

theorem namedBy_repair (scope : IdentifierScope) (before : ConstantPool) :
    NameEdit.NamesBy before (NamedIn scope before) (repairCodeAttribute scope) := by
  refine ⟨NamedIn.mono, fun {s s' a a' changed} hs h => ?_⟩
  rw [repairCodeAttribute_eq] at h
  rcases hformat : variableFormat? a.name with _ | format
  · rw [hformat] at h
    cases h
    refine ⟨hs, .refl _, ⟨rfl, fun _ => rfl, fun format hsome => ?_⟩, fun _ => rfl⟩
    cases hformat.symm.trans hsome
  · rw [hformat] at h
    obtain ⟨hexact, hencode⟩ := variableFormat?_exact hformat
    obtain ⟨rows, hrows, h⟩ := NameEdit.read_bind_ok_iff.1 h
    obtain ⟨repaired, s₁, hrepaired, h⟩ := bind_stateful_ok_iff.1 h
    obtain ⟨hs₁, hextends, hall, hkept⟩ :=
      (LocalVariable.namedBy_repair scope before).mapM hs hrepaired
    have hread := parse_variables hformat hrows
    -- A table without offending names is not written again.
    rcases hany : repaired.any (·.2) with _ | _
    · rw [hany] at h
      cases h
      rw [hkept hany] at hall
      refine ⟨hs₁, hextends, ⟨rfl, fun _ => rfl, fun _ hsome => ?_⟩, fun _ => rfl⟩
      cases hformat.symm.trans hsome
      exact ⟨rows, rows, hread, hread, hall⟩
    · rw [hany] at h
      cases h
      -- As many rows as before have room in the table.
      obtain ⟨hfits, -⟩ := (AttributeFormat.parse_ok_iff hexact).1 hrows
      have hfits' : RowsFit anyRow (repaired.map (·.1)) :=
        ⟨hall.length_eq ▸ hfits.1, fun _ _ => trivial⟩
      refine ⟨hs₁, hextends, ⟨rfl, fun hnone => ?_, fun _ hsome => ?_⟩, nofun⟩
      · cases hnone.symm.trans hformat
      · cases hformat.symm.trans hsome
        exact ⟨rows, repaired.map (·.1), hread,
          fun _ => (AttributeFormat.parse_ok_iff hexact).2 ⟨hfits', rfl⟩, hall⟩

end Attribute

/-! ## Method bodies -/

namespace CodeBody

variable {scope : IdentifierScope} {before : ConstantPool} {s : ConstantPool × GivenNames}
  {body body' : CodeBody}

/-- What comes of a method body when the names in the list have been given. -/
structure NamedIn (scope : IdentifierScope) (before : ConstantPool)
    (s : ConstantPool × GivenNames) (body body' : CodeBody) : Prop where
  frame : body' = { body with attributes := body'.attributes }
  attributes : List.Forall₂ (Attribute.NamedIn scope before s) body.attributes body'.attributes

theorem NamedIn.rowsAt (h : NamedIn scope before s body body') {v v' : LocalVariable}
    (hrows : RowsAt s.1 body body' v v') : LocalVariable.NamedIn scope before s v v' := by
  obtain ⟨a, a', format, rows, rows', hmem, hformat, hparse, hparse', hrow⟩ := hrows
  obtain ⟨read, read', hread, hread', hall⟩ :=
    ((List.forall₂_iff_zip.1 h.attributes).2 hmem).rows format hformat
  obtain rfl := Except.ok.inj ((hread s.1).symm.trans hparse)
  obtain rfl := Except.ok.inj ((hread' s.1).symm.trans hparse')
  exact (List.forall₂_iff_zip.1 hall).2 hrow

theorem NamedIn.repaired (hnumbered : Numbered s.2) (h : NamedIn scope before s body body') :
    body.Repaired scope before s.1 body' := by
  refine ⟨h.frame, h.attributes.imp fun _ _ => Attribute.NamedIn.repaired hnumbered, ?_⟩
  intro v v' w w' hv hw hvoffends hwoffends
  exact (h.rowsAt hv).shared hnumbered (h.rowsAt hw) hvoffends hwoffends

/-- A method body that has been repaired is read again as what has come of it. -/
theorem NamedIn.parse_encode (h : NamedIn scope before s body body') (hfits : body.Fits s.1) :
    AttributeFormat.code.parse s.1 (AttributeFormat.code.encode body') = .ok body' := by
  obtain ⟨-, hfits'⟩ :=
    hfits.reencode (fun _ _ _ => id) (h.attributes.imp fun _ _ => Attribute.NamedIn.reencoded)
  refine (AttributeFormat.parse_ok_iff AttributeFormat.code_exact).2 ⟨?_, rfl⟩
  rw [h.frame]
  exact hfits'

end CodeBody

theorem parse_code_mono {pool pool' : ConstantPool} (hkeeps : pool.Keeps pool') {info : Bytes}
    {body : CodeBody} (h : AttributeFormat.code.parse pool info = .ok body) :
    AttributeFormat.code.parse pool' info = .ok body := by
  obtain ⟨hfits, hinfo⟩ := (AttributeFormat.parse_ok_iff AttributeFormat.code_exact).1 h
  exact (AttributeFormat.parse_ok_iff AttributeFormat.code_exact).2
    ⟨hfits.mono hkeeps.carries, hinfo⟩

theorem repairCode_names {scope : IdentifierScope} {before : ConstantPool}
    {s s' : ConstantPool × GivenNames} {info : Bytes} {found : Option Bytes}
    (hs : NameEdit.Reached before s) (h : repairCode scope info s = (.ok found, s')) :
    NameEdit.Reached before s' ∧ NameEdit.Extends s s' ∧ ∃ body body',
      AttributeFormat.code.parse s'.1 info = .ok body ∧
      AttributeFormat.code.parse s'.1 (found.getD info) = .ok body' ∧
      CodeBody.NamedIn scope before s' body body' := by
  obtain ⟨body, hbody, h⟩ := NameEdit.read_bind_ok_iff.1 h
  obtain ⟨repaired, s₁, hrepaired, h⟩ := bind_stateful_ok_iff.1 h
  obtain ⟨hs₁, hextends, hall, hkept⟩ :=
    (Attribute.namedBy_repair scope before).mapM hs hrepaired
  have hbody₁ := parse_code_mono hextends.keeps hbody
  have hnamed : CodeBody.NamedIn scope before s₁ body
      { body with attributes := repaired.map (·.1) } := ⟨rfl, hall⟩
  rcases hany : repaired.any (·.2) with _ | _
  · rw [hany] at h
    cases h
    rw [hkept hany] at hnamed
    exact ⟨hs₁, hextends, body, body, hbody₁, hbody₁, hnamed⟩
  · rw [hany] at h
    cases h
    obtain ⟨hfits, -⟩ := (AttributeFormat.parse_ok_iff AttributeFormat.code_exact).1 hbody₁
    exact ⟨hs₁, hextends, body, _, hbody₁, hnamed.parse_encode hfits, hnamed⟩

/-! ## Methods -/

section

variable {before pool pool' : ConstantPool} {changed flag : Bool}

/-- Repairs that put nothing but given names in the pool and leave each part in this relation to
what it was. The relation stays as the pool grows. -/
structure RenamesBy {α ε : Type} (before : ConstantPool) (rel : ConstantPool → α → α → Prop)
    (f : α → StateM (ConstantPool × Bool) (α × Option ε)) : Prop where
  mono : ∀ {pool pool' a a'}, pool.Keeps pool' → rel pool a a' → rel pool' a a'
  step : ∀ {pool pool' a a' changed flag}, before.Grows GivenConstant pool →
    f a (pool, changed) = ((a', none), (pool', flag)) →
    before.Grows GivenConstant pool' ∧ pool.Keeps pool' ∧ rel pool' a a'

theorem RenamesBy.each {α ε : Type} {rel : ConstantPool → α → α → Prop}
    {f : α → StateM (ConstantPool × Bool) (α × Option ε)} (h : RenamesBy before rel f) :
    RenamesBy before (fun pool => List.Forall₂ (rel pool)) (repairEach f) := by
  refine ⟨fun hkeeps hall => hall.imp fun _ _ => h.mono hkeeps, ?_⟩
  intro pool pool' l l' changed flag hgrows hl
  induction l generalizing pool changed l' with
  | nil =>
    cases hl
    exact ⟨hgrows, fun _ _ => id, .nil⟩
  | cons a l ih =>
    obtain ⟨a₁, ⟨pool₁, flag₁⟩, l₁, hfirst, hrest, rfl⟩ := RepairTarget.repairEach_cons_ok_iff.1 hl
    obtain ⟨hgrows₁, hkeeps₁, hrel⟩ := h.step hgrows hfirst
    obtain ⟨hgrows₂, hkeeps₂, hrels⟩ := ih hgrows₁ hrest
    exact ⟨hgrows₂, fun i k hk => hkeeps₂ i k (hkeeps₁ i k hk), .cons (h.mono hkeeps₂ hrel) hrels⟩

variable {scope : IdentifierScope} {a a' : Attribute}

/-- What comes of an attribute of a method. -/
structure Attribute.BodyNamedIn (scope : IdentifierScope) (before pool : ConstantPool)
    (a a' : Attribute) : Prop where
  frame : a' = { a with info := a'.info }
  others : a.name ≠ AttributeFormat.code.name → a' = a
  body : a.name = AttributeFormat.code.name → ∃ given body body', Numbered given ∧
    AttributeFormat.code.parse pool a.info = .ok body ∧
    AttributeFormat.code.parse pool a'.info = .ok body' ∧
    body.NamedIn scope before (pool, given) body'

theorem Attribute.BodyNamedIn.mono (hkeeps : pool.Keeps pool')
    (h : a.BodyNamedIn scope before pool a') : a.BodyNamedIn scope before pool' a' := by
  refine ⟨h.frame, h.others, fun hname => ?_⟩
  obtain ⟨given, body, body', hnumbered, hbody, hbody', hnamed⟩ := h.body hname
  have hextends : NameEdit.Extends (pool, given) (pool', given) := ⟨hkeeps, fun _ => id⟩
  exact ⟨given, body, body', hnumbered, parse_code_mono hkeeps hbody,
    parse_code_mono hkeeps hbody', hnamed.frame,
    hnamed.attributes.imp fun _ _ => Attribute.NamedIn.mono hextends⟩

theorem Attribute.BodyNamedIn.repaired (h : a.BodyNamedIn scope before pool a') :
    a.BodyRepaired scope before pool a' := by
  refine ⟨h.frame, h.others, fun hname => ?_⟩
  obtain ⟨given, body, body', hnumbered, hbody, hbody', hnamed⟩ := h.body hname
  exact ⟨body, body', hbody, hbody', hnamed.repaired hnumbered⟩

theorem renamesBy_repairMethodAttribute (scope : IdentifierScope) (before : ConstantPool) :
    RenamesBy before (Attribute.BodyNamedIn scope before) (repairMethodAttribute scope) := by
  refine ⟨Attribute.BodyNamedIn.mono, fun {pool pool' a a' changed flag} hgrows h => ?_⟩
  unfold repairMethodAttribute at h
  by_cases hname : a.name = AttributeFormat.code.name
  · -- Every method body begins with an empty list of names.
    simp only [if_pos hname] at h
    rcases hcode : repairCode scope a.info (pool, []) with ⟨e | found, ⟨pool₁, given⟩⟩
    · rw [hcode] at h
      cases h
    · obtain ⟨hreached, hextends, body, body', hbody, hbody', hnamed⟩ :=
        repairCode_names ⟨hgrows, .nil⟩ hcode
      have hattribute : Attribute.BodyNamedIn scope before pool₁ a
          { a with info := found.getD a.info } :=
        ⟨rfl, fun hne => absurd hname hne,
          fun _ => ⟨given, body, body', hreached.numbered, hbody, hbody', hnamed⟩⟩
      rw [hcode] at h
      rcases found with _ | info
      · cases h
        exact ⟨hreached.grows, hextends.keeps, hattribute⟩
      · cases h
        exact ⟨hreached.grows, hextends.keeps, hattribute⟩
  · simp only [if_neg hname] at h
    cases h
    exact ⟨hgrows, fun _ _ => id, rfl, fun _ => rfl, fun heq => absurd heq hname⟩

/-- What comes of a method. -/
structure Member.NamedIn (scope : IdentifierScope) (before pool : ConstantPool) (m m' : Member) :
    Prop where
  frame : m' = { m with attributes := m'.attributes }
  attributes : List.Forall₂ (Attribute.BodyNamedIn scope before pool) m.attributes m'.attributes

theorem renamesBy_repairMethod (scope : IdentifierScope) (before : ConstantPool) :
    RenamesBy before (Member.NamedIn scope before) (repairMethod scope) := by
  have hattributes := (renamesBy_repairMethodAttribute scope before).each
  refine ⟨fun hkeeps h => ⟨h.frame, hattributes.mono hkeeps h.attributes⟩, ?_⟩
  intro pool pool' m m' changed flag hgrows h
  have hrun : repairMethod scope m (pool, changed) =
      match repairEach (repairMethodAttribute scope) m.attributes (pool, changed) with
      | ((attributes, failure), s) => (({ m with attributes }, failure), s) := rfl
  rw [hrun] at h
  rcases hall : repairEach (repairMethodAttribute scope) m.attributes (pool, changed) with
    ⟨⟨attributes, failure⟩, ⟨pool₁, flag₁⟩⟩
  rw [hall] at h
  cases h
  obtain ⟨hgrows', hkeeps, hrels⟩ := hattributes.step hgrows hall
  exact ⟨hgrows', hkeeps, rfl, hrels⟩

theorem Member.NamedIn.repaired {m m' : Member} (h : m.NamedIn scope before pool m') :
    m.VariablesRepaired scope before pool m' :=
  ⟨h.frame, h.attributes.imp fun _ _ => Attribute.BodyNamedIn.repaired⟩

end

/-! ## The class -/

/-- A repair of local variables that succeeds has replaced the offending names, and nothing else
has changed. None of the names that there are then offends. -/
theorem local_variables_repaired {scope : IdentifierScope} {path : ClassPath} {c c' : ClassFile}
    {changed : Bool} (hvalid : c.pool.Valid)
    (h : (Repair.identifiers scope).apply path c = (.ok changed, c')) :
    c.VariablesRepaired scope c' ∧ IdentifiersSettled scope c' := by
  replace h : repairIdentifiers scope c = (.ok changed, c') := h
  obtain ⟨heq, hall⟩ := repairIdentifiers_ok h
  obtain ⟨hgrows, -, hmethods⟩ :=
    (renamesBy_repairMethod scope c.pool).each.step (.refl hvalid) hall
  exact ⟨⟨heq, hgrows.kept, hmethods.imp fun _ _ => Member.NamedIn.repaired⟩,
    (IdentifiersMended.of_repair hvalid h).methods.settled⟩

/-- A class with a method that has three local variables, of which two are named 1. The generic
signature of one of these stands in the other table. -/
def digitNameClass : Bytes :=
  [0xca, 0xfe, 0xba, 0xbe, 0, 0, 0, 0x3d, 0, 0xe, 1, 0, 1, 0x43, 7, 0, 1, 1, 0, 0x10, 0x6a, 0x61,
   0x76, 0x61, 0x2f, 0x6c, 0x61, 0x6e, 0x67, 0x2f, 0x4f, 0x62, 0x6a, 0x65, 0x63, 0x74, 7, 0, 3, 1,
   0, 4, 0x43, 0x6f, 0x64, 0x65, 1, 0, 0x12, 0x4c, 0x6f, 0x63, 0x61, 0x6c, 0x56, 0x61, 0x72, 0x69,
   0x61, 0x62, 0x6c, 0x65, 0x54, 0x61, 0x62, 0x6c, 0x65, 1, 0, 0x16, 0x4c, 0x6f, 0x63, 0x61, 0x6c,
   0x56, 0x61, 0x72, 0x69, 0x61, 0x62, 0x6c, 0x65, 0x54, 0x79, 0x70, 0x65, 0x54, 0x61, 0x62, 0x6c,
   0x65, 1, 0, 1, 0x6d, 1, 0, 3, 0x28, 0x29, 0x56, 1, 0, 1, 0x31, 1, 0, 1, 0x61, 1, 0, 1, 0x49, 1,
   0, 3, 0x54, 0x54, 0x3b, 0, 0x21, 0, 2, 0, 4, 0, 0, 0, 0, 0, 1, 0, 1, 0, 8, 0, 9, 0, 1, 0, 5, 0,
   0, 0, 0x45, 0, 0, 0, 2, 0, 0, 0, 1, 0xb1, 0, 0, 0, 2, 0, 6, 0, 0, 0, 0x20, 0, 3, 0, 0, 0, 1, 0,
   0xa, 0, 0xc, 0, 0, 0, 0, 0, 1, 0, 0xb, 0, 0xc, 0, 1, 0, 1, 0, 0, 0, 0xa, 0, 0xc, 0, 1, 0, 7, 0,
   0, 0, 0xc, 0, 1, 0, 0, 0, 1, 0, 0xa, 0, 0xd, 0, 0, 0, 0]

theorem local_variables_repaired_digit : ∃ c c', ClassFile.parse digitNameClass = .ok c ∧
    c.pool.Valid ∧ (Repair.identifiers .all).apply ⟨[]⟩ c = (.ok true, c') ∧
    c.VariablesRepaired .all c' ∧ IdentifiersSettled .all c' ∧
    c'.pool.text 14 = .ok "lvt_0_0_" ∧ c'.pool.text 15 = .ok "lvt_1_1_" ∧ c'.pool.size = 16 := by
  have hrun : (ClassFile.parse digitNameClass).map (fun c =>
      let (outcome, c') := (Repair.identifiers .all).apply ⟨[]⟩ c
      (outcome, c'.pool.text 14, c'.pool.text 15, c'.pool.size)) =
        .ok (.ok true, .ok "lvt_0_0_", .ok "lvt_1_1_", 16) := by decide +kernel
  obtain ⟨c, hparse, hrun⟩ := map_ok_iff.1 hrun
  obtain ⟨hvalid, -⟩ := ClassFile.valid_of_parse hparse
  rcases happly : (Repair.identifiers .all).apply ⟨[]⟩ c with ⟨outcome, c'⟩
  rw [happly] at hrun
  obtain ⟨rfl, hfirst, hsecond, hsize⟩ : outcome = .ok true ∧ c'.pool.text 14 = .ok "lvt_0_0_" ∧
      c'.pool.text 15 = .ok "lvt_1_1_" ∧ c'.pool.size = 16 := by
    simpa only [Prod.mk.injEq] using hrun
  obtain ⟨hrepaired, hsettled⟩ := local_variables_repaired hvalid happly
  exact ⟨c, c', hparse, hvalid, happly, hrepaired, hsettled, hfirst, hsecond, hsize⟩

end JarRemap
