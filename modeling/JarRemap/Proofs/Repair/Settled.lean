import JarRemap.Proofs.Repair.Identifier
import JarRemap.Proofs.Repair.Record
import JarRemap.Proofs.Repair.Source
import JarRemap.Repair.Choice

/-!
# Repairs that are settled

A class is settled for a repair if it is as the repair would leave it. Whatever a repair does to a
class, the class is settled for it then, and stays so through the repairs that come later in a run.
-/

namespace JarRemap

/-! ## Edits that leave records as they are -/

theorem SameRecord.of_same {c c' : ClassFile} (h : c'.Same c) : SameRecord c c' := by
  refine ⟨.of_slots_eq h.slots_eq, ?_, ?_, ?_, ?_, ?_⟩
  · rw [← h.rest_eq]
  · rw [← h.rest_eq]
  · rw [← h.rest_eq]
    exact List.forall₂_same.2 fun _ _ => ⟨rfl, rfl⟩
  · rw [← h.rest_eq]
  · rw [← h.rest_eq]

theorem IdentifiersMended.sameRecord {scope : IdentifierScope} {c c' : ClassFile} {changed : Bool}
    (h : IdentifiersMended scope c c' changed) : SameRecord c c' := by
  have hattributes : c'.attributes = c.attributes := by rw [h.eq]
  refine ⟨h.methods.grows.kept, ?_, ?_, h.methods.sameShape.imp fun m m' hm => ?_, ?_, ?_⟩
  · rw [h.eq]
  · rw [h.eq]
  · refine ⟨?_, IdentifierScope.findAttribute?_eq (by decide) hm.2⟩
    rw [hm.1]
  · rw [hattributes]
  · rw [hattributes]

theorem ClassFile.Sets.sameRecord {a : Attribute} {c c' : ClassFile} (h : c.Sets a c')
    (hname : a.name = sourceFileName) : SameRecord c c' := by
  have hfind {name : String} (hne : name ≠ sourceFileName) :
      findAttribute? name c'.attributes = findAttribute? name c.attributes := by
    rw [h.attributes_eq]
    exact findAttribute?_setAttribute_of_ne (hname ▸ hne)
  refine ⟨h.grows.kept, ?_, ?_, ?_, hfind (by decide), hfind (by decide)⟩
  · rw [h.eq]
  · rw [h.eq]
  · rw [h.eq]
    exact List.forall₂_same.2 fun _ _ => ⟨rfl, rfl⟩

namespace Repair

variable {r : Repair} {path : ClassPath} {c c' : ClassFile}

/-- The class is as the repair leaves it. -/
def Settled : Repair → ClassFile → Prop
  | .record parts => RecordSettled parts
  | .identifiers scope => IdentifiersSettled scope
  | .source naming => SourceSettled naming

/-- The place of a repair in a run. -/
def rank : Repair → ℕ
  | .record _ => 0
  | .identifiers _ => 1
  | .source _ => 2

/-- The names of the attributes that the repair may add to a class. -/
def addedNames (c : ClassFile) : Repair → List String
  | .record parts =>
    match c.superName with
    | .ok (some name) =>
      if name = recordName then
        (if parts.components then [AttributeFormat.recordComponents.name] else []) ++
          (if parts.signature then [signatureName] else [])
      else []
    | _ => []
  | .identifiers _ => []
  | .source _ => [sourceFileName]

theorem Settled.apply_eq (h : r.Settled c) (path : ClassPath) :
    r.apply path c = (.ok false, c) := by
  cases r with
  | record parts => exact RecordSettled.repair_eq h
  | identifiers scope => exact IdentifiersSettled.repair_eq h
  | source naming => exact SourceSettled.repair_eq h

/-- What is read of a class that was written is settled as the class was. -/
theorem Settled.same (h : r.Settled c) (hsame : c'.Same c) : r.Settled c' := by
  have hkeeps : c.pool.Keeps c'.pool := .of_slots_eq hsame.slots_eq
  cases r with
  | record parts => exact RecordSettled.mono h (.of_same hsame)
  | identifiers scope =>
    refine IdentifiersSettled.mono h hkeeps ?_
    rw [← hsame.rest_eq]
  | source naming =>
    refine SourceSettled.mono h hkeeps ?_ ?_
    · rw [← hsame.rest_eq]
    · rw [← hsame.rest_eq]

/-- What a repair comes to, if the attributes that it may add have one of the names. -/
theorem apply_cases {names : List String} (hnames : ∀ name ∈ r.addedNames c, name ∈ names)
    (hvalid : c.pool.Valid) (hle : c.pool.size ≤ ConstantPool.maxSize) (hfits : c.Fits)
    {changed : Bool} (h : r.apply path c = (.ok changed, c')) :
    (changed = false ∧ c' = c ∧ r.Settled c) ∨
    (changed = true ∧ r.Settled c' ∧ c'.encode ≠ c.encode ∧ c.Revised names c' ∧
      ∀ d : Repair, d.rank < r.rank → d.Settled c → d.Settled c') := by
  cases r with
  | record parts =>
    have hadded (hsuper : c.superName = .ok (some recordName)) :
        (parts.components = true → AttributeFormat.recordComponents.name ∈ names) ∧
        (parts.signature = true → signatureName ∈ names) := by
      simp only [addedNames, hsuper, if_true] at hnames
      constructor
      · intro hchosen
        exact hnames _ (List.mem_append_left _ (by rw [if_pos hchosen]; exact List.mem_cons_self))
      · intro hchosen
        exact hnames _ (List.mem_append_right _ (by rw [if_pos hchosen]; exact List.mem_cons_self))
    refine (repairRecord_cases hadded hvalid hfits h).imp_right ?_
    rintro ⟨hchanged, hsettled, hextended⟩
    -- Records are repaired first.
    exact ⟨hchanged, hsettled, hextended.encode_ne hvalid hle, hextended.revised,
      fun d hd => absurd hd (Nat.not_lt_zero _)⟩
  | identifiers scope =>
    refine (repairIdentifiers_cases hvalid hle hfits h).imp_right ?_
    rintro ⟨hchanged, hsettled, hne, hmended⟩
    refine ⟨hchanged, hsettled, hne, hmended.revised names, fun d hd hbefore => ?_⟩
    cases d with
    | record parts => exact RecordSettled.mono hbefore hmended.sameRecord
    | identifiers _ => exact absurd hd (lt_irrefl _)
    | source _ =>
      replace hd : 2 < 1 := hd
      omega
  | source naming =>
    refine (repairSource_cases hvalid hle h).imp_right ?_
    rintro ⟨hchanged, hsettled, hne, a, i, hsets, ha, hinfo⟩
    have hname : a.name ∈ names := hnames _ (by rw [ha]; exact List.mem_cons_self)
    refine ⟨hchanged, hsettled, hne, hsets.revised_of_text hname hinfo, fun d hd hbefore => ?_⟩
    cases d with
    | record parts => exact RecordSettled.mono hbefore (hsets.sameRecord ha)
    | identifiers scope =>
      refine IdentifiersSettled.mono hbefore hsets.grows.kept ?_
      rw [hsets.eq]
    | source _ => exact absurd hd (lt_irrefl _)

/-- A repair says whether it has changed the class, which its bytes tell as well, and is not made
twice. -/
theorem apply_once {data : Bytes} (hparse : ClassFile.parse data = .ok c) :
    (r.apply path c = (.ok false, c') → c' = c) ∧
    (r.apply path c = (.ok true, c') →
      c'.encode ≠ c.encode ∧ ∀ path' : ClassPath, r.apply path' c' = (.ok false, c')) := by
  obtain ⟨hvalid, hle⟩ := ClassFile.valid_of_parse hparse
  have hfits := (ClassFile.parse_ok_iff.1 hparse).1
  have hcases {changed : Bool} := @apply_cases r path c c' _ (fun _ h => h) hvalid hle hfits changed
  constructor
  · intro h
    rcases hcases h with ⟨-, hsame, -⟩ | ⟨hchanged, -⟩
    · exact hsame
    · cases hchanged
  · intro h
    rcases hcases h with ⟨hchanged, -⟩ | ⟨-, hsettled, hne, -⟩
    · cases hchanged
    · exact ⟨hne, hsettled.apply_eq⟩

/-! ## Classes of an archive -/

/-- To repair a class of an archive is to read it, to make the repair, and to write what has
changed. -/
theorem repaired?_eq (r : Repair) (path : ClassPath) (e : ClassEntry) :
    r.repaired? path e =
      match ClassFile.parse e.data with
      | .error fault => .error (.classFile fault)
      | .ok c =>
        match r.apply path c with
        | (.error cause, _) => .error cause
        | (.ok false, _) => .ok none
        | (.ok true, c) =>
          match c.name with
          | .error fault => .error (.classFile fault)
          | .ok name => .ok (some { e with name, data := c.encode }) := by
  unfold repaired? repairedWith?
  rcases ClassFile.parse e.data with fault | c
  · rfl
  dsimp only
  show (match r.apply path c with
    | (.error cause, _) => throw cause
    | (.ok false, _) => pure none
    | (.ok true, c) => do
      let name ← orFail .classFile c.name
      return some { e with name, data := c.encode } : ExceptT TransformError Id _) = _
  rcases r.apply path c with ⟨cause | _ | _, c'⟩
  · rfl
  · rfl
  · show (do
      let name ← orFail .classFile c'.name
      return some { e with name, data := c'.encode } : ExceptT TransformError Id _) =
        match c'.name with
        | .error fault => .error (.classFile fault)
        | .ok name => .ok (some { e with name, data := c'.encode })
    rcases c'.name with fault | name
    · rfl
    · rfl

/-- A repair that does not fail has read the class, and has written it again if it has changed. -/
theorem repaired?_ok {e : ClassEntry} {found : Option ClassEntry}
    (h : r.repaired? path e = .ok found) :
    ∃ c changed c', ClassFile.parse e.data = .ok c ∧ r.apply path c = (.ok changed, c') ∧
      (changed = false ∧ found = none ∨ changed = true ∧
        ∃ name, c'.name = .ok name ∧ found = some { e with name, data := c'.encode }) := by
  rw [repaired?_eq] at h
  rcases hparse : ClassFile.parse e.data with fault | c
  · rw [hparse] at h
    cases h
  rw [hparse] at h
  dsimp only at h
  rcases happly : r.apply path c with ⟨cause | _ | _, c'⟩
  · rw [happly] at h
    cases h
  · rw [happly] at h
    cases h
    exact ⟨c, false, c', rfl, happly, .inl ⟨rfl, rfl⟩⟩
  · rw [happly] at h
    dsimp only at h
    rcases hname : c'.name with fault | name
    · rw [hname] at h
      cases h
    · rw [hname] at h
      cases h
      exact ⟨c, true, c', rfl, happly, .inr ⟨rfl, name, hname, rfl⟩⟩

theorem repaired?_eq_none {e : ClassEntry} (hparse : ClassFile.parse e.data = .ok c)
    (h : r.Settled c) (path : ClassPath) : r.repaired? path e = .ok none := by
  rw [repaired?_eq, hparse]
  simp only [h.apply_eq]

end Repair

end JarRemap
