import JarRemap.Proofs.Repair.Settled

/-!
# Components that are given back

A record without components gets one for every name and descriptor among its final instance fields.
The scan that marks the first field of each pair is described by positions: a field is marked
exactly if no such field before it has the same texts (`isFirstOfPair_iff`). The rest of the repair
puts the marked fields into an attribute and is a frame around them (`restoreComponents_eq`).
-/

namespace JarRemap

open ConstantPool

/-! ## Visibility -/

section

variable {a b v : UInt16}

/-- Bits that are put in the place of others are what stands there. -/
theorem and_mask_of_replaced (h : b &&& v = b) : (a &&& ~~~v ||| b) &&& v = b := by
  rw [← UInt16.toBitVec_inj] at h ⊢
  refine BitVec.eq_of_getLsbD_eq fun i hi => ?_
  have hbit := congrArg (·.getLsbD i) h
  simp only [UInt16.toBitVec_and, UInt16.toBitVec_or, UInt16.toBitVec_not, BitVec.getLsbD_and,
    BitVec.getLsbD_or] at hbit ⊢
  grind

/-- All other bits stay. -/
theorem and_not_mask_of_replaced (h : b &&& v = b) :
    (a &&& ~~~v ||| b) &&& ~~~v = a &&& ~~~v := by
  rw [← UInt16.toBitVec_inj] at h ⊢
  refine BitVec.eq_of_getLsbD_eq fun i hi => ?_
  have hbit := congrArg (·.getLsbD i) h
  simp only [UInt16.toBitVec_and, UInt16.toBitVec_or, UInt16.toBitVec_not, BitVec.getLsbD_and,
    BitVec.getLsbD_or, BitVec.getLsbD_not] at hbit ⊢
  grind

end

/-- The member has become private, and nothing else has changed. -/
structure Member.BecomesPrivate (m m' : Member) : Prop where
  eq : m' = { m with access := m'.access }
  visibility_eq : m'.access.bits &&& AccessFlags.visibility.bits = AccessFlags.privateFlag.bits
  others_eq : m'.access.bits &&& ~~~AccessFlags.visibility.bits =
    m.access.bits &&& ~~~AccessFlags.visibility.bits

theorem Member.makePrivate_becomesPrivate (m : Member) : m.BecomesPrivate m.makePrivate :=
  ⟨rfl, and_mask_of_replaced (by decide), and_not_mask_of_replaced (by decide)⟩

/-! ## The first field of a pair -/

/-- The members have the same name and the same descriptor. -/
def Member.SameTexts (pool : ConstantPool) (m m' : Member) : Prop :=
  pool.text m.name = pool.text m'.name ∧ pool.text m.descriptor = pool.text m'.descriptor

/-- The field at this position is final and not static, and no such field before it has the same
name and descriptor. -/
def IsFirstOfPair (pool : ConstantPool) (fields : List Member) (i : ℕ) : Prop :=
  ∃ field, fields[i]? = some field ∧ isComponentField field = true ∧
    ∀ j < i, ∀ other, fields[j]? = some other → isComponentField other = true →
      ¬ other.SameTexts pool field

section

variable {pool : ConstantPool} {fields : List Member} {seen : List (String × String)}
  {marked : List (Member × Bool)}

theorem markComponents_ok (h : ∀ field ∈ fields, field.Fits pool) (seen : List (String × String)) :
    ∃ marked, markComponents pool seen fields = .ok marked := by
  induction fields generalizing seen with
  | nil => exact ⟨[], rfl⟩
  | cons field rest ih =>
    obtain ⟨hfield, hrest⟩ := List.forall_mem_cons.1 h
    obtain ⟨name, hname⟩ := hfield.name_ok
    obtain ⟨descriptor, hdescriptor⟩ := hfield.descriptor_ok
    have hrow (seen : List (String × String)) (isFirst : Bool) : ∃ marked, (do
        return (field, isFirst) :: (← markComponents pool seen rest) :
          Except ClassError (List (Member × Bool))) = .ok marked :=
      exists_bind_ok (ih hrest seen) fun marked => ⟨_, rfl⟩
    unfold markComponents
    by_cases hcandidate : isComponentField field = true
    · rw [if_pos hcandidate, hname, hdescriptor]
      show ∃ marked, (if seen.contains (name, descriptor) = true then _ else _) = _
      by_cases hseen : seen.contains (name, descriptor) = true
      · rw [if_pos hseen]
        exact hrow seen false
      · rw [if_neg hseen]
        exact hrow _ true
    · rw [if_neg hcandidate]
      exact hrow seen false

/-- How the first of some fields is marked, and which pairs are left out behind it. -/
theorem markComponents_cons {field : Member}
    (h : markComponents pool seen (field :: fields) = .ok marked) :
    ∃ isFirst seen' rest, marked = (field, isFirst) :: rest ∧
      markComponents pool seen' fields = .ok rest ∧
      (isComponentField field = false ∧ isFirst = false ∧ seen' = seen ∨
        isComponentField field = true ∧ ∃ name descriptor, pool.text field.name = .ok name ∧
          pool.text field.descriptor = .ok descriptor ∧
          (isFirst = true ↔ (name, descriptor) ∉ seen) ∧
          ∀ key, key ∈ seen' ↔ key = (name, descriptor) ∨ key ∈ seen) := by
  have hrow {seen : List (String × String)} {isFirst : Bool} (h : (do
      return (field, isFirst) :: (← markComponents pool seen fields) :
        Except ClassError (List (Member × Bool))) = .ok marked) :
      ∃ rest, marked = (field, isFirst) :: rest ∧ markComponents pool seen fields = .ok rest := by
    obtain ⟨rest, hrest, h⟩ := except_bind_ok_iff.1 h
    cases h
    exact ⟨rest, rfl, hrest⟩
  unfold markComponents at h
  by_cases hcandidate : isComponentField field = true
  · rw [if_pos hcandidate] at h
    obtain ⟨name, hname, h⟩ := except_bind_ok_iff.1 h
    obtain ⟨descriptor, hdescriptor, h⟩ := except_bind_ok_iff.1 h
    by_cases hseen : seen.contains (name, descriptor) = true
    · rw [if_pos hseen] at h
      obtain ⟨rest, rfl, hrest⟩ := hrow h
      rw [List.contains_iff_mem] at hseen
      refine ⟨false, seen, rest, rfl, hrest, .inr ⟨hcandidate, name, descriptor, hname, hdescriptor,
        iff_of_false Bool.false_ne_true fun h => h hseen, fun key => ?_⟩⟩
      exact ⟨.inr, fun h => h.elim (fun h => h ▸ hseen) id⟩
    · rw [if_neg hseen] at h
      obtain ⟨rest, rfl, hrest⟩ := hrow h
      rw [List.contains_iff_mem] at hseen
      exact ⟨true, _, rest, rfl, hrest, .inr ⟨hcandidate, name, descriptor, hname, hdescriptor,
        iff_of_true rfl hseen, fun key => List.mem_cons⟩⟩
  · rw [if_neg hcandidate] at h
    obtain ⟨rest, rfl, hrest⟩ := hrow h
    exact ⟨false, seen, rest, rfl, hrest, .inl ⟨Bool.not_eq_true _ ▸ hcandidate, rfl, rfl⟩⟩

/-- What is so before a position in a list is so of the first element and of those behind it. -/
theorem forall_lt_succ_getElem?_cons {α : Type} {P : α → Prop} {a : α} {l : List α} {i : ℕ} :
    (∀ j < i + 1, ∀ b, (a :: l)[j]? = some b → P b) ↔ P a ∧ ∀ j < i, ∀ b, l[j]? = some b → P b := by
  constructor
  · exact fun h => ⟨h 0 (Nat.succ_pos i) a rfl, fun j hj => h (j + 1) (Nat.succ_lt_succ hj)⟩
  · rintro ⟨hfirst, hrest⟩ (_ | j) hj b hb
    · cases hb
      exact hfirst
    · exact hrest j (Nat.lt_of_succ_lt_succ hj) b hb

/-- A field is marked if its pair is neither left out nor that of a candidate before it. -/
theorem marked_iff (h : markComponents pool seen fields = .ok marked) {i : ℕ} {field : Member}
    {isFirst : Bool} (hi : marked[i]? = some (field, isFirst)) :
    isFirst = true ↔ isComponentField field = true ∧
      (∀ key ∈ seen, ¬(pool.text field.name = .ok key.1 ∧ pool.text field.descriptor = .ok key.2)) ∧
      ∀ j < i, ∀ other, fields[j]? = some other → isComponentField other = true →
        ¬ other.SameTexts pool field := by
  induction fields generalizing seen marked i with
  | nil =>
    cases h
    cases hi
  | cons first fields ih =>
    obtain ⟨firstMark, seen', rest, rfl, hrest, hcases⟩ := markComponents_cons h
    cases i with
    | zero =>
      cases hi
      have hnone : ∀ j < 0, ∀ other, (field :: fields)[j]? = some other →
          isComponentField other = true → ¬ other.SameTexts pool field := fun j hj => nomatch hj
      rcases hcases with ⟨hcandidate, rfl, rfl⟩ | ⟨hcandidate, name, descriptor, hname, hdescriptor,
        hmark, -⟩
      · exact iff_of_false Bool.false_ne_true fun h => nomatch hcandidate.symm.trans h.1
      · rw [hmark, hname, hdescriptor, and_iff_right hcandidate, and_iff_left hnone]
        simp only [Except.ok.injEq]
        exact ⟨fun h key hkey heq => h (heq.1 ▸ heq.2 ▸ hkey), fun h hkey => h _ hkey ⟨rfl, rfl⟩⟩
    | succ i =>
      -- The first field has left out its pair for those behind it, if it is a candidate.
      rw [ih hrest hi, forall_lt_succ_getElem?_cons]
      refine and_congr_right fun _ => ?_
      rw [← and_assoc]
      refine and_congr_left fun _ => ?_
      rcases hcases with ⟨hcandidate, -, rfl⟩ | ⟨hcandidate, name, descriptor, hname, hdescriptor,
        -, hseen⟩
      · exact (and_iff_left fun h => nomatch hcandidate.symm.trans h).symm
      · simp only [hseen, forall_eq_or_imp, Member.SameTexts, hname, hdescriptor, hcandidate]
        rw [and_comm]
        simp [eq_comm]

theorem getElem?_of_markComponents (h : markComponents pool seen fields = .ok marked) (i : ℕ) :
    fields[i]? = marked[i]?.map (·.1) := by
  rw [← List.getElem?_map, map_fst_of_markComponents h]

/-- The mark of a field says whether it is the first one of its pair. -/
theorem isFirstOfPair_iff (h : markComponents pool [] fields = .ok marked) {i : ℕ} {field : Member}
    {isFirst : Bool} (hi : marked[i]? = some (field, isFirst)) :
    IsFirstOfPair pool fields i ↔ isFirst = true := by
  have hfield : fields[i]? = some field := by
    rw [getElem?_of_markComponents h, hi]
    rfl
  rw [marked_iff h hi]
  constructor
  · rintro ⟨other, hother, hcandidate, hbefore⟩
    cases hfield.symm.trans hother
    exact ⟨hcandidate, nofun, hbefore⟩
  · rintro ⟨hcandidate, -, hbefore⟩
    exact ⟨field, hfield, hcandidate, hbefore⟩

/-- The positions of the marked fields, in ascending order. -/
def firstPositions (marked : List (Member × Bool)) : List ℕ :=
  (marked.zipIdx.filter (·.1.2)).map (·.2)

theorem mem_firstPositions_iff (h : markComponents pool [] fields = .ok marked) {i : ℕ} :
    i ∈ firstPositions marked ↔ IsFirstOfPair pool fields i := by
  constructor
  · intro hi
    obtain ⟨⟨⟨field, isFirst⟩, i⟩, hrow, rfl⟩ := List.mem_map.1 hi
    obtain ⟨hrow, hmark⟩ := List.mem_filter.1 hrow
    exact (isFirstOfPair_iff h (List.mem_zipIdx_iff_getElem?.1 hrow)).2 hmark
  · intro hfirst
    have ⟨field, hfield, _⟩ := hfirst
    rw [getElem?_of_markComponents h] at hfield
    obtain ⟨⟨field, isFirst⟩, hrow, rfl⟩ := Option.map_eq_some_iff.1 hfield
    have hmark := (isFirstOfPair_iff h hrow).1 hfirst
    refine List.mem_map.2 ⟨((field, isFirst), i), List.mem_filter.2 ⟨?_, hmark⟩, rfl⟩
    exact List.mem_zipIdx_iff_getElem?.2 hrow

theorem firstPositions_pairwise (marked : List (Member × Bool)) :
    (firstPositions marked).Pairwise (· < ·) := by
  refine List.Pairwise.sublist (List.filter_sublist.map _) ?_
  rw [List.zipIdx_map_snd]
  exact List.pairwise_lt_range' 1

/-- There is a component for every position, made of the field that stands there. -/
theorem componentsOf_forall₂ (h : markComponents pool seen fields = .ok marked) :
    List.Forall₂ (fun i row => ∃ field, fields[i]? = some field ∧ row = RecordComponent.ofField field)
      (firstPositions marked) (componentsOf marked) := by
  have hcomponents : componentsOf marked =
      (marked.zipIdx.filter (·.1.2)).map fun row => RecordComponent.ofField row.1.1 := by
    conv_lhs => rw [← List.zipIdx_map_fst 0 marked]
    rw [componentsOf, List.filter_map, List.map_map]
    rfl
  rw [hcomponents, firstPositions, List.forall₂_map_left_iff, List.forall₂_map_right_iff,
    List.forall₂_same]
  intro row hrow
  have hi := List.mem_zipIdx_iff_getElem?.1 (List.mem_of_mem_filter hrow)
  refine ⟨row.1.1, ?_, rfl⟩
  rw [getElem?_of_markComponents h, hi]
  rfl

/-- Where a final instance field is, there is the first one of its pair. -/
theorem any_marked (h : markComponents pool [] fields = .ok marked)
    (hsome : ∃ field ∈ fields, isComponentField field = true) : marked.any (·.2) = true := by
  -- The first final instance field of all has no other one before it.
  have hsome : fields.any isComponentField = true := List.any_eq_true.2 hsome
  obtain ⟨i, hi, hcandidate, hbefore⟩ : ∃ i, ∃ hi : i < fields.length,
      isComponentField fields[i] = true ∧
        ∀ j, ∀ hj : j < i, isComponentField fields[j] = false := by
    have hlt := List.findIdx_lt_length_of_exists (List.any_eq_true.1 hsome)
    refine ⟨fields.findIdx isComponentField, hlt, List.findIdx_getElem, fun j hj => ?_⟩
    exact Bool.not_eq_true _ ▸ List.not_of_lt_findIdx hj
  have hfirst : i ∈ firstPositions marked := by
    refine (mem_firstPositions_iff h).2 ⟨_, List.getElem?_eq_getElem hi, hcandidate, ?_⟩
    intro j hj other hother hisComponent
    rw [List.getElem?_eq_getElem (hj.trans hi), Option.some.injEq] at hother
    rw [← hother, hbefore j hj] at hisComponent
    cases hisComponent
  obtain ⟨row, hrow, -⟩ := List.mem_map.1 hfirst
  obtain ⟨hrow, hmark⟩ := List.mem_filter.1 hrow
  have hmem : row.1 ∈ marked := List.mem_of_getElem? (List.mem_zipIdx_iff_getElem?.1 hrow)
  exact List.any_eq_true.2 ⟨row.1, hmem, hmark⟩

/-- Without final instance fields none is marked. -/
theorem any_marked_eq_false (h : markComponents pool seen fields = .ok marked)
    (hnone : ∀ field ∈ fields, isComponentField field = false) : marked.any (·.2) = false := by
  refine List.any_eq_false.2 fun row hrow hmark => ?_
  obtain ⟨i, hi⟩ := List.mem_iff_getElem?.1 hrow
  have hcandidate := ((marked_iff h hi).1 hmark).1
  have hfield : row.1 ∈ fields := map_fst_of_markComponents h ▸ List.mem_map_of_mem hrow
  exact nomatch (hnone _ hfield).symm.trans hcandidate

end

/-! ## What comes of the class -/

/-- The class has come by components for its fields, and nothing else has changed. -/
structure ComponentsRebuilt (c c' : ClassFile) : Prop where
  frame : c' = { c with pool := c'.pool, fields := c'.fields, attributes := c'.attributes }
  keeps : c.pool.Keeps c'.pool
  /-- There is a component for the first field of every pair, which holds the name, the descriptor
  and the generic signature of the field. -/
  components : ∃ rows firsts,
    AttributeFormat.recordComponents.parseAmong c'.pool c'.attributes = .ok (some rows) ∧
    firsts.Pairwise (· < ·) ∧ (∀ i, i ∈ firsts ↔ IsFirstOfPair c.pool c.fields i) ∧
    List.Forall₂ (fun i (row : RecordComponent) => ∃ field : Member, c.fields[i]? = some field ∧
      row.name = field.name ∧ row.descriptor = field.descriptor ∧
      row.attributes = (findAttribute? signatureName field.attributes).toList) firsts rows
  length_eq : c'.fields.length = c.fields.length
  /-- These fields become private, and the others stay. -/
  fields : ∀ i (field : Member), c.fields[i]? = some field → ∃ field', c'.fields[i]? = some field' ∧
    (IsFirstOfPair c.pool c.fields i → field.BecomesPrivate field') ∧
    (¬ IsFirstOfPair c.pool c.fields i → field' = field)
  /-- The attribute of the components takes the place of the first one with its name, or the last
  place of all. -/
  attributes : ∃ a : Attribute, a.name = AttributeFormat.recordComponents.name ∧
    a.Named c'.pool ∧
    ((∀ b ∈ c.attributes, b.name ≠ a.name) ∧ c'.attributes = c.attributes ++ [a] ∨
      ∃ before old after, c.attributes = before ++ old :: after ∧ old.name = a.name ∧
        (∀ b ∈ before, b.name ≠ a.name) ∧ c'.attributes = before ++ a :: after)

/-- Setting an attribute adds it at the end, or puts it in the place of the first with its name. -/
theorem setAttribute_cases (a : Attribute) (attributes : List Attribute) :
    (∀ b ∈ attributes, b.name ≠ a.name) ∧ setAttribute a attributes = attributes ++ [a] ∨
    ∃ before old after, attributes = before ++ old :: after ∧ old.name = a.name ∧
      (∀ b ∈ before, b.name ≠ a.name) ∧ setAttribute a attributes = before ++ a :: after := by
  induction attributes with
  | nil => exact .inl ⟨nofun, rfl⟩
  | cons b rest ih =>
    rw [setAttribute]
    by_cases hname : b.name = a.name
    · rw [if_pos hname]
      exact .inr ⟨[], b, rest, rfl, hname, nofun, rfl⟩
    · rw [if_neg hname]
      rcases ih with ⟨hrest, hset⟩ | ⟨before, old, after, rfl, hold, hbefore, hset⟩
      · exact .inl ⟨List.forall_mem_cons.2 ⟨hname, hrest⟩, congrArg (b :: ·) hset⟩
      · exact .inr ⟨b :: before, old, after, rfl, hold,
          List.forall_mem_cons.2 ⟨hname, hbefore⟩, congrArg (b :: ·) hset⟩

/-- A text that is not too long is put, unless the pool has no room for it. -/
theorem PoolEdit.putText_outcome {s : String} (hshort : textRefusal? (.utf8 s) = none)
    {pool : ConstantPool} (hvalid : pool.Valid) :
    (∃ i pool', putText s pool = (.ok i, pool') ∧ pool.Grows anyConstant pool' ∧
      pool'.text i = .ok s) ∨
      maxSize ≤ pool.size ∧ putText s pool = (.error .poolOverflow, pool) := by
  have hadds : PoolEdit.Adds anyConstant pool (putText s) fun pool i => pool.text i = .ok s :=
    putText_adds trivial
  have hput {i : UInt16} {pool' : ConstantPool} (h : putText s pool = (.ok i, pool')) :
      pool.Grows anyConstant pool' ∧ pool'.text i = .ok s :=
    (hadds hvalid _ _ h).imp_right fun htext => htext i rfl
  rcases hfind : pool.find? (.utf8 s) with _ | i
  · by_cases hsize : pool.size + (Constant.utf8 s).width > maxSize
    · have hrefusal : pool.pushRefusal? (.utf8 s) = some .poolOverflow := by
        simp only [pushRefusal?, hshort, if_pos hsize]
      refine .inr ⟨Nat.le_of_lt_succ hsize, ?_⟩
      simp only [putText, put, hfind, push, hrefusal]
    · have hrefusal : pool.pushRefusal? (.utf8 s) = none := by
        simp only [pushRefusal?, hshort, if_neg hsize]
      have hpushed : putText s pool = (.ok (UInt16.ofNat pool.size), pool.append (.utf8 s)) := by
        simp only [putText, put, hfind, push, hrefusal]
      exact .inl ⟨_, _, hpushed, hput hpushed⟩
  · have hfound : putText s pool = (.ok i, pool) := by
      simp only [putText, put, hfind]
    exact .inl ⟨_, _, hfound, hput hfound⟩

namespace RepairEdit

variable {α β ε : Type} {c : ClassFile}

theorem get_bind {f : ClassFile → RepairEdit β} : (do f (← get) : RepairEdit β) c = f c c :=
  rfl

theorem orFail_ok_bind {wrap : ε → TransformError} {a : α} {f : α → RepairEdit β} :
    (do f (← orFail wrap (.ok a)) : RepairEdit β) = f a :=
  rfl

theorem modify_bind {g : ClassFile → ClassFile} {x : RepairEdit β} :
    (do modify g; x : RepairEdit β) c = x (g c) :=
  rfl

end RepairEdit

/-- Setting a new attribute fails only if its name cannot be put. -/
theorem ClassEdit.setMadeAttribute_eq (name : String) (info : Bytes) (c : ClassFile) :
    (do setClassAttribute (← makeAttribute name info) : ClassEdit Unit) c =
      match PoolEdit.putText name c.pool with
      | (.error e, pool) => (.error e, { c with pool })
      | (.ok nameIndex, pool) =>
        (.ok (),
          { c with pool, attributes := setAttribute { nameIndex, name, info } c.attributes }) := by
  have hput : onPool (PoolEdit.putText name) c =
      ((PoolEdit.putText name c.pool).1, { c with pool := (PoolEdit.putText name c.pool).2 }) := rfl
  unfold makeAttribute
  rw [bind_stateful, bind_stateful, hput]
  rcases PoolEdit.putText name c.pool with ⟨e | i, pool⟩
  · rfl
  · rfl

section

variable {c : ClassFile} {found : Option (List RecordComponent)} {marked : List (Member × Bool)}

/-- Components that are there are kept. -/
theorem restoreComponents_of_present
    (hfound : AttributeFormat.recordComponents.parseAmong c.pool c.attributes = .ok found)
    (hpresent : (found.getD []).isEmpty = false) : restoreComponents c = (.ok false, c) := by
  unfold restoreComponents
  rw [RepairEdit.get_bind, hfound, RepairEdit.orFail_ok_bind, hpresent]
  rfl

theorem componentsName_short :
    textRefusal? (.utf8 AttributeFormat.recordComponents.name) = none := by
  decide

/-- The attribute that holds the components for marked fields. -/
def componentsAttribute (marked : List (Member × Bool)) (nameIndex : UInt16) : Attribute :=
  { nameIndex, name := AttributeFormat.recordComponents.name,
    info := AttributeFormat.recordComponents.encode (componentsOf marked) }

/-- The class with its marked fields private and with components for them. -/
def ClassFile.withComponents (c : ClassFile) (marked : List (Member × Bool)) (pool : ConstantPool)
    (nameIndex : UInt16) : ClassFile :=
  { c with
    pool
    fields := privatized marked
    attributes := setAttribute (componentsAttribute marked nameIndex) c.attributes }

/-- Otherwise the marked fields become private, and components for them are added. -/
theorem restoreComponents_eq
    (hfound : AttributeFormat.recordComponents.parseAmong c.pool c.attributes = .ok found)
    (hempty : (found.getD []).isEmpty = true)
    (hmarked : markComponents c.pool [] c.fields = .ok marked)
    (hany : marked.any (·.2) = true) :
    restoreComponents c =
      match PoolEdit.putText AttributeFormat.recordComponents.name c.pool with
      | (.error e, pool) => (.error (.classFile e), { c with pool, fields := privatized marked })
      | (.ok nameIndex, pool) => (.ok true, c.withComponents marked pool nameIndex) := by
  have hset := ClassEdit.setMadeAttribute_eq AttributeFormat.recordComponents.name
    (AttributeFormat.recordComponents.encode (componentsOf marked))
    { c with fields := privatized marked }
  unfold restoreComponents
  rw [RepairEdit.get_bind, hfound, RepairEdit.orFail_ok_bind, if_pos hempty]
  unfold repairComponents
  rw [RepairEdit.get_bind, hmarked, RepairEdit.orFail_ok_bind, hany]
  rw [if_neg (by decide), RepairEdit.modify_bind]
  show (do
    RepairEdit.edit do
      ClassEdit.setClassAttribute (← ClassEdit.makeAttribute AttributeFormat.recordComponents.name
        (AttributeFormat.recordComponents.encode (componentsOf marked)))
    return true : RepairEdit Bool) { c with fields := privatized marked } = _
  rw [bind_stateful]
  unfold RepairEdit.edit
  rw [hset]
  rcases PoolEdit.putText AttributeFormat.recordComponents.name c.pool with ⟨e | i, pool⟩
  · rfl
  · rfl

/-- The repair of components leaves a class as it is or gives it components. -/
theorem restoreComponents_cases {changed : Bool} {c' : ClassFile} (hvalid : c.pool.Valid)
    (h : restoreComponents c = (.ok changed, c')) :
    c' = c ∨ ∃ marked pool nameIndex, c.pool.Grows anyConstant pool ∧
      c' = c.withComponents marked pool nameIndex := by
  obtain ⟨found, hfound, hrest⟩ := RepairEdit.orFail_bind_ok_iff.1 (RepairEdit.get_bind_ok_iff.1 h)
  by_cases hempty : (found.getD []).isEmpty = true
  swap
  · rw [if_neg hempty] at hrest
    cases hrest
    exact .inl rfl
  rw [if_pos hempty] at hrest
  obtain ⟨marked, hmarked, hrest⟩ :=
    RepairEdit.orFail_bind_ok_iff.1 (RepairEdit.get_bind_ok_iff.1 hrest)
  rcases hany : marked.any (·.2) with _ | _
  · rw [hany] at hrest
    cases hrest
    exact .inl rfl
  · rw [restoreComponents_eq hfound hempty hmarked hany] at h
    rcases PoolEdit.putText_outcome componentsName_short hvalid with
      ⟨i, pool, hput, hgrows, -⟩ | ⟨-, hput⟩
    · rw [hput] at h
      cases h
      exact .inr ⟨marked, pool, i, hgrows, rfl⟩
    · rw [hput] at h
      cases h

/-- The repair of components does not touch the signature of the class. -/
theorem restoreComponents_keeps {changed : Bool} {c' : ClassFile} (hvalid : c.pool.Valid)
    (h : restoreComponents c = (.ok changed, c')) :
    c'.pool.Valid ∧ ∀ found, c.signature = .ok found → c'.signature = .ok found := by
  rcases restoreComponents_cases hvalid h with rfl | ⟨marked, pool, i, hgrows, rfl⟩
  · exact ⟨hvalid, fun _ => id⟩
  · refine ⟨hgrows.valid, fun found hfound => textAttribute_congr hgrows.kept ?_ hfound⟩
    refine findAttribute?_setAttribute_of_ne ?_
    show signatureName ≠ AttributeFormat.recordComponents.name
    decide

theorem ComponentsRebuilt.of_marked {pool : ConstantPool} {nameIndex : UInt16}
    (hgrows : c.pool.Grows anyConstant pool)
    (hname : pool.text nameIndex = .ok AttributeFormat.recordComponents.name) (hfits : c.Fits)
    (hmarked : markComponents c.pool [] c.fields = .ok marked) :
    ComponentsRebuilt c (c.withComponents marked pool nameIndex) := by
  have hfields : marked.map (·.1) = c.fields := map_fst_of_markComponents hmarked
  refine ⟨rfl, hgrows.kept, ⟨componentsOf marked, firstPositions marked, ?_,
    firstPositions_pairwise marked, fun i => mem_firstPositions_iff hmarked, ?_⟩, ?_,
    fun i field hi => ?_, componentsAttribute marked nameIndex, rfl, hname, setAttribute_cases _ _⟩
  · -- What is read of the attribute is what was written.
    obtain ⟨hlength, hrows⟩ := componentsOf_fit (hfields ▸ hfits.fields_fit)
    have hfit : RowsFit (RecordComponent.Fits pool) (componentsOf marked) :=
      ⟨hlength, fun row hrow => (hrows row hrow).mono hgrows.carries⟩
    have hfind : findAttribute? (componentsAttribute marked nameIndex).name
        (setAttribute (componentsAttribute marked nameIndex) c.attributes) =
          some (componentsAttribute marked nameIndex) := findAttribute?_setAttribute_self
    exact AttributeFormat.parseAmong_ok_iff.2 (.inr ⟨_, _, hfind,
      (AttributeFormat.parse_ok_iff AttributeFormat.recordComponents_exact).2 ⟨hfit, rfl⟩, rfl⟩)
  · refine (componentsOf_forall₂ hmarked).imp ?_
    rintro i _ ⟨field, hfield, rfl⟩
    exact ⟨field, hfield, rfl, rfl, rfl⟩
  · show (privatized marked).length = _
    rw [privatized, List.length_map, ← hfields, List.length_map]
  · rw [getElem?_of_markComponents hmarked] at hi
    obtain ⟨⟨field, isFirst⟩, hrow, rfl⟩ := Option.map_eq_some_iff.1 hi
    have hfirst := isFirstOfPair_iff hmarked hrow
    refine ⟨if isFirst then field.makePrivate else field, ?_, fun h => ?_, fun h => ?_⟩
    · show (privatized marked)[i]? = _
      rw [privatized, List.getElem?_map, hrow]
      rfl
    · rw [if_pos (hfirst.1 h)]
      exact field.makePrivate_becomesPrivate
    · rw [if_neg (mt hfirst.2 h)]

end

/-! ## The repair -/

section

variable {c : ClassFile} {path : ClassPath} {found : Option (List RecordComponent)}

/-- Where only components are repaired, a record goes through no other step. -/
theorem apply_components_eq (path : ClassPath) (hsuper : c.superName = .ok (some recordName)) :
    (Repair.record ⟨true, false⟩).apply path c = restoreComponents c := by
  unfold Repair.apply Repair.applyWith
  dsimp only
  unfold repairRecord
  rw [RepairEdit.get_bind, hsuper, RepairEdit.orFail_ok_bind, if_neg (not_not.2 rfl),
    RepairEdit.unaided_eq]
  rw [bind_stateful]
  unfold RepairEdit.ifChosen
  rw [if_pos rfl]
  rcases restoreComponents c with ⟨e | first, c'⟩
  · rfl
  · show ((.ok (first || false), c') : Except TransformError Bool × ClassFile) = _
    rw [Bool.or_false]

/-- Without a final instance field a record stays as it is. -/
theorem restoreComponents_of_fieldless (hfits : c.Fits)
    (hnone : ∀ field ∈ c.fields, isComponentField field = false) :
    (restoreComponents c).2 = c ∧
      ∀ found, AttributeFormat.recordComponents.parseAmong c.pool c.attributes = .ok found →
        (restoreComponents c).1 = .ok false := by
  obtain ⟨marked, hmarked⟩ := markComponents_ok hfits.fields_fit.fits []
  have hany := any_marked_eq_false hmarked hnone
  have hrepair : repairComponents c = (.ok false, c) := by
    unfold repairComponents
    rw [RepairEdit.get_bind, hmarked, RepairEdit.orFail_ok_bind, hany]
    rfl
  unfold restoreComponents
  rw [RepairEdit.get_bind]
  rcases AttributeFormat.recordComponents.parseAmong c.pool c.attributes with e | found
  · exact ⟨rfl, nofun⟩
  · rw [RepairEdit.orFail_ok_bind]
    by_cases hempty : (found.getD []).isEmpty = true
    · rw [if_pos hempty, hrepair]
      exact ⟨rfl, fun _ _ => rfl⟩
    · rw [if_neg hempty]
      exact ⟨rfl, fun _ _ => rfl⟩

end

/-- What the repair of components does to a record. Components that are there are kept, and without
a final instance field there is nothing to do. Otherwise the components are rebuilt, unless the pool
has no room for the name of their attribute. -/
theorem components_rebuilt {c : ClassFile} {path : ClassPath} (hvalid : c.pool.Valid)
    (hfits : c.Fits) (hsuper : c.superName = .ok (some recordName)) :
    (∀ row rows, AttributeFormat.recordComponents.parseAmong c.pool c.attributes =
        .ok (some (row :: rows)) →
      (Repair.record ⟨true, false⟩).apply path c = (.ok false, c)) ∧
    ((∀ field ∈ c.fields, isComponentField field = false) →
      ((Repair.record ⟨true, false⟩).apply path c).2 = c ∧
      ∀ found, AttributeFormat.recordComponents.parseAmong c.pool c.attributes = .ok found →
        ((Repair.record ⟨true, false⟩).apply path c).1 = .ok false) ∧
    ∀ found, AttributeFormat.recordComponents.parseAmong c.pool c.attributes = .ok found →
      found = none ∨ found = some [] → (∃ field ∈ c.fields, isComponentField field = true) →
      (maxSize ≤ c.pool.size ∧
        ((Repair.record ⟨true, false⟩).apply path c).1 = .error (.classFile .poolOverflow)) ∨
      ∃ c', (Repair.record ⟨true, false⟩).apply path c = (.ok true, c') ∧
        ComponentsRebuilt c c' := by
  rw [apply_components_eq path hsuper]
  refine ⟨fun row rows hfound => ?_, fun hnone => ?_, fun found hfound hmissing hsome => ?_⟩
  · exact restoreComponents_of_present hfound rfl
  · exact restoreComponents_of_fieldless hfits hnone
  · have hempty : (found.getD []).isEmpty = true := by
      rcases hmissing with rfl | rfl
      · rfl
      · rfl
    obtain ⟨marked, hmarked⟩ := markComponents_ok hfits.fields_fit.fits []
    have heq := restoreComponents_eq hfound hempty hmarked (any_marked hmarked hsome)
    rcases PoolEdit.putText_outcome componentsName_short hvalid with
      ⟨i, pool, hput, hgrows, hname⟩ | ⟨hfull, hput⟩
    · rw [hput] at heq
      exact .inr ⟨_, heq, .of_marked hgrows hname hfits hmarked⟩
    · rw [hput] at heq
      exact .inl ⟨hfull, congrArg Prod.fst heq⟩

/-- A record with a static field, with two fields of one name that the pool holds twice, and with
one of another name. -/
def sharedNameRecord : Bytes :=
  [0xca, 0xfe, 0xba, 0xbe, 0, 0, 0, 0x3d, 0, 0xb, 1, 0, 1, 0x52, 7, 0, 1, 1, 0, 0x10, 0x6a, 0x61,
   0x76, 0x61, 0x2f, 0x6c, 0x61, 0x6e, 0x67, 0x2f, 0x52, 0x65, 0x63, 0x6f, 0x72, 0x64, 7, 0, 3, 1,
   0, 1, 0x78, 1, 0, 1, 0x49, 1, 0, 1, 0x78, 1, 0, 1, 0x79, 1, 0, 9, 0x53, 0x69, 0x67, 0x6e, 0x61,
   0x74, 0x75, 0x72, 0x65, 1, 0, 3, 0x54, 0x54, 0x3b, 0, 0x31, 0, 2, 0, 4, 0, 0, 0, 4, 0, 0x19, 0,
   5, 0, 6, 0, 0, 0, 0x11, 0, 5, 0, 6, 0, 1, 0, 9, 0, 0, 0, 2, 0, 0xa, 0, 0x12, 0, 7, 0, 6, 0, 0, 0,
   0x14, 0, 8, 0, 6, 0, 0, 0, 0, 0, 0]

theorem components_rebuilt_shared_name : ∃ c c', ClassFile.parse sharedNameRecord = .ok c ∧
    c.pool.Valid ∧ c.Fits ∧ c.superName = .ok (some recordName) ∧
    (Repair.record ⟨true, false⟩).apply ⟨[]⟩ c = (.ok true, c') ∧ ComponentsRebuilt c c' ∧
    c.fields.map (·.access) = [⟨0x19⟩, ⟨0x11⟩, ⟨0x12⟩, ⟨0x14⟩] ∧
    c'.fields.map (·.access) = [⟨0x19⟩, ⟨0x12⟩, ⟨0x12⟩, ⟨0x12⟩] := by
  have hread : (ClassFile.parse sharedNameRecord).map (fun c => (c.superName, c.pool.size,
      (AttributeFormat.recordComponents.parseAmong c.pool c.attributes).map (·.isNone),
      c.fields.any isComponentField)) =
        .ok (.ok (some recordName), 11, .ok true, true) := by decide +kernel
  have haccess : (ClassFile.parse sharedNameRecord).map (fun c => (c.fields.map (·.access),
      ((Repair.record ⟨true, false⟩).apply ⟨[]⟩ c).2.fields.map (·.access))) =
        .ok ([⟨0x19⟩, ⟨0x11⟩, ⟨0x12⟩, ⟨0x14⟩], [⟨0x19⟩, ⟨0x12⟩, ⟨0x12⟩, ⟨0x12⟩]) := by
    decide +kernel
  obtain ⟨c, hparse, hread⟩ := map_ok_iff.1 hread
  rw [hparse] at haccess
  obtain ⟨haccess, hprivate⟩ := Prod.mk.inj (Except.ok.inj haccess)
  simp only [Prod.mk.injEq] at hread
  obtain ⟨hsuper, hsize, hmissing, hany⟩ := hread
  obtain ⟨found, hfound, hnone⟩ := map_ok_iff.1 hmissing
  obtain ⟨hvalid, -⟩ := ClassFile.valid_of_parse hparse
  have hfits := (ClassFile.parse_ok_iff.1 hparse).1
  rcases (components_rebuilt hvalid hfits hsuper).2.2 found hfound
      (.inl (Option.isNone_iff_eq_none.1 hnone)) (List.any_eq_true.1 hany) with
    ⟨hfull, -⟩ | ⟨c', happly, hrebuilt⟩
  · exact absurd (hsize ▸ hfull) (by decide)
  · rw [happly] at hprivate
    exact ⟨c, c', hparse, hvalid, hfits, hsuper, happly, hrebuilt, haccess, hprivate⟩

end JarRemap
