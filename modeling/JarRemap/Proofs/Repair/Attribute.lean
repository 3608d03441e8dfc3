import JarRemap.Proofs.Build
import JarRemap.Proofs.Rename.ClassPass
import JarRemap.Repair.Basic

/-!
# What an edit of a class shows in its bytes

A repair adds to the pool of a class and changes parts behind it. Its bytes tell such classes apart:
if they are the same, the pool has not grown and the parts are spelled alike
(`ClassFile.parts_of_encode_eq`). Setting an attribute is the edit that all repairs but one end
with.
-/

namespace JarRemap

open ConstantPool

/-! ## Steps of a repair -/

namespace RepairEdit

variable {α β ε : Type} {c c' : ClassFile} {b : β}

theorem get_bind_ok_iff {f : ClassFile → RepairEdit β} :
    (do f (← get) : RepairEdit β) c = (.ok b, c') ↔ f c c = (.ok b, c') :=
  Iff.rfl

theorem orFail_bind_ok_iff {wrap : ε → TransformError} {x : Except ε α} {f : α → RepairEdit β} :
    (do f (← orFail wrap x) : RepairEdit β) c = (.ok b, c') ↔
      ∃ a, x = .ok a ∧ f a c = (.ok b, c') := by
  rcases x with e | a
  · refine iff_of_false (fun h => ?_) (fun ⟨_, h, _⟩ => nomatch h)
    exact nomatch congrArg Prod.fst h
  · refine ⟨fun h => ⟨a, rfl, h⟩, ?_⟩
    rintro ⟨_, ⟨⟩, h⟩
    exact h

theorem edit_bind_ok_iff {x : ClassEdit α} {f : α → RepairEdit β} :
    (do f (← edit x) : RepairEdit β) c = (.ok b, c') ↔
      ∃ a c₁, x c = (.ok a, c₁) ∧ f a c₁ = (.ok b, c') := by
  refine bind_stateful_ok_iff.trans (exists_congr fun a => exists_congr fun c₁ => ?_)
  refine and_congr_left' ?_
  unfold edit
  rcases x c with ⟨e | a', c₂⟩
  · exact iff_of_false (fun h => nomatch congrArg Prod.fst h) fun h => nomatch congrArg Prod.fst h
  · show ((.ok a', c₂) : Except TransformError α × ClassFile) = _ ↔ _
    rw [Prod.mk.injEq, Prod.mk.injEq, Except.ok.injEq, Except.ok.injEq]

theorem unaided_eq (x : RepairEdit α) : unaided (m := Id) x = x :=
  rfl

theorem ifChosen_idle {chosen : Bool} {x : RepairEdit Bool}
    (h : chosen = true → x c = (.ok false, c)) : ifChosen chosen x c = (.ok false, c) := by
  cases chosen with
  | false => rfl
  | true => exact h rfl

theorem ifChosen_cases {chosen changed : Bool} {x : RepairEdit Bool}
    (h : ifChosen chosen x c = (.ok changed, c')) :
    (chosen = false ∧ changed = false ∧ c' = c) ∨ (chosen = true ∧ x c = (.ok changed, c')) := by
  cases chosen with
  | false =>
    cases h
    exact .inl ⟨rfl, rfl, rfl⟩
  | true => exact .inr ⟨rfl, h⟩

end RepairEdit

/-! ## Spelling -/

/-- Different values are spelled differently. -/
theorem Reader.Exact.write_inj {α : Type} {r : Reader α} {write : α → Bytes} {fits : α → Prop}
    (h : r.Exact write fits) {a b : α} (ha : fits a) (hb : fits b) (heq : write a = write b) :
    a = b := by
  obtain ⟨d, hd, -⟩ := h.runOn_ok_iff.2 ⟨ha, rfl⟩
  obtain ⟨d', hd', -⟩ := h.runOn_ok_iff.2 ⟨hb, heq⟩
  exact Except.ok.inj (congrArg Prod.fst (hd.symm.trans hd'))

/-- A pool that grows without getting larger stays as it is. -/
theorem ConstantPool.Grows.slots_eq {allowed : Constant → Prop} {pool pool' : ConstantPool}
    (h : pool.Grows allowed pool') (hsize : pool'.size = pool.size) (hle : pool.size ≤ maxSize) :
    pool'.slots = pool.slots := by
  refine Array.ext hsize fun i hi' hi => ?_
  have hindex : (UInt16.ofNat i).toNat = i := toNat_ofNat_slot hle hi
  have hentry : pool.entry? (UInt16.ofNat i) = pool.slots[i] := by
    rw [ entry?, hindex, Array.getElem?_eq_getElem hi]
    rfl
  have hentry' : pool'.entry? (UInt16.ofNat i) = pool'.slots[i] := by
    rw [ entry?, hindex, Array.getElem?_eq_getElem hi']
    rfl
  rw [← hentry, ← hentry']
  refine Option.ext fun k => ⟨fun hk => ?_, h.kept _ k⟩
  rcases h.added _ k hk with hk | ⟨hlarge, -⟩
  · exact hk
  · rw [hindex] at hlarge
    exact absurd hi (not_lt.2 hlarge)

/-- The second pool resolves what the first one does, alike. -/
def ConstantPool.Keeps (pool pool' : ConstantPool) : Prop :=
  ∀ i k, pool.entry? i = some k → pool'.entry? i = some k

namespace ConstantPool.Keeps

variable {pool pool' : ConstantPool}

theorem of_slots_eq (h : pool'.slots = pool.slots) : pool.Keeps pool' := by
  intro i k hk
  unfold entry? at hk ⊢
  rwa [h]

theorem carries (h : pool.Keeps pool') : pool.Carries pool' :=
  fun i k _ => h i k

theorem text (h : pool.Keeps pool') {i : UInt16} {s : String} (hs : pool.text i = .ok s) :
    pool'.text i = .ok s :=
  text_ok_iff.2 (h i _ (text_ok_iff.1 hs))

theorem className (h : pool.Keeps pool') {i : UInt16} {s : String}
    (hs : pool.className i = .ok s) : pool'.className i = .ok s := by
  obtain ⟨name, hi, hname⟩ := className_ok_iff.1 hs
  exact className_ok_iff.2 ⟨name, h i _ hi, h.text hname⟩

end ConstantPool.Keeps

theorem ConstantPool.Valid.size_pos {pool : ConstantPool} (h : pool.Valid) : 0 < pool.size := by
  obtain ⟨entries, hholds, -⟩ := h
  rw [hholds.size_eq]
  omega

namespace ClassFile

/-- The class with another pool and other parts behind its interfaces. -/
def withParts (c : ClassFile) (pool : ConstantPool) (fields methods : List Member)
    (attributes : List Attribute) : ClassFile :=
  { c with pool, fields, methods, attributes }

@[simp] theorem pool_withParts {c : ClassFile} {pool : ConstantPool} {fields methods : List Member}
    {attributes : List Attribute} : (c.withParts pool fields methods attributes).pool = pool := rfl

/-- If a pool has grown and other parts have changed, but not the bytes, then the pool is as it was
and the other parts are spelled as they were. -/
theorem parts_of_encode_eq {c : ClassFile} {pool : ConstantPool} {fields methods : List Member}
    {attributes : List Attribute} (hvalid : c.pool.Valid) (hle : c.pool.size ≤ maxSize)
    (hgrows : c.pool.Grows anyConstant pool)
    (h : (c.withParts pool fields methods attributes).encode = c.encode) :
    pool.slots = c.pool.slots ∧
      Member.encodeAll fields ++ (Member.encodeAll methods ++ Attribute.encodeAll attributes) =
        Member.encodeAll c.fields ++
          (Member.encodeAll c.methods ++ Attribute.encodeAll c.attributes) := by
  rw [encode_eq, encode_eq, ConstantPool.encode, ConstantPool.encode] at h
  have hpools := List.append_cancel_left h
  rw [List.append_assoc, List.append_assoc] at hpools
  have hcount : UInt16.ofNat pool.size = UInt16.ofNat c.pool.size := by
    refine Reader.u16_exact.write_inj trivial trivial (List.append_inj_left hpools ?_)
    rw [Bytes.length_ofUInt16, Bytes.length_ofUInt16]
  -- The count says how large the pool is.
  have hsize : pool.size = c.pool.size := by
    have hpos := hvalid.size_pos
    have hlarger := hgrows.size_le
    have hsmall := hgrows.size_le_max
    have hmod : pool.size % 65536 = c.pool.size % 65536 := by
      simpa using congrArg UInt16.toNat hcount
    rw [maxSize] at hle hsmall
    omega
  have hslots := hgrows.slots_eq hsize hle
  rw [pool_withParts, hcount, hslots] at hpools
  have htails := List.append_cancel_left (List.append_cancel_left hpools)
  unfold encodeTail at htails
  refine ⟨hslots, ?_⟩
  exact List.append_cancel_left (List.append_cancel_left (List.append_cancel_left
    (List.append_cancel_left htails)))

end ClassFile

/-! ## Setting an attribute -/

section

variable {a b : Attribute} {attributes : List Attribute} {name : String}

theorem findAttribute?_setAttribute_self :
    findAttribute? a.name (setAttribute a attributes) = some a := by
  induction attributes with
  | nil => exact List.find?_cons_of_pos (beq_self_eq_true _)
  | cons b rest ih =>
    rw [setAttribute]
    by_cases hname : b.name = a.name
    · rw [if_pos hname]
      exact List.find?_cons_of_pos (beq_self_eq_true _)
    · rw [if_neg hname]
      exact (List.find?_cons_of_neg (by simpa using hname)).trans ih

theorem findAttribute?_setAttribute_of_ne (h : name ≠ a.name) :
    findAttribute? name (setAttribute a attributes) = findAttribute? name attributes := by
  have hother (rest : List Attribute) :
      findAttribute? name (a :: rest) = findAttribute? name rest :=
    List.find?_cons_of_neg (by simpa using h.symm)
  induction attributes with
  | nil => exact hother []
  | cons b rest ih =>
    rw [setAttribute]
    by_cases hname : b.name = a.name
    · rw [if_pos hname, hother]
      exact (List.find?_cons_of_neg (by simpa [hname] using h.symm)).symm
    · rw [if_neg hname]
      unfold findAttribute? at ih ⊢
      rw [List.find?_cons, List.find?_cons, ih]

/-- An attribute takes the place of the one that is found under its name. -/
theorem setAttribute_of_found (h : findAttribute? a.name attributes = some b) :
    ∃ before after, attributes = before ++ b :: after ∧
      setAttribute a attributes = before ++ a :: after := by
  induction attributes with
  | nil => cases h
  | cons c rest ih =>
    rw [setAttribute]
    by_cases hname : c.name = a.name
    · rw [if_pos hname]
      obtain rfl : c = b :=
        Option.some.inj ((List.find?_cons_of_pos (by simpa using hname)).symm.trans h)
      exact ⟨[], rest, rfl, rfl⟩
    · rw [if_neg hname]
      have hrest : findAttribute? a.name rest = some b :=
        (List.find?_cons_of_neg (by simpa using hname)).symm.trans h
      obtain ⟨before, after, rfl, hset⟩ := ih hrest
      exact ⟨c :: before, after, rfl, congrArg (c :: ·) hset⟩

/-- Otherwise it is added at the end. -/
theorem setAttribute_of_missing (h : findAttribute? a.name attributes = none) :
    setAttribute a attributes = attributes ++ [a] := by
  induction attributes with
  | nil => rfl
  | cons b rest ih =>
    have hname : b.name ≠ a.name := by
      intro hname
      exact nomatch (List.find?_cons_of_pos (by simpa using hname)).symm.trans h
    have hrest : findAttribute? a.name rest = none :=
      (List.find?_cons_of_neg (by simpa using hname)).symm.trans h
    rw [setAttribute, if_neg hname, ih hrest, List.cons_append]

end

/-! ## Its bytes -/

namespace Attribute

variable {a b : Attribute} {attributes : List Attribute}

theorem length_encode (a : Attribute) : a.encode.length = 6 + a.info.length := by
  simp only [encode, List.length_append, Bytes.length_ofUInt16, Bytes.count32,
    Bytes.length_ofUInt32]
  omega

theorem length_encodeAll (attributes : List Attribute) :
    (encodeAll attributes).length = 2 + (attributes.map fun a => 6 + a.info.length).sum := by
  rw [encodeAll, List.length_append, List.length_flatMap, Bytes.count16, Bytes.length_ofUInt16]
  simp only [length_encode]

/-- What is added makes the attributes longer. -/
theorem length_encodeAll_lt_of_missing (h : findAttribute? a.name attributes = none) :
    (encodeAll attributes).length < (encodeAll (setAttribute a attributes)).length := by
  rw [setAttribute_of_missing h, length_encodeAll, length_encodeAll, List.map_append,
    List.sum_append, List.map_singleton, List.sum_singleton]
  omega

/-- What takes the place of something shorter makes them longer. -/
theorem length_encodeAll_lt_of_found (h : findAttribute? a.name attributes = some b)
    (hlength : b.info.length < a.info.length) :
    (encodeAll attributes).length < (encodeAll (setAttribute a attributes)).length := by
  obtain ⟨before, after, rfl, hset⟩ := setAttribute_of_found h
  rw [hset]
  simp only [length_encodeAll, List.map_append, List.map_cons, List.sum_append, List.sum_cons]
  omega

/-- What takes the place of something else with other contents does not go unnoticed. -/
theorem encodeAll_ne_of_found (h : findAttribute? a.name attributes = some b)
    (hne : b.info ≠ a.info) :
    encodeAll (setAttribute a attributes) ≠ encodeAll attributes := by
  obtain ⟨before, after, rfl, hset⟩ := setAttribute_of_found h
  rw [hset]
  intro heq
  have hcount : Bytes.count16 (before ++ a :: after) = Bytes.count16 (before ++ b :: after) := by
    unfold Bytes.count16
    rw [List.length_append, List.length_append, List.length_cons, List.length_cons]
  unfold encodeAll at heq
  rw [hcount, List.flatMap_append, List.flatMap_append, List.flatMap_cons, List.flatMap_cons] at heq
  have hencode : a.encode = b.encode :=
    List.append_cancel_right (List.append_cancel_left (List.append_cancel_left heq))
  unfold encode at hencode
  have hinfo := List.append_inj_right hencode (by rw [Bytes.length_ofUInt16, Bytes.length_ofUInt16])
  exact hne (List.append_inj_right hinfo (by simp only [Bytes.count32, Bytes.length_ofUInt32])).symm

end Attribute

/-! ## Setting an attribute of a class -/

/-- The class gets an attribute whose name is in its pool, which may have grown. -/
structure ClassFile.Sets (a : Attribute) (c c' : ClassFile) : Prop where
  grows : c.pool.Grows anyConstant c'.pool
  named : a.Named c'.pool
  eq : c' = { c with pool := c'.pool, attributes := setAttribute a c.attributes }

namespace ClassEdit

variable {c c' : ClassFile}

/-- An attribute that is made has its name in the pool. -/
def Makes (c : ClassFile) (x : ClassEdit Attribute) (post : ConstantPool → Attribute → Prop) :
    Prop :=
  Adds c x fun pool a => a.Named pool ∧ post pool a

theorem makeAttribute_makes (name : String) (info : Bytes) :
    Makes c (makeAttribute name info) fun _ a => a.name = name ∧ a.info = info := by
  refine (adds_onPool (PoolEdit.putText_adds trivial)).bind fun i pool₁ _ hi => ?_
  exact .pure ⟨hi, rfl, rfl⟩

theorem makeTextAttribute_makes (name text : String) :
    Makes c (makeTextAttribute name text) fun pool a =>
      a.name = name ∧ ∃ i, a.info = Bytes.ofUInt16 i ∧ pool.text i = .ok text := by
  refine (adds_onPool (PoolEdit.putText_adds trivial)).bind fun i pool₁ _ hi => ?_
  refine (adds_onPool (PoolEdit.putText_adds trivial)).bind fun j pool₂ hgrows hj => ?_
  exact .pure ⟨hj, rfl, i, rfl, hgrows.text hi⟩

theorem Makes.sets {x : ClassEdit Attribute} {post : ConstantPool → Attribute → Prop}
    (hx : Makes c x post) (hvalid : c.pool.Valid)
    (h : (do ClassEdit.setClassAttribute (← x)) c = (.ok (), c')) :
    ∃ a, c.Sets a c' ∧ post c'.pool a := by
  obtain ⟨a, made, hmade, hset⟩ := bind_stateful_ok_iff.1 h
  obtain ⟨pool, rfl, hgrows, hpost⟩ := hx hvalid _ _ hmade
  obtain ⟨hnamed, ha⟩ := hpost a rfl
  obtain rfl : { c with pool, attributes := setAttribute a c.attributes } = c' :=
    congrArg Prod.snd hset
  exact ⟨a, ⟨hgrows, hnamed, rfl⟩, ha⟩

end ClassEdit

/-! ## Texts of attributes -/

section

variable {pool pool' : ConstantPool} {name : String} {attributes : List Attribute}

theorem textAttribute_ok_iff {found : Option String} :
    textAttribute pool name attributes = .ok found ↔
      (findAttribute? name attributes = none ∧ found = none) ∨
      ∃ a i s, findAttribute? name attributes = some a ∧ a.info = Bytes.ofUInt16 i ∧
        pool.text i = .ok s ∧ found = some s := by
  unfold textAttribute
  rcases findAttribute? name attributes with _ | a
  · constructor
    · intro h
      exact .inl ⟨rfl, (Except.ok.inj h).symm⟩
    · rintro (⟨-, rfl⟩ | ⟨a, i, s, ha, -⟩)
      · rfl
      · cases ha
  · constructor
    · intro h
      obtain ⟨i, hi, h⟩ := except_bind_ok_iff.1 h
      obtain ⟨s, hs, h⟩ := except_bind_ok_iff.1 h
      exact .inr ⟨a, i, s, rfl, Attribute.index_ok_iff.1 hi, hs, (Except.ok.inj h).symm⟩
    · rintro (⟨ha, -⟩ | ⟨b, i, s, ha, hi, hs, rfl⟩)
      · cases ha
      · obtain rfl := Option.some.inj ha
        exact except_bind_ok_iff.2 ⟨i, Attribute.index_ok_iff.2 hi,
          except_bind_ok_iff.2 ⟨s, hs, rfl⟩⟩

/-- What an attribute says depends on the pool only for the text, and on its first bearer. -/
theorem textAttribute_congr (hkeeps : pool.Keeps pool') {attributes' : List Attribute}
    (hfind : findAttribute? name attributes' = findAttribute? name attributes)
    {found : Option String} (h : textAttribute pool name attributes = .ok found) :
    textAttribute pool' name attributes' = .ok found := by
  rw [textAttribute_ok_iff] at h ⊢
  rw [hfind]
  refine h.imp_right ?_
  rintro ⟨a, i, s, ha, hi, hs, hfound⟩
  exact ⟨a, i, s, ha, hi, hkeeps.text hs, hfound⟩

end

namespace ClassFile.Sets

variable {a : Attribute} {c c' : ClassFile} {text : String}

theorem eq_withParts (h : c.Sets a c') :
    c' = c.withParts c'.pool c.fields c.methods (setAttribute a c.attributes) :=
  h.eq

theorem attributes_eq (h : c.Sets a c') : c'.attributes = setAttribute a c.attributes :=
  congrArg ClassFile.attributes h.eq

/-- The attribute says what it has been set to. -/
theorem textAttribute_eq (h : c.Sets a c') {i : UInt16} (hinfo : a.info = Bytes.ofUInt16 i)
    (hi : c'.pool.text i = .ok text) :
    textAttribute c'.pool a.name c'.attributes = .ok (some text) := by
  rw [textAttribute_ok_iff, h.attributes_eq]
  exact .inr ⟨a, i, text, findAttribute?_setAttribute_self, hinfo, hi, rfl⟩

/-- If it has said something else before, that shows in the bytes. -/
theorem encode_ne (h : c.Sets a c') (hvalid : c.pool.Valid) (hle : c.pool.size ≤ maxSize)
    {i : UInt16} (hinfo : a.info = Bytes.ofUInt16 i) (hi : c'.pool.text i = .ok text)
    {found : Option String} (hfound : textAttribute c.pool a.name c.attributes = .ok found)
    (hne : found ≠ some text) : c'.encode ≠ c.encode := by
  intro heq
  rw [h.eq_withParts] at heq
  obtain ⟨-, hparts⟩ := parts_of_encode_eq hvalid hle h.grows heq
  have hattributes := List.append_cancel_left (List.append_cancel_left hparts)
  rcases textAttribute_ok_iff.1 hfound with ⟨hmissing, -⟩ | ⟨b, j, s, hb, hj, hs, rfl⟩
  · have hlonger := Attribute.length_encodeAll_lt_of_missing hmissing
    rw [hattributes] at hlonger
    exact lt_irrefl _ hlonger
  · refine Attribute.encodeAll_ne_of_found hb (fun hsame => hne ?_) hattributes
    rw [hj, hinfo] at hsame
    obtain rfl : j = i := Reader.u16_exact.write_inj trivial trivial hsame
    exact congrArg some (Except.ok.inj ((h.grows.text hs).symm.trans hi))

end ClassFile.Sets

end JarRemap
