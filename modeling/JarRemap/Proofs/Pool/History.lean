import JarRemap.Proofs.Pool.Replace

/-!
# Pools with a history

A pool begins empty or is read from bytes, and then entries are put, pushed and replaced in any
order (`PoolStep`). The directory may go stale on the way: reading, pushing and replacing maintain
it by different rules, and nothing is ever taken out of it. The slots never do. At every time the
pool is laid out as a class file lays it out, can be written and is read back (`InShape`), and
whatever was once in a slot is there until it is replaced in that very slot (`Retains`). One step is
looked at for each of the two, and a history is taken step by step.
-/

namespace JarRemap

/-- The entry is no text entry in bytes, or one that reading makes of these bytes. -/
def Constant.Genuine (k : Constant) : Prop :=
  ∀ bytes, k = .rawUtf8 bytes → ∃ index, Constant.ofTextBytes bytes index = .ok k

/-- An operation on a pool. -/
inductive PoolStep where
  | push (k : Constant)
  | put (k : Constant)
  | set (index : UInt16) (k : Constant)
  | putText (s : String)
  | putClass (name : String)
  | putNameAndType (name descriptor : String)

namespace PoolStep

/-- The pool after the operation, whether that succeeds or not. -/
def apply : PoolStep → ConstantPool → ConstantPool
  | .push k, pool => (PoolEdit.push k pool).2
  | .put k, pool => (PoolEdit.put k pool).2
  | .set i k, pool => (PoolEdit.set i k pool).2
  | .putText s, pool => (PoolEdit.putText s pool).2
  | .putClass name, pool => (PoolEdit.putClass name pool).2
  | .putNameAndType name descriptor, pool => (PoolEdit.putNameAndType name descriptor pool).2

/-- The operation is given no bytes in the place of a text but those that reading leaves. -/
def Genuine : PoolStep → Prop
  | .push k | .put k | .set _ k => k.Genuine
  | .putText _ | .putClass _ | .putNameAndType _ _ => True

end PoolStep

namespace ConstantPool

/-- A pool as it begins: empty, or as it is read. -/
inductive Started : ConstantPool → Prop where
  | empty : Started empty
  | read {pool : ConstantPool} {c d : Cursor} (h : ConstantPool.read c = (.ok pool, d)) :
      Started pool

/-- The pool after some operations. -/
def after (pool : ConstantPool) (steps : List PoolStep) : ConstantPool :=
  steps.foldl (fun pool s => s.apply pool) pool

/-- The pool has one slot that holds nothing behind each wide entry and none elsewhere but for slot
zero, it keeps the limits of a class file, and wherever its bytes stand they are read as a pool with
the same slots. -/
structure InShape (pool : ConstantPool) : Prop where
  first_vacant : pool.slots[0]? = some none
  vacant_iff : ∀ i, pool.slots[i + 1]? = some none ↔
    ∃ k, pool.slots[i]? = some (some k) ∧ k.isWide = true
  size_le : pool.size ≤ 65535
  text_le : ∀ i s, pool.entry? i = some (.utf8 s) → (Text.ModifiedUtf8.encode s).length ≤ 65535
  rawText_le : ∀ i bytes, pool.entry? i = some (.rawUtf8 bytes) → bytes.length ≤ 65535
  reads_back : ∀ c d, c.Past pool.encode d →
    ∃ again, ConstantPool.read c = (.ok again, d) ∧ again.slots = pool.slots

/-- Every entry of the first pool has one of its width in its slot of the second pool, and it is
there itself unless the slot is one of those replaced. -/
def Retains (replaced : UInt16 → Prop) (pool pool' : ConstantPool) : Prop :=
  ∀ i k, pool.entry? i = some k →
    ∃ k', pool'.entry? i = some k' ∧ k'.isWide = k.isWide ∧ (¬ replaced i → k' = k)

/-- Some of the operations replace the entry in the slot. -/
def ReplacedBy (steps : List PoolStep) (i : UInt16) : Prop :=
  ∃ k, PoolStep.set i k ∈ steps

/-- What an operation on the pool gives stands there, and one that fails changes nothing. -/
structure Answers (pool : ConstantPool) : Prop where
  put_ok : ∀ k i pool', PoolEdit.put k pool = (.ok i, pool') → pool'.entry? i = some k
  push_ok : ∀ k i pool', PoolEdit.push k pool = (.ok i, pool') → pool'.entry? i = some k
  set_ok : ∀ i k pool', PoolEdit.set i k pool = (.ok (), pool') → pool'.entry? i = some k
  put_error : ∀ k e pool', PoolEdit.put k pool = (.error e, pool') → pool' = pool
  push_error : ∀ k e pool', PoolEdit.push k pool = (.error e, pool') → pool' = pool
  set_error : ∀ i k e pool', PoolEdit.set i k pool = (.error e, pool') → pool' = pool

/-! ## Shape -/

/-- Behind a slot without a wide entry and among the slots of some entries, those that hold nothing
are those behind the wide entries. -/
theorem vacant_iff_of_flatMap_slotsOf {first : Option Constant}
    (hfirst : ∀ k, first = some k → k.isWide = false) {entries : List Constant} {n : ℕ} :
    (first :: entries.flatMap slotsOf)[n + 1]? = some none ↔
      ∃ k, (first :: entries.flatMap slotsOf)[n]? = some (some k) ∧ k.isWide = true := by
  induction entries generalizing first n with
  | nil =>
    rcases n with _ | n
    · simpa using hfirst
    · simp
  | cons j rest ih =>
    by_cases hwide : j.isWide = true
    · have hslots : (j :: rest).flatMap slotsOf = some j :: none :: rest.flatMap slotsOf := by
        rw [List.flatMap_cons, slotsOf, if_pos hwide, List.cons_append, List.cons_append,
          List.nil_append]
      rw [hslots]
      rcases n with _ | _ | n
      · simpa using hfirst
      · simpa using hwide
      · exact ih (by rintro _ ⟨⟩)
    · have hslots : (j :: rest).flatMap slotsOf = some j :: rest.flatMap slotsOf := by
        rw [List.flatMap_cons, slotsOf, if_neg hwide, List.cons_append, List.nil_append]
      rw [hslots]
      rcases n with _ | n
      · simpa using hfirst
      · refine ih ?_
        rintro _ ⟨⟩
        exact Bool.eq_false_of_not_eq_true hwide

theorem Valid.storable {pool : ConstantPool} (h : pool.Valid) {i : UInt16} {k : Constant}
    (hi : pool.entry? i = some k) : k.Storable := by
  obtain ⟨entries, hholds, hstorable⟩ := h
  rw [ entry?, ← Array.getElem?_toList, hholds, Option.join_eq_some_iff] at hi
  rcases List.mem_cons.1 (List.mem_of_getElem? hi) with hk | hk
  · cases hk
  · obtain ⟨j, hj, hk⟩ := List.mem_flatMap.1 hk
    rw [slotsOf] at hk
    obtain rfl : k = j := by split at hk <;> simpa using hk
    exact hstorable k hj

/-- A valid pool within the limit of slots is in shape. -/
theorem Valid.inShape {pool : ConstantPool} (h : pool.Valid) (hsize : pool.size ≤ maxSize) :
    pool.InShape := by
  have hstorable := fun i k hi => h.storable (i := i) (k := k) hi
  obtain ⟨entries, hholds, hentries⟩ := h
  refine ⟨?_, fun i => ?_, hsize, fun i s hi => ?_, fun i bytes hi => ?_, fun c d hpast => ?_⟩
  · rw [← Array.getElem?_toList, hholds, List.getElem?_cons_zero]
  · simp only [← Array.getElem?_toList]
    rw [hholds]
    exact vacant_iff_of_flatMap_slotsOf (by rintro _ ⟨⟩)
  · exact Nat.le_of_lt_succ (hstorable i _ hi)
  · exact Nat.le_of_lt_succ (hstorable i _ hi).1
  · refine ⟨_, hholds.read_encode hentries hsize hpast, ?_⟩
    rw [← Array.toList_inj, holds_ofEntries entries, hholds]

/-- A pool as it begins is valid and within the limit. -/
theorem Started.valid {pool : ConstantPool} (h : pool.Started) :
    pool.Valid ∧ pool.size ≤ maxSize := by
  cases h with
  | empty => exact ⟨valid_empty, by decide⟩
  | read h =>
    obtain ⟨_, entries, _, hspells, -, rfl, hsize, -⟩ := read_ok_iff.1 h
    exact ⟨⟨entries, holds_ofEntries entries, storable_of_forall₂ hspells⟩, hsize⟩

/-! ## One operation -/

/-- Bytes that reading leaves in the place of a text can be stored if they are not too long. -/
theorem storable_of_genuine {k : Constant} (hk : k.Genuine) (h : textRefusal? k = none) :
    k.Storable := by
  by_cases hraw : ∃ bytes, k = .rawUtf8 bytes
  · obtain ⟨bytes, rfl⟩ := hraw
    obtain ⟨index, htext⟩ := hk bytes rfl
    rcases Constant.ofTextBytes_eq_ok_iff.1 htext with ⟨_, hne, -⟩ | ⟨-, hlone⟩
    · cases hne
    · refine ⟨?_, hlone⟩
      simp only [textRefusal?, Constant.textSize?] at h
      split at h
      · cases h
      · rw [maxTextSize] at *
        omega
  · exact storable_of_textRefusal? h fun bytes heq => hraw ⟨bytes, heq⟩

variable {replaced replaced' : UInt16 → Prop} {pool pool' pool'' : ConstantPool}

protected theorem Retains.trans (h : Retains replaced pool pool')
    (h' : Retains replaced' pool' pool'') :
    Retains (fun i => replaced i ∨ replaced' i) pool pool'' := by
  intro i k hk
  obtain ⟨k', hk', hwide, heq⟩ := h i k hk
  obtain ⟨k'', hk'', hwide', heq'⟩ := h' i k' hk'
  refine ⟨k'', hk'', hwide'.trans hwide, fun hnot => ?_⟩
  rw [heq' fun hi => hnot (.inr hi), heq fun hi => hnot (.inl hi)]

theorem Grows.retains {allowed : Constant → Prop} (h : Grows allowed pool pool') :
    Retains replaced pool pool' :=
  fun i k hk => ⟨k, h.kept i k hk, rfl, fun _ => rfl⟩

/-- The pool after an operation is as good as the one before it and has everything of that one but
for an entry that the operation replaces. -/
structure Follows (replaced : UInt16 → Prop) (pool pool' : ConstantPool) : Prop where
  valid : pool'.Valid
  size_le : pool'.size ≤ maxSize
  retains : Retains replaced pool pool'

theorem Grows.follows {allowed : Constant → Prop} (h : Grows allowed pool pool')
    (hsize : pool.size ≤ maxSize) : Follows replaced pool pool' :=
  ⟨h.valid, h.le_maxSize hsize, h.retains⟩

theorem Follows.refl (h : pool.Valid) (hsize : pool.size ≤ maxSize) :
    Follows replaced pool pool :=
  ⟨h, hsize, fun _ k hk => ⟨k, hk, rfl, fun _ => rfl⟩⟩

theorem follows_append {k : Constant} (h : pool.Valid) (hk : k.Genuine)
    (hrefusal : textRefusal? k = none) (hsize : pool.size + k.width ≤ maxSize) :
    Follows replaced pool (pool.append k) := by
  have hgrows : pool.Grows (fun _ => True) (pool.append k) :=
    h.grows_append (storable_of_genuine hk hrefusal) hsize trivial
  exact hgrows.follows ((Nat.le_add_right _ _).trans hsize)

theorem follows_push {k : Constant} (h : pool.Valid) (hsize : pool.size ≤ maxSize)
    (hk : k.Genuine) : Follows replaced pool (PoolEdit.push k pool).2 := by
  rcases hpush : PoolEdit.push k pool with ⟨outcome, pool'⟩
  rcases PoolEdit.push_cases hpush with ⟨_, -, rfl⟩ | ⟨-, rfl, hrefusal, hfits⟩
  · exact .refl h hsize
  · exact follows_append h hk hrefusal hfits

theorem follows_put {k : Constant} (h : pool.Valid) (hsize : pool.size ≤ maxSize)
    (hk : k.Genuine) : Follows replaced pool (PoolEdit.put k pool).2 := by
  rcases hput : PoolEdit.put k pool with ⟨outcome, pool'⟩
  rcases PoolEdit.put_cases hput with ⟨_, -, rfl⟩ | ⟨_, -, rfl, -⟩ | ⟨-, rfl, hrefusal, hfits⟩
  · exact .refl h hsize
  · exact .refl h hsize
  · exact follows_append h hk hrefusal hfits

theorem follows_set {i : UInt16} {k : Constant} (h : pool.Valid) (hsize : pool.size ≤ maxSize)
    (hk : k.Genuine) : Follows (· = i) pool (PoolEdit.set i k pool).2 := by
  rcases hset : PoolEdit.set i k pool with ⟨_ | _, pool'⟩
  · obtain rfl := PoolEdit.set_error hset
    exact .refl h hsize
  · obtain ⟨rfl, hrefusal, current, hi, hwide⟩ := PoolEdit.set_ok hset
    refine ⟨h.replace hi hwide (storable_of_genuine hk hrefusal), ?_, fun j l hl => ?_⟩
    · rw [size_replace]
      exact hsize
    · by_cases hji : j = i
      · subst hji
        obtain rfl := Option.some.inj (hi.symm.trans hl)
        exact ⟨k, entry?_replace_self hi, hwide.symm, fun hne => absurd rfl hne⟩
      · exact ⟨l, (entry?_replace_of_ne k hji).trans hl, rfl, fun _ => rfl⟩

/-- An edit that only adds entries. -/
theorem follows_of_adds {x : PoolEdit UInt16} {post : ConstantPool → UInt16 → Prop}
    (hx : PoolEdit.Adds (fun _ => True) pool x post) (h : pool.Valid)
    (hsize : pool.size ≤ maxSize) : Follows replaced pool (x pool).2 :=
  (hx h _ _ rfl).1.follows hsize

/-- One operation. -/
theorem follows_apply {s : PoolStep} (h : pool.Valid) (hsize : pool.size ≤ maxSize)
    (hs : s.Genuine) : Follows (ReplacedBy [s]) pool (s.apply pool) := by
  cases s with
  | push k => exact follows_push h hsize hs
  | put k => exact follows_put h hsize hs
  | set i k =>
    have hset := follows_set (i := i) h hsize hs
    refine ⟨hset.valid, hset.size_le, fun j l hl => ?_⟩
    obtain ⟨l', hl', hwide, heq⟩ := hset.retains j l hl
    exact ⟨l', hl', hwide, fun hnot => heq fun hji => hnot ⟨k, by simp [hji]⟩⟩
  | putText s => exact follows_of_adds (PoolEdit.putText_adds trivial) h hsize
  | putClass name => exact follows_of_adds (PoolEdit.putClass_adds trivial fun _ => trivial) h hsize
  | putNameAndType name descriptor =>
    exact follows_of_adds (PoolEdit.putNameAndType_adds trivial trivial fun _ _ => trivial) h hsize

/-! ## A history -/

/-- Any number of operations. -/
theorem follows_after {steps : List PoolStep} (h : pool.Valid) (hsize : pool.size ≤ maxSize)
    (hsteps : ∀ s ∈ steps, s.Genuine) : Follows (ReplacedBy steps) pool (pool.after steps) := by
  induction steps generalizing pool with
  | nil => exact .refl h hsize
  | cons s rest ih =>
    have hfirst := follows_apply h hsize (hsteps s (by simp))
    have hrest := ih hfirst.valid hfirst.size_le fun t ht => hsteps t (by simp [ht])
    refine ⟨hrest.valid, hrest.size_le, fun i k hk => ?_⟩
    obtain ⟨k', hk', hwide, heq⟩ := hfirst.retains.trans hrest.retains i k hk
    refine ⟨k', hk', hwide, fun hnot => heq ?_⟩
    rintro (⟨j, hj⟩ | ⟨j, hj⟩)
    · exact hnot ⟨j, by simp [List.mem_singleton.1 hj]⟩
    · exact hnot ⟨j, List.mem_cons_of_mem _ hj⟩

/-- Whether the directory is stale or not, the operations answer for what they do. -/
theorem answers (pool : ConstantPool) : pool.Answers := by
  constructor
  · intro k i pool' h
    rcases PoolEdit.put_cases h with ⟨_, he, -⟩ | ⟨_, hi, rfl, hk⟩ | ⟨hi, rfl, -, hsize⟩
    · cases he
    · obtain rfl := Except.ok.inj hi
      exact hk
    · obtain rfl := Except.ok.inj hi
      exact entry?_append_size hsize
  · intro k i pool' h
    rcases PoolEdit.push_cases h with ⟨_, he, -⟩ | ⟨hi, rfl, -, hsize⟩
    · cases he
    · obtain rfl := Except.ok.inj hi
      exact entry?_append_size hsize
  · intro i k pool' h
    obtain ⟨rfl, -, _, hi, -⟩ := PoolEdit.set_ok h
    exact entry?_replace_self hi
  · intro k e pool' h
    rcases PoolEdit.put_cases h with ⟨_, -, hpool⟩ | ⟨_, hi, -⟩ | ⟨hi, -⟩
    · exact hpool
    · cases hi
    · cases hi
  · intro k e pool' h
    rcases PoolEdit.push_cases h with ⟨_, -, hpool⟩ | ⟨hi, -⟩
    · exact hpool
    · cases hi
  · intro i k e pool' h
    exact PoolEdit.set_error h

/-- However a pool came about, it is in shape, its operations answer for what they do, and whatever
it holds is kept by every further operation but one that replaces it. -/
theorem history_kept {start : ConstantPool} (hstart : start.Started) {steps : List PoolStep}
    (hsteps : ∀ s ∈ steps, s.Genuine) :
    (start.after steps).InShape ∧ (start.after steps).Answers ∧
      ∀ more : List PoolStep, (∀ s ∈ more, s.Genuine) →
        Retains (ReplacedBy more) (start.after steps) ((start.after steps).after more) := by
  obtain ⟨hvalid, hsize⟩ := hstart.valid
  have hafter := follows_after hvalid hsize hsteps
  refine ⟨hafter.valid.inShape hafter.size_le, answers _, fun more hmore => ?_⟩
  exact (follows_after hafter.valid hafter.size_le hmore).retains

/-- A text, an unpaired surrogate and a wide entry. -/
def mixedEntries : List Constant :=
  [.utf8 "a", .rawUtf8 [0xed, 0xa0, 0x80], .long 1]

/-- Replacements after which the directory leads to slots that hold something else, with entries put
and pushed behind them. The last one fails: slot four is the second one of a wide entry. -/
def staleSteps : List PoolStep :=
  [.set 1 (.utf8 "b"), .set 3 (.double 0), .put (.utf8 "a"), .push (.long 1),
    .put (.rawUtf8 [0xed, 0xa0, 0x80]), .putClass "b", .set 4 (.integer 0)]

theorem history_kept_stale :
    (ofEntries mixedEntries).Started ∧
      ((ofEntries mixedEntries).after staleSteps).slots = #[none, some (.utf8 "b"),
        some (.rawUtf8 [0xed, 0xa0, 0x80]), some (.double 0), none, some (.utf8 "a"),
        some (.long 1), none, some (.classEntry 1)] ∧
      ((ofEntries mixedEntries).after staleSteps).InShape := by
  have hstart : (ofEntries mixedEntries).Started :=
    .read (c := ⟨0, (ofEntries mixedEntries).encode⟩) (d := ⟨21, []⟩) rfl
  have hsteps : ∀ s ∈ staleSteps, s.Genuine := by
    simp only [staleSteps, List.forall_mem_cons]
    refine ⟨?_, ?_, ?_, ?_, ?_, trivial, ?_, by simp⟩
    case refine_5 =>
      rintro _ ⟨⟩
      exact ⟨0, rfl⟩
    all_goals rintro _ ⟨⟩
  exact ⟨hstart, rfl, (history_kept hstart hsteps).1⟩

end ConstantPool

end JarRemap
