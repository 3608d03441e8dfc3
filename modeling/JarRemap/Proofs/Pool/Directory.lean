import JarRemap.Proofs.Pool.History
import Mathlib.Logic.Relation

/-!
# Finding equal entries

Putting an entry gives the slot of an equal one if the directory leads to one, and appends the entry
otherwise (`ConstantPool.put_leaves_iff`). The directory may be stale: it knows one slot for each
entry, and nothing is taken out of it when that slot gets another entry. Then an equal entry in a
second slot is not found, and the pool gets a third one.

An entry is found as long as it was never replaced where it stood (`ConstantPool.Spares`): up to
then the directory leads to it from the first time that it is read, appended or set
(`ConstantPool.Tracks`), whatever else happens to the pool (`ConstantPool.put_finds_after`).
-/

namespace JarRemap

open Relation (ReflTransGen)

theorem Constant.compare_code_eq_iff {k l : Constant} : compare l.code k.code = .eq ↔ l = k :=
  Std.compare_eq_iff_eq.trans code_inj

namespace ConstantPool

variable {pool pool' : ConstantPool} {k l : Constant} {i : UInt16}

/-- The directory leads to an equal entry if the pool has one, and never to anything else. -/
structure Tracks (pool : ConstantPool) (k : Constant) : Prop where
  listed : ∀ i, pool.entry? i = some k → ∃ j, pool.directory[k.code]? = some j
  live : ∀ j, pool.directory[k.code]? = some j → pool.entry? j = some k

/-- After each of the operations the entry stands wherever it stood before that one. -/
def Spares (k : Constant) : ConstantPool → List PoolStep → Prop
  | _, [] => True
  | pool, s :: rest =>
    (∀ i, pool.entry? i = some k → entry? (s.apply pool) i = some k) ∧ Spares k (s.apply pool) rest

/-! ## What the directory says -/

theorem directory_append (pool : ConstantPool) (l k : Constant) :
    (pool.append l).directory[k.code]? =
      if l = k then some (UInt16.ofNat pool.size) else pool.directory[k.code]? := by
  show (pool.directory.insert l.code (UInt16.ofNat pool.size))[k.code]? = _
  simp only [Std.TreeMap.getElem?_insert, Constant.compare_code_eq_iff]

/-- A slot is listed only for an entry that has none yet. -/
theorem getElem?_insertIfNew (directory : Std.TreeMap (List Nat) UInt16) (i : UInt16)
    (l k : Constant) :
    (directory.insertIfNew l.code i)[k.code]? =
      if l = k then some (directory[k.code]?.getD i) else directory[k.code]? := by
  rw [Std.TreeMap.getElem?_insertIfNew]
  by_cases hl : l = k
  · subst hl
    rcases hlist : directory[l.code]? with _ | j
    · have hnew : l.code ∉ directory := by
        rw [← Std.TreeMap.isSome_getElem?_iff_mem, hlist]
        simp
      simp [hnew]
    · have hold : l.code ∈ directory := by
        rw [← Std.TreeMap.isSome_getElem?_iff_mem, hlist]
        rfl
      simp [hold]
  · simp [Constant.code_inj, hl]

theorem directory_addRead (pool : ConstantPool) (l k : Constant) :
    (pool.addRead l).directory[k.code]? =
      if l = k then some (pool.directory[k.code]?.getD (UInt16.ofNat pool.size))
      else pool.directory[k.code]? :=
  getElem?_insertIfNew pool.directory (UInt16.ofNat pool.size) l k

theorem directory_replace (pool : ConstantPool) (i : UInt16) (l k : Constant) :
    (pool.replace i l).directory[k.code]? =
      if l = k then some (pool.directory[k.code]?.getD i) else pool.directory[k.code]? :=
  getElem?_insertIfNew pool.directory i l k

/-! ## Putting -/

theorem find?_eq_some_iff :
    pool.find? k = some i ↔ pool.directory[k.code]? = some i ∧ pool.entry? i = some k := by
  rw [ find?, Option.filter_eq_some_iff, beq_iff_eq]

theorem append_ne_self (pool : ConstantPool) (k : Constant) : pool.append k ≠ pool := by
  intro heq
  have hsize := size_append pool k
  rw [heq] at hsize
  have := width_pos k
  omega

/-- Putting an entry leaves the pool alone, and gives a slot, exactly if the directory leads to an
equal entry: that slot is the one. -/
theorem put_leaves_iff :
    PoolEdit.put k pool = (.ok i, pool) ↔
      pool.directory[k.code]? = some i ∧ pool.entry? i = some k := by
  rw [← find?_eq_some_iff, PoolEdit.put]
  rcases hfind : pool.find? k with _ | j
  · -- What is appended makes the pool longer.
    refine ⟨fun hpush => ?_, fun h => by cases h⟩
    rcases PoolEdit.push_cases hpush with ⟨_, he, -⟩ | ⟨-, hpool, -⟩
    · cases he
    · exact absurd hpool.symm (append_ne_self pool k)
  · constructor <;> rintro ⟨⟩ <;> rfl

/-- An entry that has been put is found again. -/
theorem put_again (h : PoolEdit.put k pool = (.ok i, pool')) :
    PoolEdit.put k pool' = (.ok i, pool') := by
  rcases PoolEdit.put_cases h with ⟨_, he, -⟩ | ⟨_, -, rfl, -⟩ | ⟨hi, rfl, -, hsize⟩
  · cases he
  · exact h
  · obtain rfl := Except.ok.inj hi
    rw [put_leaves_iff, directory_append, if_pos rfl]
    exact ⟨rfl, entry?_append_size hsize⟩

/-- An entry that the directory tracks is found if the pool has it. -/
theorem Tracks.put_finds (h : pool.Tracks k) (hi : pool.entry? i = some k) :
    ∃ j, PoolEdit.put k pool = (.ok j, pool) ∧ pool.entry? j = some k := by
  obtain ⟨j, hj⟩ := h.listed i hi
  have hlive := h.live j hj
  exact ⟨j, put_leaves_iff.2 ⟨hj, hlive⟩, hlive⟩

/-! ## Keeping track -/

/-- A change of a pool that spares the entry, and after which the directory leads to where it led
before or, if another copy of the entry is added, to some copy. -/
theorem Tracks.change {x : UInt16} (h : pool.Tracks k)
    (hspared : ∀ j, pool.entry? j = some k → pool'.entry? j = some k)
    (hadded : ∀ j, pool'.entry? j = some k → pool.entry? j = some k ∨ l = k)
    (hdirectory : pool'.directory[k.code]? =
      if l = k then some x else pool.directory[k.code]?)
    (hx : l = k → pool'.entry? x = some k) : pool'.Tracks k := by
  by_cases hl : l = k
  · -- Another copy of the entry itself: the directory leads to `x`.
    rw [if_pos hl] at hdirectory
    refine ⟨fun _ _ => ⟨x, hdirectory⟩, fun j hj => ?_⟩
    obtain rfl := Option.some.inj (hdirectory.symm.trans hj)
    exact hx hl
  · rw [if_neg hl] at hdirectory
    refine ⟨fun j hj => ?_, fun j hj => hspared j (h.live j (hdirectory ▸ hj))⟩
    exact hdirectory ▸ h.listed j ((hadded j hj).resolve_right hl)

theorem entry?_append_of_some (hi : pool.entry? i = some k) (l : Constant) :
    entry? (pool.append l) i = some k := by
  rw [entry?_append, if_pos (lt_size_of_entry hi), hi]

theorem entry?_of_append (hi : entry? (pool.append l) i = some k) :
    pool.entry? i = some k ∨ l = k := by
  rw [entry?_append] at hi
  split at hi
  · exact .inl hi
  · split at hi
    · exact .inr (Option.some.inj hi)
    · cases hi

theorem Tracks.append (h : pool.Tracks k) (hsize : pool.size + l.width ≤ maxSize) :
    (pool.append l).Tracks k :=
  h.change (fun _ hj => entry?_append_of_some hj l) (fun _ => entry?_of_append)
    (directory_append pool l k) (fun hl => hl ▸ entry?_append_size hsize)

theorem Tracks.addRead (h : pool.Tracks k) (hsize : pool.size + l.width ≤ maxSize) :
    (pool.addRead l).Tracks k := by
  have hentry : ∀ j, entry? (pool.addRead l) j = entry? (pool.append l) j := fun _ => rfl
  refine h.change (fun j hj => ?_) (fun j hj => ?_) (directory_addRead pool l k) fun hl => ?_
  · exact (hentry j).trans (entry?_append_of_some hj l)
  · exact entry?_of_append ((hentry j).symm.trans hj)
  · rw [hentry]
    rcases hlist : pool.directory[k.code]? with _ | j
    · exact hl ▸ entry?_append_size hsize
    · exact entry?_append_of_some (h.live j hlist) l

theorem Tracks.replace {current : Constant} (h : pool.Tracks k) (hi : pool.entry? i = some current)
    (hspared : ∀ j, pool.entry? j = some k → entry? (pool.replace i l) j = some k) :
    (pool.replace i l).Tracks k := by
  refine h.change hspared (fun j hj => ?_) (directory_replace pool i l k) fun hl => ?_
  · by_cases hji : j = i
    · subst hji
      exact .inr (Option.some.inj ((entry?_replace_self hi).symm.trans hj))
    · exact .inl ((entry?_replace_of_ne l hji).symm.trans hj)
  · rcases hlist : pool.directory[k.code]? with _ | j
    · exact hl ▸ entry?_replace_self hi
    · exact hspared j (h.live j hlist)

/-! ## One operation -/

/-- The pool gets one entry more. -/
def GetsEntry (pool pool' : ConstantPool) : Prop :=
  ∃ l, pool.size + l.width ≤ maxSize ∧ pool' = pool.append l

theorem getsEntries_push (k : Constant) (pool : ConstantPool) :
    ReflTransGen GetsEntry pool (PoolEdit.push k pool).2 := by
  rcases hpush : PoolEdit.push k pool with ⟨outcome, pool'⟩
  rcases PoolEdit.push_cases hpush with ⟨_, -, rfl⟩ | ⟨-, rfl, -, hsize⟩
  · exact .refl
  · exact .single ⟨k, hsize, rfl⟩

theorem getsEntries_put (k : Constant) (pool : ConstantPool) :
    ReflTransGen GetsEntry pool (PoolEdit.put k pool).2 := by
  rcases hput : PoolEdit.put k pool with ⟨outcome, pool'⟩
  rcases PoolEdit.put_cases hput with ⟨_, -, rfl⟩ | ⟨_, -, rfl, -⟩ | ⟨-, rfl, -, hsize⟩
  · exact .refl
  · exact .refl
  · exact .single ⟨k, hsize, rfl⟩

theorem getsEntries_bind {α β : Type} {x : PoolEdit α} {f : α → PoolEdit β}
    (hx : ReflTransGen GetsEntry pool (x pool).2)
    (hf : ∀ a pool', ReflTransGen GetsEntry pool' (f a pool').2) :
    ReflTransGen GetsEntry pool ((x >>= f) pool).2 := by
  rw [bind_stateful]
  rcases hxp : x pool with ⟨e | a, pool'⟩
  · rwa [hxp] at hx
  · rw [hxp] at hx
    exact hx.trans (hf a pool')

/-- An operation adds entries, or it replaces one. -/
theorem apply_cases (s : PoolStep) (pool : ConstantPool) :
    ReflTransGen GetsEntry pool (s.apply pool) ∨
      ∃ i l current, s = .set i l ∧ pool.entry? i = some current ∧
        s.apply pool = pool.replace i l := by
  cases s with
  | push k => exact .inl (getsEntries_push k pool)
  | put k => exact .inl (getsEntries_put k pool)
  | set i l =>
    rcases hset : PoolEdit.set i l pool with ⟨_ | _, pool'⟩
    · obtain rfl := PoolEdit.set_error hset
      rw [PoolStep.apply, hset]
      exact .inl .refl
    · obtain ⟨rfl, -, current, hi, -⟩ := PoolEdit.set_ok hset
      refine .inr ⟨i, l, current, rfl, hi, ?_⟩
      rw [PoolStep.apply, hset]
  | putText s => exact .inl (getsEntries_put _ pool)
  | putClass name =>
    exact .inl (getsEntries_bind (getsEntries_put _ pool) fun _ => getsEntries_put _)
  | putNameAndType name descriptor =>
    refine .inl (getsEntries_bind (getsEntries_put _ pool) fun _ pool' => ?_)
    exact getsEntries_bind (getsEntries_put _ pool') fun _ => getsEntries_put _

theorem entry?_of_getsEntries (h : ReflTransGen GetsEntry pool pool')
    (hi : pool.entry? i = some k) : pool'.entry? i = some k := by
  induction h with
  | refl => exact hi
  | tail _ hlast ih =>
    obtain ⟨l, -, rfl⟩ := hlast
    exact entry?_append_of_some ih l

theorem Tracks.getsEntries (h : pool.Tracks k) (hgets : ReflTransGen GetsEntry pool pool') :
    pool'.Tracks k := by
  induction hgets with
  | refl => exact h
  | tail _ hlast ih =>
    obtain ⟨l, hsize, rfl⟩ := hlast
    exact ih.append hsize

theorem Tracks.apply {s : PoolStep} (h : pool.Tracks k)
    (hspared : ∀ i, pool.entry? i = some k → entry? (s.apply pool) i = some k) :
    (s.apply pool).Tracks k := by
  rcases apply_cases s pool with hgets | ⟨i, l, current, -, hi, happly⟩
  · exact h.getsEntries hgets
  · rw [happly] at hspared ⊢
    exact h.replace hi hspared

/-! ## A history -/

theorem tracks_empty (k : Constant) : empty.Tracks k := by
  refine ⟨fun i hi => ?_, fun j hj => ?_⟩
  · have hlt := lt_size_of_entry hi
    have hsize : empty.size = 1 := rfl
    obtain hzero : i.toNat = 0 := by omega
    rw [ entry?, hzero] at hi
    cases hi
  · rw [empty, Std.TreeMap.getElem?_emptyc] at hj
    cases hj

theorem Tracks.readEntries {entries : List Constant} (h : pool.Tracks k)
    (hsize : pool.size + widths entries ≤ maxSize) :
    (entries.foldl ConstantPool.addRead pool).Tracks k := by
  induction entries generalizing pool with
  | nil => exact h
  | cons l rest ih =>
    rw [widths_cons] at hsize
    have hgrown : (pool.addRead l).size = pool.size + l.width := size_append pool l
    exact ih (h.addRead (by omega)) (by omega)

theorem Started.tracks {start : ConstantPool} (h : start.Started) (k : Constant) :
    start.Tracks k := by
  cases h with
  | empty => exact tracks_empty k
  | read h =>
    obtain ⟨_, entries, _, -, -, rfl, hsize, -⟩ := read_ok_iff.1 h
    rw [(holds_ofEntries entries).size_eq] at hsize
    exact (tracks_empty k).readEntries hsize

theorem Tracks.after {steps : List PoolStep} (h : pool.Tracks k) (hspares : Spares k pool steps) :
    (pool.after steps).Tracks k := by
  induction steps generalizing pool with
  | nil => exact h
  | cons s rest ih => exact ih (h.apply hspares.1) hspares.2

/-- After operations that spare an entry, putting it finds an equal entry wherever there is one, and
leaves the pool alone. -/
theorem put_finds_after {start : ConstantPool} (hstart : start.Started) {steps : List PoolStep}
    (hspares : Spares k start steps) (hi : entry? (start.after steps) i = some k) :
    ∃ j, PoolEdit.put k (start.after steps) = (.ok j, start.after steps) ∧
      entry? (start.after steps) j = some k :=
  ((hstart.tracks k).after hspares).put_finds hi

/-- Operations that replace nothing spare every entry. -/
theorem spares_of_no_set {steps : List PoolStep} (h : ∀ i l, PoolStep.set i l ∉ steps) :
    Spares k pool steps := by
  induction steps generalizing pool with
  | nil => trivial
  | cons s rest ih =>
    refine ⟨fun i hi => ?_, ih fun i l hmem => h i l (List.mem_cons_of_mem s hmem)⟩
    rcases apply_cases s pool with hgets | ⟨j, l, -, rfl, -⟩
    · exact entry?_of_getsEntries hgets hi
    · exact absurd List.mem_cons_self (h j l)

/-- Of two equal entries the directory leads to the second one. Once that is replaced, the first one
is not found. -/
example :
    let pool := empty.after [.push (.integer 1), .push (.integer 1), .set 2 (.integer 2)]
    pool.entry? 1 = some (.integer 1) ∧
      (PoolEdit.put (.integer 1) pool).1 = .ok 3 ∧
      entry? (PoolEdit.put (.integer 1) pool).2 3 = some (.integer 1) := by
  decide +kernel

end ConstantPool

end JarRemap
