import JarRemap.ClassFile.Reader
import JarRemap.Proofs.Codec.Bytes
import JarRemap.Proofs.Stateful

/-!
# What a reader accepts

A reader that succeeds has gone past some bytes. `Reader.Exact r write fits` says that `r` gives `a`
exactly when `a` fits the format and the bytes that it goes past are `write a`, whatever follows
them. As this is an equivalence, it says at once that reading takes back what writing gives and that
nothing else is accepted.

Readers are composed with `bind` and with rows; `bind_ok_iff` and `Exact.rows16` do the same for
what they accept.
-/

namespace JarRemap

/-- The cursor `d` stands behind the bytes `used`, which begin at the cursor `c`. -/
structure Cursor.Past (c : Cursor) (used : Bytes) (d : Cursor) : Prop where
  rest_eq : c.rest = used ++ d.rest
  position_eq : d.position = c.position + used.length

namespace Cursor

theorem past_nil_iff {c d : Cursor} : c.Past [] d ↔ c = d := by
  cases c
  cases d
  constructor
  · rintro ⟨hrest, hposition⟩
    simp_all
  · rintro ⟨⟩
    exact ⟨rfl, rfl⟩

theorem past_append_iff {c d : Cursor} {x y : Bytes} :
    c.Past (x ++ y) d ↔ ∃ m, c.Past x m ∧ m.Past y d := by
  constructor
  · rintro ⟨hrest, hposition⟩
    refine ⟨⟨c.position + x.length, y ++ d.rest⟩, ⟨by simpa using hrest, rfl⟩, rfl, ?_⟩
    rw [hposition, List.length_append, Nat.add_assoc]
  · rintro ⟨m, ⟨hrest, hposition⟩, hrest', hposition'⟩
    refine ⟨by rw [hrest, hrest', List.append_assoc], ?_⟩
    rw [hposition', hposition, List.length_append, Nat.add_assoc]

theorem past_cons_iff {c d : Cursor} {b : UInt8} {y : Bytes} :
    c.Past (b :: y) d ↔ ∃ m, c.Past [b] m ∧ m.Past y d :=
  past_append_iff (x := [b])

/-- From the beginning of some bytes to the end of them. -/
theorem past_all_iff {x used : Bytes} {d : Cursor} :
    (⟨0, x⟩ : Cursor).Past used d ∧ d.rest = [] ↔ x = used ∧ d = ⟨used.length, []⟩ := by
  constructor
  · rintro ⟨⟨hrest, hposition⟩, hend⟩
    obtain ⟨position, rest⟩ := d
    simp_all
  · rintro ⟨rfl, rfl⟩
    exact ⟨⟨by simp, by simp⟩, rfl⟩

end Cursor

namespace Reader

variable {α β γ : Type}

/-! ## Runs -/

theorem bind_ok_iff {r : Reader α} {f : α → Reader β} {b : β} {c d : Cursor} :
    (r >>= f) c = (.ok b, d) ↔ ∃ a m, r c = (.ok a, m) ∧ f a m = (.ok b, d) :=
  bind_stateful_ok_iff

theorem pure_ok_iff {a b : α} {c d : Cursor} :
    (pure a : Reader α) c = (.ok b, d) ↔ a = b ∧ c = d := by
  show ((.ok a, c) : Except ClassError α × Cursor) = (.ok b, d) ↔ _
  simp

theorem throw_not_ok {e : ClassError} {b : β} {c d : Cursor} :
    (throw e : Reader β) c ≠ (.ok b, d) := by
  rintro ⟨⟩

/-- A reader behind a check. -/
theorem check_ok_iff {p : Prop} [Decidable p] {e : ClassError} {next : α → Reader β} {r : Reader β}
    {b : β} {c d : Cursor} :
    (if p then throw e >>= next else r) c = (.ok b, d) ↔ ¬ p ∧ r c = (.ok b, d) :=
  check_stateful_ok_iff

/-- An outcome that reads nothing. -/
theorem lift_ok_iff {x : Except ClassError α} {a : α} {c d : Cursor} :
    (liftM x : Reader α) c = (.ok a, d) ↔ x = .ok a ∧ c = d := by
  show ((x, c) : Except ClassError α × Cursor) = (.ok a, d) ↔ _
  simp

/-! ## Exact readers -/

/-- `r` goes past what `write` writes of the values that fit, and past nothing else. -/
def Exact (r : Reader α) (write : α → Bytes) (fits : α → Prop) : Prop :=
  ∀ a c d, r c = (.ok a, d) ↔ fits a ∧ c.Past (write a) d

theorem Exact.congr {r : Reader α} {write write' : α → Bytes} {fits fits' : α → Prop}
    (h : r.Exact write fits) (hwrite : ∀ a, write' a = write a) (hfits : ∀ a, fits' a ↔ fits a) :
    r.Exact write' fits' := by
  intro a c d
  rw [h a c d, hwrite, hfits]

/-! ## Fields -/

/-- The reader takes `n` bytes and tells what they spell. Where fewer are left, it stays where it
is. -/
def Takes (r : Reader α) (n : ℕ) (spell : Bytes → α) : Prop :=
  ∀ c : Cursor, r c =
    if c.rest.length < n then (.error (.truncated c.position), c)
    else (.ok (spell (c.rest.take n)), ⟨c.position + n, c.rest.drop n⟩)

theorem u8_takes : u8.Takes 1 fun x => x.headD 0 := by
  rintro ⟨position, _ | ⟨a, rest⟩⟩ <;> simp [u8]

theorem u16_takes : u16.Takes 2 fun x => Bytes.toUInt16 (x.getD 0 0) (x.getD 1 0) := by
  rintro ⟨position, _ | ⟨a, _ | ⟨b, rest⟩⟩⟩ <;> simp [u16]

theorem u32_takes : u32.Takes 4
    fun x => Bytes.toUInt32 (x.getD 0 0) (x.getD 1 0) (x.getD 2 0) (x.getD 3 0) := by
  rintro ⟨position, _ | ⟨a, _ | ⟨b, _ | ⟨c, _ | ⟨d, rest⟩⟩⟩⟩⟩ <;> simp [u32]

theorem bytes_takes (n : ℕ) : (bytes n).Takes n id := by
  intro c
  have hrun : bytes n c =
      if (c.rest.take n).length < n then (.error (.truncated c.position), c)
      else (.ok (c.rest.take n), ⟨c.position + n, c.rest.drop n⟩) := rfl
  have hshort : (c.rest.take n).length < n ↔ c.rest.length < n := by
    rw [List.length_take]
    omega
  rw [hrun]
  simp only [hshort]
  rfl

/-- A reader that takes a fixed number of bytes is exact, if they spell what it gives. -/
theorem Takes.exact {r : Reader α} {write : α → Bytes} {n : ℕ} {spell : Bytes → α}
    (h : r.Takes n spell) {fits : α → Prop} (hlength : ∀ a, fits a ↔ (write a).length = n)
    (hspell : ∀ a, fits a → spell (write a) = a)
    (hwrite : ∀ x : Bytes, x.length = n → write (spell x) = x) : r.Exact write fits := by
  intro a c d
  rw [h]
  by_cases hlt : c.rest.length < n
  · rw [if_pos hlt]
    refine ⟨fun h => ?_, fun ⟨hfits, hpast⟩ => ?_⟩
    · cases h
    · have := congrArg List.length hpast.rest_eq
      simp only [List.length_append, (hlength a).1 hfits] at this
      omega
  · rw [if_neg hlt]
    constructor
    · rintro ⟨⟩
      have htaken : (c.rest.take n).length = n := by rw [List.length_take]; omega
      have hwritten := hwrite _ htaken
      rw [hlength, hwritten]
      exact ⟨htaken, (List.take_append_drop n c.rest).symm, by rw [htaken]⟩
    · rintro ⟨hfits, hrest, hposition⟩
      have hwidth := (hlength a).1 hfits
      have htake : c.rest.take n = write a := by
        rw [hrest, List.take_left' hwidth]
      have hdrop : c.rest.drop n = d.rest := by
        rw [hrest, List.drop_left' hwidth]
      rw [htake, hspell a hfits, hdrop, ← hwidth, ← hposition]

theorem u8_exact : u8.Exact (fun b => [b]) fun _ => True := by
  refine u8_takes.exact (fun _ => iff_of_true trivial rfl) (fun _ _ => rfl) ?_
  rintro (_ | ⟨a, _ | _⟩) hx <;> simp_all

theorem u16_exact : u16.Exact Bytes.ofUInt16 fun _ => True := by
  refine u16_takes.exact (fun a => iff_of_true trivial (Bytes.length_ofUInt16 a))
    (fun a _ => Bytes.toUInt16_ofUInt16 a) ?_
  rintro (_ | ⟨a, _ | ⟨b, _ | _⟩⟩) hx <;> simp_all

theorem u32_exact : u32.Exact Bytes.ofUInt32 fun _ => True := by
  refine u32_takes.exact (fun a => iff_of_true trivial (Bytes.length_ofUInt32 a))
    (fun a _ => Bytes.toUInt32_ofUInt32 a) ?_
  rintro (_ | ⟨a, _ | ⟨b, _ | ⟨c, _ | ⟨d, _ | _⟩⟩⟩⟩) hx <;> simp_all

theorem u64_exact : u64.Exact Bytes.ofUInt64 fun _ => True := by
  intro n c d
  simp only [u64, bind_ok_iff, pure_ok_iff, u32_exact _ _ _, true_and]
  constructor
  · rintro ⟨high, m, hhigh, low, _, hlow, rfl, rfl⟩
    rw [Bytes.ofUInt64_toUInt64]
    exact Cursor.past_append_iff.2 ⟨m, hhigh, hlow⟩
  · intro hpast
    obtain ⟨m, hhigh, hlow⟩ := Cursor.past_append_iff.1 hpast
    exact ⟨_, m, hhigh, _, d, hlow, Bytes.toUInt64_halves n, rfl⟩

theorem bytes_exact (n : ℕ) : (bytes n).Exact id fun x => x.length = n :=
  (bytes_takes n).exact (fun _ => Iff.rfl) (fun _ _ => rfl) fun _ _ => rfl

/-! ## Records of fields -/

theorem field_ok_iff {r : Reader α} {write : α → Bytes} {fits : α → Prop} (h : r.Exact write fits)
    {f : α → β} {b : β} {c d : Cursor} :
    (do return f (← r) : Reader β) c = (.ok b, d) ↔
      ∃ a, fits a ∧ c.Past (write a) d ∧ f a = b := by
  simp only [bind_ok_iff, pure_ok_iff, h _ _ _]
  constructor
  · rintro ⟨a, m, ⟨hfits, hpast⟩, rfl, rfl⟩
    exact ⟨a, hfits, hpast, rfl⟩
  · rintro ⟨a, hfits, hpast, rfl⟩
    exact ⟨a, d, ⟨hfits, hpast⟩, rfl, rfl⟩

theorem fields_ok_iff {r : Reader α} {s : Reader β} {write : α → Bytes} {write' : β → Bytes}
    {fits : α → Prop} {fits' : β → Prop} (h : r.Exact write fits) (h' : s.Exact write' fits')
    {f : α → β → γ} {b : γ} {c d : Cursor} :
    (do return f (← r) (← s) : Reader γ) c = (.ok b, d) ↔
      ∃ a a', fits a ∧ fits' a' ∧ c.Past (write a ++ write' a') d ∧ f a a' = b := by
  simp only [bind_ok_iff, pure_ok_iff, h _ _ _, h' _ _ _, Cursor.past_append_iff]
  constructor
  · rintro ⟨a, m, ⟨hfits, hpast⟩, a', _, ⟨hfits', hpast'⟩, rfl, rfl⟩
    exact ⟨a, a', hfits, hfits', ⟨m, hpast, hpast'⟩, rfl⟩
  · rintro ⟨a, a', hfits, hfits', ⟨m, hpast, hpast'⟩, rfl⟩
    exact ⟨a, m, ⟨hfits, hpast⟩, a', d, ⟨hfits', hpast'⟩, rfl, rfl⟩

/-! ## Rows -/

theorem rowsAfter_ok_iff {row : Reader α} {write : α → Bytes} {fits : α → Prop}
    (h : row.Exact write fits) {n : ℕ} {done rows : List α} {c d : Cursor} :
    rowsAfter row n done c = (.ok rows, d) ↔
      ∃ more, rows = done.reverse ++ more ∧ more.length = n ∧ (∀ a ∈ more, fits a) ∧
        c.Past (more.flatMap write) d := by
  -- The rows that are read first are collected in `done`, so the induction is over any such.
  induction n generalizing done c with
  | zero =>
    rw [rowsAfter, pure_ok_iff]
    constructor
    · rintro ⟨rfl, rfl⟩
      exact ⟨[], by simp, rfl, by simp, Cursor.past_nil_iff.2 rfl⟩
    · rintro ⟨more, rfl, hlength, -, hpast⟩
      obtain rfl := List.length_eq_zero_iff.1 hlength
      exact ⟨by simp, Cursor.past_nil_iff.1 hpast⟩
  | succ n ih =>
    simp only [rowsAfter, bind_ok_iff, h _ _ _, ih]
    constructor
    · rintro ⟨a, m, ⟨ha, hpast⟩, more, rfl, rfl, hmore, hpast'⟩
      refine ⟨a :: more, by simp, rfl, ?_, ?_⟩
      · rintro x (_ | ⟨_, hx⟩)
        · exact ha
        · exact hmore x hx
      · rw [List.flatMap_cons]
        exact Cursor.past_append_iff.2 ⟨m, hpast, hpast'⟩
    · rintro ⟨more, rfl, hlength, hmore, hpast⟩
      obtain ⟨a, more, rfl⟩ := List.exists_cons_of_length_eq_add_one hlength
      rw [List.flatMap_cons] at hpast
      obtain ⟨m, hpast, hpast'⟩ := Cursor.past_append_iff.1 hpast
      exact ⟨a, m, ⟨hmore a (by simp), hpast⟩, more, by simp, by simpa using hlength,
        fun x hx => hmore x (by simp [hx]), hpast'⟩

theorem rows_ok_iff {row : Reader α} {write : α → Bytes} {fits : α → Prop}
    (h : row.Exact write fits) {n : ℕ} {rows : List α} {c d : Cursor} :
    Reader.rows n row c = (.ok rows, d) ↔
      rows.length = n ∧ (∀ a ∈ rows, fits a) ∧ c.Past (rows.flatMap write) d := by
  rw [Reader.rows, rowsAfter_ok_iff h]
  simp

theorem Exact.rows16 {row : Reader α} {write : α → Bytes} {fits : α → Prop}
    (h : row.Exact write fits) :
    (Reader.rows16 row).Exact (fun rows => Bytes.count16 rows ++ rows.flatMap write)
      fun rows => rows.length < 65536 ∧ ∀ a ∈ rows, fits a := by
  intro rows c d
  simp only [Reader.rows16, bind_ok_iff, u16_exact _ _ _, rows_ok_iff h, true_and,
    Cursor.past_append_iff]
  constructor
  · rintro ⟨count, m, hcount, hlength, hfits, hpast⟩
    have hlt : rows.length < 65536 := hlength ▸ count.toNat_lt
    obtain rfl := (Bytes.ofNat16_eq_iff hlt count).2 hlength.symm
    exact ⟨⟨hlt, hfits⟩, m, hcount, hpast⟩
  · rintro ⟨⟨hlt, hfits⟩, m, hcount, hpast⟩
    exact ⟨_, m, hcount, (Bytes.toNat_ofNat16 hlt).symm, hfits, hpast⟩

theorem Exact.rows8 {row : Reader α} {write : α → Bytes} {fits : α → Prop}
    (h : row.Exact write fits) :
    (Reader.rows8 row).Exact (fun rows => Bytes.count8 rows ++ rows.flatMap write)
      fun rows => rows.length < 256 ∧ ∀ a ∈ rows, fits a := by
  intro rows c d
  simp only [Reader.rows8, bind_ok_iff, u8_exact _ _ _, rows_ok_iff h, true_and,
    Cursor.past_append_iff]
  constructor
  · rintro ⟨count, m, hcount, hlength, hfits, hpast⟩
    have hlt : rows.length < 256 := hlength ▸ count.toNat_lt
    obtain rfl : count = UInt8.ofNat rows.length := by
      rw [← UInt8.toNat_inj, Bytes.toNat_ofNat8 hlt, hlength]
    exact ⟨⟨hlt, hfits⟩, m, hcount, hpast⟩
  · rintro ⟨⟨hlt, hfits⟩, m, hcount, hpast⟩
    exact ⟨_, m, hcount, (Bytes.toNat_ofNat8 hlt).symm, hfits, hpast⟩

/-- A 32-bit count and as many bytes. -/
theorem count32_bytes_ok_iff {f : Bytes → Reader β} {b : β} {c d : Cursor} :
    (do let length ← u32; let x ← Reader.bytes length.toNat; f x : Reader β) c = (.ok b, d) ↔
      ∃ (x : Bytes) (m : Cursor), x.length < 4294967296 ∧ c.Past (Bytes.count32 x ++ x) m ∧
        f x m = (.ok b, d) := by
  simp only [bind_ok_iff, u32_exact _ _ _, bytes_exact _ _ _ _, true_and, id_eq,
    Cursor.past_append_iff]
  constructor
  · rintro ⟨count, m, hcount, x, m', ⟨hlength, hpast⟩, hf⟩
    have hlt : x.length < 4294967296 := hlength ▸ count.toNat_lt
    obtain rfl : count = UInt32.ofNat x.length := by
      rw [← UInt32.toNat_inj, Bytes.toNat_ofNat32 hlt, hlength]
    exact ⟨x, m', hlt, ⟨m, hcount, hpast⟩, hf⟩
  · rintro ⟨x, m', hlt, ⟨m, hcount, hpast⟩, hf⟩
    exact ⟨_, m, hcount, x, m', ⟨(Bytes.toNat_ofNat32 hlt).symm, hpast⟩, hf⟩

/-! ## Whole byte strings -/

/-- A reader that takes all of some bytes. -/
theorem Exact.runOn_ok_iff {r : Reader α} {write : α → Bytes} {fits : α → Prop}
    (h : r.Exact write fits) {a : α} {x : Bytes} :
    (∃ d, r.runOn x = (.ok a, d) ∧ d.rest = []) ↔ fits a ∧ x = write a := by
  constructor
  · rintro ⟨d, hrun, hend⟩
    obtain ⟨hfits, hpast⟩ := (h a ⟨0, x⟩ d).1 hrun
    exact ⟨hfits, (Cursor.past_all_iff.1 ⟨hpast, hend⟩).1⟩
  · rintro ⟨hfits, rfl⟩
    obtain ⟨hpast, hend⟩ := Cursor.past_all_iff.2 (⟨rfl, rfl⟩ : write a = write a ∧ _)
    exact ⟨_, (h a _ _).2 ⟨hfits, hpast⟩, hend⟩

/-! ## Readers that never stop -/

/-- The reader never comes to a sum of slot numbers that does not fit. -/
def Stopless (r : Reader α) : Prop :=
  ∀ c d, r c ≠ (.error .poolOverflow, d)

theorem Takes.stopless {r : Reader α} {n : ℕ} {spell : Bytes → α} (h : r.Takes n spell) :
    r.Stopless := by
  intro c d hrun
  rw [h c] at hrun
  split at hrun <;> cases hrun

/-- Behind a reader that never stops, only what follows can. -/
theorem Stopless.bind_stops_iff {r : Reader α} {f : α → Reader β} {c d : Cursor}
    (hr : r.Stopless) :
    (r >>= f) c = (.error .poolOverflow, d) ↔
      ∃ a m, r c = (.ok a, m) ∧ f a m = (.error .poolOverflow, d) := by
  rw [bind_stateful]
  rcases hrun : r c with ⟨e | a, m⟩
  · constructor
    · rintro ⟨⟩
      exact absurd hrun (hr c _)
    · rintro ⟨_, _, ⟨⟩, _⟩
  · refine ⟨fun h => ⟨a, m, rfl, h⟩, ?_⟩
    rintro ⟨_, _, ⟨⟩, h⟩
    exact h

theorem Stopless.bind {r : Reader α} {f : α → Reader β} (hr : r.Stopless)
    (hf : ∀ a, (f a).Stopless) : (r >>= f).Stopless := by
  intro c d hrun
  obtain ⟨a, m, -, hrest⟩ := hr.bind_stops_iff.1 hrun
  exact hf a m d hrest

theorem stopless_lift {x : Except ClassError α} (hx : x ≠ .error .poolOverflow) :
    (liftM x : Reader α).Stopless := by
  rintro c d ⟨⟩
  exact hx rfl

theorem stopless_pure (a : α) : (pure a : Reader α).Stopless := by
  rintro c d ⟨⟩

end Reader

end JarRemap
