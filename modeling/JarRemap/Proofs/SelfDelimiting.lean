import JarRemap.Proofs.RoundTrip

/-!
# Where a class file ends

A class file tells by what it says where it ends. For a reader this has two sides: a run that
succeeds is the same whatever follows the bytes that it goes past, and where these bytes are cut
off, it takes the same way until it runs out of them (`Reader.SelfDelimiting`). Both sides are kept
when readers are put together, so they hold of the reader of a class
(`ClassFile.selfDelimiting_read`), and no class file is the beginning of another one
(`ClassFile.parse_prefix_free`).
-/

namespace JarRemap

namespace Reader

variable {α β : Type} {r : Reader α}

/-- The reader finds the bytes at an end, and says so with an offset that does not lie beyond
it. -/
def RunsOut (r : Reader α) (c : Cursor) : Prop :=
  ∃ k d, k ≤ c.position + c.rest.length ∧ r c = (.error (.truncated k), d)

/-- A run that goes past some bytes is the same whatever follows them, and runs out where they are
cut off. -/
def SelfDelimiting (r : Reader α) : Prop :=
  ∀ ⦃c a d⦄, r c = (.ok a, d) → ∃ used, c.Past used d ∧
    (∀ rest, r ⟨c.position, used ++ rest⟩ = (.ok a, ⟨d.position, rest⟩)) ∧
    ∀ x, x <+: used → x ≠ used → r.RunsOut ⟨c.position, x⟩

/-! ## Fields -/

/-- A reader that always takes the same number of bytes. -/
theorem Takes.selfDelimiting {n : ℕ} {spell : Bytes → α} (h : r.Takes n spell) :
    r.SelfDelimiting := by
  intro c a d hrun
  rw [h c] at hrun
  split at hrun
  case isTrue => cases hrun
  case isFalse hlength =>
    cases hrun
    have htaken : (c.rest.take n).length = n := by rw [List.length_take]; omega
    refine ⟨c.rest.take n, ⟨(List.take_append_drop n c.rest).symm, by rw [htaken]⟩, ?_, ?_⟩
    · intro rest
      rw [h]
      simp only [List.length_append, htaken, List.take_left' htaken, List.drop_left' htaken]
      rw [if_neg (by omega)]
    · intro x hx hne
      have hlt : x.length < n := by
        refine lt_of_le_of_ne (htaken ▸ hx.length_le) fun heq => hne ?_
        exact hx.eq_of_length (heq.trans htaken.symm)
      refine ⟨c.position, ⟨c.position, x⟩, Nat.le_add_right _ _, ?_⟩
      rw [h, if_pos hlt]

namespace SelfDelimiting

/-! ## Readers that are put together -/

theorem lift (x : Except ClassError α) : (liftM x : Reader α).SelfDelimiting := by
  intro c a d hrun
  obtain ⟨rfl, rfl⟩ := lift_ok_iff.1 hrun
  refine ⟨[], Cursor.past_nil_iff.2 rfl, fun rest => rfl, fun x hx hne => ?_⟩
  exact absurd (List.prefix_nil.1 hx) hne

theorem pure (a : α) : (pure a : Reader α).SelfDelimiting :=
  lift (.ok a)

theorem throw (e : ClassError) : (throw e : Reader α).SelfDelimiting :=
  lift (.error e)

theorem bind {f : α → Reader β} (hr : r.SelfDelimiting) (hf : ∀ a, (f a).SelfDelimiting) :
    (r >>= f).SelfDelimiting := by
  intro c b d hrun
  obtain ⟨a, m, hfirst, hsecond⟩ := bind_ok_iff.1 hrun
  obtain ⟨front, hfront, hsame, hcut⟩ := hr hfirst
  obtain ⟨back, hback, hsame', hcut'⟩ := hf a hsecond
  refine ⟨front ++ back, Cursor.past_append_iff.2 ⟨m, hfront, hback⟩, fun rest => ?_, ?_⟩
  · rw [List.append_assoc]
    exact bind_ok_iff.2 ⟨a, _, hsame _, hsame' rest⟩
  intro x hx hne
  -- The cut falls behind what the first reader goes past, or into it.
  by_cases hlong : front <+: x
  · obtain ⟨y, rfl⟩ := hlong
    have hy : y <+: back := (List.prefix_append_right_inj front).1 hx
    obtain ⟨k, d', hk, hout⟩ := hcut' y hy fun heq => hne (by rw [heq])
    refine ⟨k, d', ?_, ?_⟩
    · rw [hfront.position_eq] at hk
      simpa [Nat.add_assoc] using hk
    · rw [bind_stateful, hsame]
      exact hout
  · have hshort : x <+: front :=
      (List.prefix_or_prefix_of_prefix hx (List.prefix_append front back)).resolve_right hlong
    obtain ⟨k, d', hk, hout⟩ := hcut x hshort fun heq => hlong (heq ▸ List.prefix_rfl)
    refine ⟨k, d', hk, ?_⟩
    rw [bind_stateful, hout]

/-- A reader behind a check. -/
theorem check {p : Prop} [Decidable p] {e : ClassError} {next : β → Reader α}
    (hr : r.SelfDelimiting) :
    (if p then MonadExcept.throw e >>= next else r : Reader α).SelfDelimiting := by
  by_cases hp : p
  · rw [if_pos hp]
    exact throw e
  · rwa [if_neg hp]

theorem u8 : Reader.u8.SelfDelimiting := u8_takes.selfDelimiting

theorem u16 : Reader.u16.SelfDelimiting := u16_takes.selfDelimiting

theorem u32 : Reader.u32.SelfDelimiting := u32_takes.selfDelimiting

theorem bytes (n : ℕ) : (Reader.bytes n).SelfDelimiting := (bytes_takes n).selfDelimiting

theorem u64 : Reader.u64.SelfDelimiting :=
  u32.bind fun _ => u32.bind fun _ => pure _

/-! ## Rows -/

theorem rowsAfter (hr : r.SelfDelimiting) (n : ℕ) (done : List α) :
    (Reader.rowsAfter r n done).SelfDelimiting := by
  induction n generalizing done with
  | zero => exact pure _
  | succ n ih => exact hr.bind fun a => ih (a :: done)

theorem rows16 (hr : r.SelfDelimiting) : (Reader.rows16 r).SelfDelimiting :=
  u16.bind fun count => hr.rowsAfter count.toNat []

end SelfDelimiting

end Reader

open Reader.SelfDelimiting

/-! ## The pool -/

theorem Constant.selfDelimiting_read (index : UInt16) : (read index).SelfDelimiting := by
  refine u8.bind fun tag => ?_
  -- The tag tells which fields follow it.
  split
  case h_1 => exact u16.bind fun length => (bytes length.toNat).bind fun x => lift _
  case h_18 => exact throw _
  case h_2 | h_3 => exact u32.bind fun _ => pure _
  case h_4 | h_5 => exact u64.bind fun _ => pure _
  case h_12 => exact u8.bind fun _ => u16.bind fun _ => pure _
  case h_6 | h_7 | h_13 | h_16 | h_17 => exact u16.bind fun _ => pure _
  all_goals exact u16.bind fun _ => u16.bind fun _ => pure _

namespace ConstantPool

theorem selfDelimiting_readAfter (pool : ConstantPool) (index : UInt16) (missing : ℕ) :
    (readAfter pool index missing).SelfDelimiting := by
  -- An entry fills one slot or two, so what is missing behind it is any smaller number.
  induction missing using Nat.strong_induction_on generalizing pool index with
  | _ missing ih =>
  rcases missing with _ | missing
  · exact pure pool
  · rw [readAfter_succ]
    refine (Constant.selfDelimiting_read index).bind fun k => ?_
    split
    · exact ih _ (by have := width_pos k; omega) _ _
    · exact throw _

theorem selfDelimiting_read : ConstantPool.read.SelfDelimiting :=
  u16.bind fun count => selfDelimiting_readAfter empty 1 (count.toNat - 1)

end ConstantPool

/-! ## The class -/

theorem Attribute.selfDelimiting_readAll (pool : ConstantPool) :
    (readAll pool).SelfDelimiting := by
  refine rows16 (u16.bind fun nameIndex => u32.bind fun length => ?_)
  exact (bytes length.toNat).bind fun info => (lift (pool.text nameIndex)).bind fun name => pure _

theorem Member.selfDelimiting_readAll (pool : ConstantPool) :
    (Reader.rows16 (read pool)).SelfDelimiting := by
  refine rows16 (u16.bind fun access => u16.bind fun name => u16.bind fun descriptor => ?_)
  refine (lift (pool.text name)).bind fun _ => (lift (pool.text descriptor)).bind fun _ => ?_
  exact (Attribute.selfDelimiting_readAll pool).bind fun attributes => pure _

namespace ClassFile

theorem selfDelimiting_read : ClassFile.read.SelfDelimiting := by
  refine u32.bind fun magic => check ?_
  refine u16.bind fun minor => u16.bind fun major => ?_
  refine ConstantPool.selfDelimiting_read.bind fun pool => ?_
  refine u16.bind fun access => u16.bind fun this => u16.bind fun super => ?_
  refine (rows16 u16).bind fun interfaces => ?_
  refine (Member.selfDelimiting_readAll pool).bind fun fields => ?_
  refine (Member.selfDelimiting_readAll pool).bind fun methods => ?_
  exact (Attribute.selfDelimiting_readAll pool).bind fun attributes => pure _

/-- A class file that is cut off ends too early, at an offset within it. -/
theorem parse_prefix {data x : Bytes} {f : ClassFile} (h : parse data = .ok f) (hx : x <+: data)
    (hne : x ≠ data) : ∃ k, k ≤ x.length ∧ parse x = .error (.truncated k) := by
  obtain ⟨⟨d, hread, hend⟩, -⟩ := parse_ok_iff_read.1 h
  obtain ⟨used, hpast, -, hcut⟩ := selfDelimiting_read hread
  obtain ⟨rfl, -⟩ := Cursor.past_all_iff.1 ⟨hpast, hend⟩
  obtain ⟨k, d', hk, hout⟩ := hcut x hx hne
  refine ⟨k, by simpa using hk, ?_⟩
  have hrun : ClassFile.read.runOn x = (.error (.truncated k), d') := hout
  rw [parse, hrun]

/-- What goes on behind a class file has trailing data. -/
theorem parse_extension {data x : Bytes} {f : ClassFile} (h : parse data = .ok f)
    (hx : data <+: x) (hne : x ≠ data) :
    parse x = .error (.badAttribute "trailing class data") := by
  obtain ⟨more, rfl⟩ := hx
  exact parse_append h fun hnil => hne (by rw [hnil, List.append_nil])

/-- No class file is the beginning of another one: what is cut off from one ends too early, at an
offset within it, and what goes on behind one has trailing data. -/
theorem parse_prefix_free {data : Bytes} {f : ClassFile} (h : parse data = .ok f) :
    (∀ x, x <+: data → x ≠ data → ∃ k, k ≤ x.length ∧ parse x = .error (.truncated k)) ∧
    (∀ x, data <+: x → x ≠ data → parse x = .error (.badAttribute "trailing class data")) ∧
    ∀ x g, parse x = .ok g → x <+: data ∨ data <+: x → x = data := by
  refine ⟨fun x => parse_prefix h, fun x => parse_extension h, fun x g hg hx => ?_⟩
  by_contra hne
  rcases hx with hx | hx
  · obtain ⟨k, -, hout⟩ := parse_prefix h hx hne
    cases hg.symm.trans hout
  · cases hg.symm.trans (parse_extension h hx hne)

/-- A class file that is cut off within a text of its pool, or goes on. -/
theorem parse_prefix_free_text :
    parse wastefulFile = .ok wastefulClass ∧
    (∃ k, k ≤ 14 ∧ parse (wastefulFile.take 14) = .error (.truncated k)) ∧
    parse (wastefulFile ++ [0]) = .error (.badAttribute "trailing class data") := by
  have h : parse wastefulFile = .ok wastefulClass := rfl
  obtain ⟨hshort, hlong, -⟩ := parse_prefix_free h
  exact ⟨h, hshort _ (List.take_prefix 14 wastefulFile) (by decide),
    hlong _ (List.prefix_append wastefulFile [0]) (by decide)⟩

end ClassFile

end JarRemap
