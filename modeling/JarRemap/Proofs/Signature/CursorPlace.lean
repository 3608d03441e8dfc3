import JarRemap.Proofs.Signature.InPlace
import JarRemap.Proofs.Text.Utf8

/-!
# Where the cursor is

Reading in place follows the reading of characters step by step: the cursor always is where the
characters that are left begin (`At`). There the text can be cut, a byte tells the next character if
it is one of those that a grammar knows, and moving on by a byte over such a character leads behind
it. A name may hold longer characters, but none of their bytes ends it, so the bytes that are
skipped are those of whole characters.

What is read is compared by `Agrees`, which is kept when readings are composed (`Agrees.bind`). It
also counts the characters that are left, for the depth of what follows.
-/

namespace JarRemap

namespace Signature.InPlace

open Text

variable {α β : Type} {text : String} {s mid rest : List Char} {position n : ℕ} {c m : Char}

theorem bytesOf_eq (text : String) : bytesOf text = utf8 text.toList := by
  unfold bytesOf
  rw [String.toUTF8_eq_toByteArray, ← String.utf8Encode_toList, List.utf8Encode,
    List.data_toByteArray]
  rfl

/-! ## Where the cursor is -/

/-- The characters `s` are what the text ends with from the position on. -/
def At (text : String) (s : List Char) (position : ℕ) : Prop :=
  ∃ front, text.toList = front ++ s ∧ position = (utf8 front).length

namespace At

theorem start (text : String) : At text text.toList 0 :=
  ⟨[], rfl, rfl⟩

theorem skip (h : At text (mid ++ rest) position) :
    At text rest (position + (utf8 mid).length) := by
  obtain ⟨front, htext, rfl⟩ := h
  exact ⟨front ++ mid, by rw [htext, List.append_assoc],
    by rw [utf8_append, List.length_append]⟩

theorem drop_eq (h : At text s position) : (bytesOf text).drop position = utf8 s := by
  obtain ⟨front, htext, rfl⟩ := h
  rw [bytesOf_eq, htext, utf8_append, List.drop_left]

theorem length_eq (h : At text s position) :
    (bytesOf text).length = position + (utf8 s).length := by
  obtain ⟨front, htext, rfl⟩ := h
  rw [bytesOf_eq, htext, utf8_append, List.length_append]

theorem getElem?_eq (h : At text s position) : (bytesOf text)[position]? = (utf8 s).head? := by
  rw [← h.drop_eq, List.head?_drop]

theorem peek_nil (h : At text [] position) : (bytesOf text)[position]? = none :=
  h.getElem?_eq

/-- The byte at a character tells that one begins, and which one it is if it is a single byte. -/
theorem peek_cons (h : At text (c :: rest) position) :
    ∃ b, (bytesOf text)[position]? = some b ∧ (b.toNat < 128 ∨ 192 ≤ b.toNat) ∧
      ∀ m : Char, m.toNat < 128 → (b = m.toUInt8 ↔ c = m) := by
  obtain ⟨b, more, hbytes, hfirst, hmark⟩ := exists_firstByte c
  refine ⟨b, ?_, hfirst, hmark⟩
  rw [h.getElem?_eq, utf8_cons, hbytes]
  rfl

theorem peek_eq_some_iff (h : At text s position) (hm : m.toNat < 128) :
    (bytesOf text)[position]? = some m.toUInt8 ↔ s.head? = some m := by
  cases s with
  | nil => rw [h.peek_nil]; simp
  | cons c rest =>
    obtain ⟨b, hb, -, hmark⟩ := h.peek_cons
    rw [hb, Option.some_inj, hmark m hm, List.head?_cons, Option.some_inj]

theorem peek_bne (h : At text s position) (hm : m.toNat < 128) :
    ((bytesOf text)[position]? != some m.toUInt8) = (s.head? != some m) := by
  rw [Bool.eq_iff_iff, bne_iff_ne, bne_iff_ne]
  exact not_congr (h.peek_eq_some_iff hm)

theorem isSome_peek (h : At text s position) :
    (bytesOf text)[position]?.isSome = !s.isEmpty := by
  cases s with
  | nil => rw [h.peek_nil]; rfl
  | cons c rest =>
    obtain ⟨b, hb, -⟩ := h.peek_cons
    rw [hb]
    rfl

theorem length_le_iff (h : At text s position) :
    (bytesOf text).length ≤ position ↔ s = [] := by
  rw [← List.getElem?_eq_none_iff, ← Option.isNone_iff_eq_none, ← Option.not_isSome,
    h.isSome_peek]
  cases s <;> simp

/-- Behind a character that is a single byte stands the next one. -/
theorem bump (h : At text (m :: rest) position) (hm : m.toNat < 128) :
    At text rest (position + 1) := by
  have hskip : At text rest (position + (utf8 [m]).length) :=
    At.skip (show At text ([m] ++ rest) position from h)
  rcases utf8EncodeChar_cases m with ⟨-, hbytes⟩ | ⟨hge, -⟩
  · rwa [utf8_cons, hbytes] at hskip
  · omega

theorem isBoundary (h : At text s position) : isBoundary (bytesOf text) position = true := by
  unfold InPlace.isBoundary
  cases s with
  | nil =>
    rw [h.peek_nil, h.length_eq]
    simp
  | cons c rest =>
    obtain ⟨b, hb, hfirst, -⟩ := h.peek_cons
    rw [hb]
    simp [UInt8.lt_iff_toNat_lt, UInt8.le_iff_toNat_le]
    omega

/-- What stands between two characters can be cut out. -/
theorem cut_eq (h : At text (mid ++ rest) position) :
    cut (bytesOf text) position (position + (utf8 mid).length) = .ok (String.ofList mid) := by
  have hbytes : ((bytesOf text).drop position).take (utf8 mid).length = utf8 mid := by
    rw [h.drop_eq, utf8_append, List.take_left]
  unfold cut
  rw [h.isBoundary, h.skip.isBoundary, Nat.add_sub_cancel_left, hbytes, fromUTF8?_utf8]
  simp

end At

/-! ## What agrees -/

/-- Reading in place comes to the same as reading characters, and leaves fewer than `n` of them. -/
inductive Agrees (text : String) (n : ℕ) :
    Except Stop (α × ℕ) → Except SignatureFault (α × List Char) → Prop
  | ok {a : α} {rest : List Char} {position : ℕ} (h : At text rest position)
    (hlt : rest.length < n) : Agrees text n (.ok (a, position)) (.ok (a, rest))
  | truncated : Agrees text n (.error .truncated) (.error .truncated)
  | unbalanced : Agrees text n (.error .unbalanced) (.error .unbalanced)
  | unexpected {c : Char} {after : List Char} {position : ℕ} (h : At text (c :: after) position) :
    Agrees text n (.error (.unexpected position c)) (.error (.unexpected c after))

theorem Agrees.mono {k : ℕ} {x : Except Stop (α × ℕ)} {y : Except SignatureFault (α × List Char)}
    (h : Agrees text k x y) (hle : k ≤ n) : Agrees text n x y := by
  cases h with
  | ok h hlt => exact .ok h (Nat.lt_of_lt_of_le hlt hle)
  | truncated => exact .truncated
  | unbalanced => exact .unbalanced
  | unexpected h => exact .unexpected h

section

variable {k : ℕ} {x : Walk α} {f : α → Walk β} {y : Except SignatureFault (α × List Char)}
  {g : α × List Char → Except SignatureFault (β × List Char)}

/-- What goes on behind readings that agree agrees, if it does wherever they can end. -/
theorem Agrees.bind_of_ok (hx : Agrees text k (x position) y)
    (hf : ∀ a rest position, y = .ok (a, rest) → At text rest position → rest.length < k →
      Agrees text n (f a position) (g (a, rest))) :
    Agrees text n ((x >>= f) position) (y >>= g) := by
  have hrun : (x >>= f) position = (x position >>= fun p => f p.1 p.2) := rfl
  rw [hrun]
  generalize x position = outcome at hx
  cases hx with
  | ok h hlt => exact hf _ _ _ rfl h hlt
  | truncated => exact .truncated
  | unbalanced => exact .unbalanced
  | unexpected h => exact .unexpected h

theorem Agrees.bind (hx : Agrees text k (x position) y)
    (hf : ∀ a rest position, At text rest position → rest.length < k →
      Agrees text n (f a position) (g (a, rest))) :
    Agrees text n ((x >>= f) position) (y >>= g) :=
  hx.bind_of_ok fun a rest position _ => hf a rest position

end

theorem get_bind (f : ℕ → Walk α) (position : ℕ) :
    (get >>= f) position = f position position := rfl

theorem lift_bind {x : Except Stop α} {a : α} (h : x = .ok a) (f : α → Walk β) (position : ℕ) :
    ((liftM x : Walk α) >>= f) position = f a position := by
  rw [h]
  rfl

theorem lift_ok {x : Except Stop α} {a : α} (h : x = .ok a) (position : ℕ) :
    (liftM x : Walk α) position = .ok (a, position) := by
  rw [h]
  rfl

theorem set_bind (stop : ℕ) (f : PUnit → Walk α) (position : ℕ) :
    (set stop >>= f) position = f () stop := rfl

theorem atEnd_bind (bytes : Bytes) (f : Bool → Walk α) (position : ℕ) :
    (atEnd bytes >>= f) position = f (decide (bytes.length ≤ position)) position := rfl

theorem peek_bind (bytes : Bytes) (f : Option UInt8 → Walk α) (position : ℕ) :
    (peek bytes >>= f) position = f bytes[position]? position := rfl

theorem bump_bind (f : Unit → Walk α) (position : ℕ) :
    (bump >>= f) position = f () (position + 1) := rfl

/-! ## Characters and names -/

namespace At

theorem unexpected (h : At text s position) :
    Agrees text n (InPlace.unexpected (bytesOf text) position : Except Stop (α × ℕ))
      (.error (faultAt s)) := by
  have hcut : cut (bytesOf text) position (bytesOf text).length = .ok (String.ofList s) := by
    rw [h.length_eq]
    rw [← List.append_nil s] at h
    exact h.cut_eq
  unfold InPlace.unexpected
  rw [get_bind, lift_bind hcut, String.toList_ofList]
  cases s with
  | nil => exact .truncated
  | cons c rest => exact .unexpected h

theorem expect (h : At text s position) (hm : m.toNat < 128) :
    Agrees text s.length (InPlace.expect (bytesOf text) m position) (Signature.expect m s) := by
  unfold InPlace.expect
  rw [peek_bind]
  cases s with
  | nil =>
    rw [h.peek_nil]
    exact .truncated
  | cons c rest =>
    obtain ⟨b, hb, -, hmark⟩ := h.peek_cons
    rw [hb, Signature.expect]
    by_cases hc : c = m
    · subst hc
      dsimp only
      rw [if_pos rfl, if_pos ((hmark c hm).2 rfl)]
      exact .ok (h.bump hm) (Nat.lt_succ_self _)
    · dsimp only
      rw [if_neg hc, if_neg fun hsame => hc ((hmark m hm).1 hsame)]
      exact h.unexpected

end At

theorem skip_append {stops front : Bytes} (hfront : ∀ b ∈ front, b ∉ stops) (rest : Bytes)
    (position : ℕ) :
    skip stops (front ++ rest) position = skip stops rest (position + front.length) := by
  induction front generalizing position with
  | nil => rfl
  | cons b front ih =>
    rw [List.forall_mem_cons] at hfront
    rw [List.cons_append, skip, if_neg (by simpa using hfront.1), ih hfront.2, List.length_cons]
    congr 1
    omega

/-- The bytes of a name are skipped, and no byte of a longer character ends it. -/
theorem skip_utf8 {stops : List Char} (hstops : ∀ m ∈ stops, m.toNat < 128) (s : List Char)
    (position : ℕ) :
    skip (stops.map Char.toUInt8) (utf8 s) position =
      position + (utf8 (s.takeWhile fun c => !stops.contains c)).length := by
  induction s generalizing position with
  | nil => rfl
  | cons c s ih =>
    by_cases hc : c ∈ stops
    · obtain ⟨b, more, hbytes, -, hmark⟩ := exists_firstByte c
      have hb : b ∈ stops.map Char.toUInt8 :=
        List.mem_map.2 ⟨c, hc, ((hmark c (hstops c hc)).2 rfl).symm⟩
      rw [utf8_cons, hbytes, List.cons_append, skip, if_pos (List.contains_iff_mem.2 hb),
        List.takeWhile_cons_of_neg (by simpa using hc)]
      rfl
    · have hbytes : ∀ b ∈ String.utf8EncodeChar c, b ∉ stops.map Char.toUInt8 := by
        intro b hb hmem
        obtain ⟨m, hm, rfl⟩ := List.mem_map.1 hmem
        exact toUInt8_notMem (hstops m hm) (fun hsame => hc (by rwa [hsame])) hb
      rw [utf8_cons, skip_append hbytes, ih, List.takeWhile_cons_of_pos (by simpa using hc),
        utf8_cons, List.length_append, Nat.add_assoc]

theorem variableStops_lt : ∀ m ∈ variableStops, m.toNat < 128 := by
  simp [variableStops]

theorem classStops_lt : ∀ m ∈ classStops, m.toNat < 128 := by
  simp [classStops]

theorem parameterStops_lt : ∀ m ∈ parameterStops, m.toNat < 128 := by
  simp [parameterStops]

theorem At.name {stops : List Char} (hstops : ∀ m ∈ stops, m.toNat < 128)
    (h : At text s position) :
    Agrees text s.length (name (bytesOf text) stops position) (readName stops s) := by
  have hstop := skip_utf8 hstops s position
  have hsplit := List.takeWhile_append_dropWhile (p := fun c => !stops.contains c) (l := s)
  unfold readName InPlace.name
  rw [get_bind, h.drop_eq, hstop, set_bind]
  rcases htaken : s.takeWhile fun c => !stops.contains c with _ | ⟨c, more⟩
  · rw [utf8_nil, List.length_nil, Nat.add_zero, if_pos rfl, atEnd_bind]
    cases s with
    | nil =>
      rw [decide_eq_true (h.length_le_iff.2 rfl), if_pos rfl]
      exact .truncated
    | cons c rest =>
      rw [decide_eq_false (mt h.length_le_iff.1 (List.cons_ne_nil c rest)),
        if_neg Bool.false_ne_true]
      exact h.unexpected
  · rw [htaken] at hsplit
    rw [← hsplit] at h
    have hpos : 0 < (utf8 (c :: more)).length := by
      obtain ⟨b, tail, hbytes, -⟩ := exists_firstByte c
      rw [utf8_cons, hbytes]
      exact Nat.succ_pos _
    rw [if_neg (by omega), lift_ok h.cut_eq]
    refine .ok h.skip ?_
    have hlength := congrArg List.length hsplit
    rw [List.length_append, List.length_cons] at hlength
    omega

end Signature.InPlace

end JarRemap
