import JarRemap.Proofs.Descriptor
import JarRemap.Proofs.Signature.CursorPlace
import JarRemap.Proofs.Signature.Parse

/-!
# Signatures read in place

Whatever the text, reading a signature in place comes to the tree or the error that reading its
characters comes to (`parse_in_place`). For the functions that call each other this is shown by
induction on the depth, of which each has enough for the characters that are left (`typesAgree`).
-/

namespace JarRemap

namespace Signature.InPlace

open Text

variable {α β : Type} {text : String} {s rest : List Char} {position n : ℕ} {c m : Char}

/-! ## Types -/

theorem At.expect_bind (h : At text (m :: rest) position) (hm : m.toNat < 128)
    (f : Unit → Walk α) :
    (InPlace.expect (bytesOf text) m >>= f) position = f () (position + 1) := by
  obtain ⟨b, hb, -, hmark⟩ := h.peek_cons
  obtain rfl := (hmark m hm).2 rfl
  have hrun : InPlace.expect (bytesOf text) m position = .ok ((), position + 1) := by
    unfold InPlace.expect
    rw [peek_bind, hb]
    dsimp only
    rw [if_pos rfl]
    rfl
  have hbind : (InPlace.expect (bytesOf text) m >>= f) position =
      (InPlace.expect (bytesOf text) m position >>= fun p => f p.1 p.2) := rfl
  rw [hbind, hrun]
  rfl

theorem letter_lt (p : Primitive) : p.letter.toNat < 128 := by
  cases p <;> decide

theorem At.type {walk : Walk TypeSignature} {read : Step TypeSignature} (h : At text s position)
    (hreference : Agrees text s.length (walk position) (read s)) :
    Agrees text s.length (InPlace.type (bytesOf text) walk position) (readType read s) := by
  unfold InPlace.type
  rw [peek_bind]
  cases s with
  | nil =>
    rw [h.peek_nil]
    exact hreference
  | cons c rest =>
    obtain ⟨b, hb, -, hmark⟩ := h.peek_cons
    have hletter : Primitive.ofLetter? (Char.ofUInt8 b) = Primitive.ofLetter? c := by
      refine Option.ext fun p => ?_
      rw [Primitive.ofLetter?_eq_some_iff, Primitive.ofLetter?_eq_some_iff,
        ofUInt8_eq_iff (letter_lt p), hmark _ (letter_lt p)]
    rw [hb, readType]
    dsimp only
    rw [hletter]
    rcases hp : Primitive.ofLetter? c with _ | p
    · exact hreference
    · obtain rfl := Primitive.ofLetter?_eq_some_iff.1 hp
      exact .ok (h.bump (letter_lt p)) (Nat.lt_succ_self _)

/-- At this depth types are read alike, in place and from characters, and the bound is not
reached. -/
structure TypesAgree (text : String) (depth : ℕ) : Prop where
  reference {s : List Char} {position : ℕ} : At text s position → 2 * s.length < depth →
    Agrees text s.length (reference (bytesOf text) depth position) (readReference depth s)
  segments {s : List Char} {position : ℕ} : At text s position → 2 * s.length < depth →
    Agrees text s.length (segments (bytesOf text) depth position) (readSegments depth s)
  arguments {s : List Char} {position : ℕ} (done : List TypeArgument) : At text s position →
    2 * s.length + 1 < depth →
    Agrees text s.length (arguments (bytesOf text) depth done position)
      (readArguments depth done s)

namespace TypesAgree

variable {depth : ℕ}

theorem reference_succ (ih : TypesAgree text depth) (h : At text s position)
    (hdepth : 2 * s.length < depth + 1) :
    Agrees text s.length (InPlace.reference (bytesOf text) (depth + 1) position)
      (readReference (depth + 1) s) := by
  rw [InPlace.reference, peek_bind]
  cases s with
  | nil =>
    rw [h.peek_nil]
    exact .truncated
  | cons c rest =>
    rw [List.length_cons] at hdepth ⊢
    obtain ⟨b, hb, -, hmark⟩ := h.peek_cons
    rw [hb, readReference]
    simp only [hmark 'L' (by decide), hmark 'T' (by decide), hmark '[' (by decide)]
    by_cases hclass : c = 'L'
    · simp only [if_pos hclass]
      subst hclass
      rw [h.expect_bind (by decide)]
      refine (ih.segments (h.bump (by decide)) (by omega)).bind fun t after p hp hlt => ?_
      exact .ok hp (Nat.lt_succ_of_lt hlt)
    by_cases hvariable : c = 'T'
    · simp only [if_neg hclass, if_pos hvariable]
      subst hvariable
      rw [bump_bind]
      refine ((h.bump (by decide)).name variableStops_lt).bind fun name after p hp hlt => ?_
      refine (hp.expect (by decide)).bind fun _ after' p' hp' hlt' => ?_
      exact .ok hp' (Nat.lt_succ_of_lt (hlt'.trans hlt))
    by_cases harray : c = '['
    · simp only [if_neg hclass, if_neg hvariable, if_pos harray]
      subst harray
      have hbehind := h.bump (by decide)
      rw [bump_bind]
      refine (hbehind.type (ih.reference hbehind (by omega))).bind fun t after p hp hlt => ?_
      exact .ok hp (Nat.lt_succ_of_lt hlt)
    · simp only [if_neg hclass, if_neg hvariable, if_neg harray]
      exact h.unexpected

theorem bracketed (ih : TypesAgree text depth) (h : At text s position)
    (hdepth : 2 * s.length ≤ depth) :
    Agrees text (s.length + 1)
      (InPlace.bracketed (bytesOf text) (InPlace.arguments (bytesOf text) depth []) position)
      (readBracketed depth s) := by
  unfold InPlace.bracketed
  rw [peek_bind]
  by_cases hopen : s.head? = some '<'
  · rw [if_pos ((h.peek_eq_some_iff (by decide)).2 hopen)]
    cases s with
    | nil => cases hopen
    | cons c rest =>
      obtain rfl := Option.some.inj hopen
      rw [List.length_cons] at hdepth ⊢
      rw [h.expect_bind (by decide), readBracketed]
      exact (ih.arguments [] (h.bump (by decide)) (by omega)).mono (by omega)
  · have hread : readBracketed depth s = .ok ([], s) :=
      readBracketed.eq_2 depth s fun rest hs => hopen (hs ▸ rfl)
    rw [if_neg (mt (h.peek_eq_some_iff (by decide)).1 hopen), hread]
    exact .ok h (Nat.lt_succ_self _)

theorem nested (ih : TypesAgree text depth) (segment : ClassSegment) (h : At text s position)
    (hdepth : 2 * s.length ≤ depth) :
    Agrees text (s.length + 1)
      (InPlace.nested (bytesOf text) (InPlace.segments (bytesOf text) depth) segment position)
      (readNested depth segment s) := by
  unfold InPlace.nested
  rw [peek_bind]
  cases s with
  | nil =>
    rw [h.peek_nil]
    exact .truncated
  | cons c rest =>
    rw [List.length_cons] at hdepth ⊢
    obtain ⟨b, hb, -, hmark⟩ := h.peek_cons
    rw [hb, readNested]
    simp only [hmark ';' (by decide), hmark '.' (by decide), hmark '>' (by decide)]
    by_cases hend : c = ';'
    · simp only [if_pos hend]
      subst hend
      exact .ok (h.bump (by decide)) (by omega)
    by_cases hdot : c = '.'
    · simp only [if_neg hend, if_pos hdot]
      subst hdot
      rw [bump_bind]
      refine (ih.segments (h.bump (by decide)) (by omega)).bind fun t after p hp hlt => ?_
      obtain ⟨next, inner⟩ := t
      exact .ok hp (Nat.lt_succ_of_lt (Nat.lt_succ_of_lt hlt))
    by_cases hclose : c = '>'
    · simp only [if_neg hend, if_neg hdot, if_pos hclose]
      exact .unbalanced
    · simp only [if_neg hend, if_neg hdot, if_neg hclose]
      exact h.unexpected

theorem segments_succ (ih : TypesAgree text depth) (h : At text s position)
    (hdepth : 2 * s.length < depth + 1) :
    Agrees text s.length (InPlace.segments (bytesOf text) (depth + 1) position)
      (readSegments (depth + 1) s) := by
  rw [InPlace.segments, readSegments_succ]
  refine (h.name classStops_lt).bind fun outer rest p hp hlt => ?_
  refine (ih.bracketed hp (by omega)).bind fun args rest' p' hp' hlt' => ?_
  exact (ih.nested _ hp' (by omega)).mono (by omega)

theorem arguments_succ (ih : TypesAgree text depth) (done : List TypeArgument)
    (h : At text s position) (hdepth : 2 * s.length + 1 < depth + 1) :
    Agrees text s.length (InPlace.arguments (bytesOf text) (depth + 1) done position)
      (readArguments (depth + 1) done s) := by
  rw [InPlace.arguments, peek_bind]
  cases s with
  | nil =>
    rw [h.peek_nil]
    exact .unbalanced
  | cons c rest =>
    rw [List.length_cons] at hdepth ⊢
    obtain ⟨b, hb, -, hmark⟩ := h.peek_cons
    rw [hb, readArguments]
    simp only [hmark '>' (by decide), hmark '*' (by decide), hmark '+' (by decide),
      hmark '-' (by decide)]
    by_cases hclose : c = '>'
    · simp only [if_pos hclose]
      subst hclose
      rw [bump_bind]
      split
      case isTrue => exact .unbalanced
      case isFalse => exact .ok (h.bump (by decide)) (Nat.lt_succ_self _)
    by_cases hany : c = '*'
    · simp only [if_neg hclose, if_pos hany]
      subst hany
      rw [bump_bind]
      exact (ih.arguments _ (h.bump (by decide)) (by omega)).mono (Nat.le_succ _)
    -- Behind the mark of a bound, if there is one, stands a type, and then the arguments go on.
    have hgoes (bound : ArgumentBound) {tail : List Char} {p : ℕ} (hp : At text tail p)
        (hle : tail.length ≤ rest.length + 1) :
        Agrees text (rest.length + 1)
          ((InPlace.reference (bytesOf text) depth >>= fun t =>
            InPlace.arguments (bytesOf text) depth (.bounded bound t :: done)) p)
          (readReference depth tail >>= fun t =>
            readArguments depth (.bounded bound t.1 :: done) t.2) := by
      refine (ih.reference hp (by omega)).bind fun t after p' hp' hlt => ?_
      exact (ih.arguments _ hp' (by omega)).mono (by omega)
    by_cases hbelow : c = '+'
    · simp only [if_neg hclose, if_neg hany, if_pos hbelow]
      subst hbelow
      exact hgoes .below (h.bump (by decide)) (Nat.le_succ _)
    by_cases habove : c = '-'
    · simp only [if_neg hclose, if_neg hany, if_neg hbelow, if_pos habove]
      subst habove
      exact hgoes .above (h.bump (by decide)) (Nat.le_succ _)
    · simp only [if_neg hclose, if_neg hany, if_neg hbelow, if_neg habove]
      exact hgoes .exactly h le_rfl

end TypesAgree

theorem typesAgree (text : String) (depth : ℕ) : TypesAgree text depth := by
  induction depth with
  | zero =>
    refine ⟨fun _ hdepth => ?_, fun _ hdepth => ?_, fun _ _ hdepth => ?_⟩
    · omega
    · omega
    · omega
  | succ depth ih => exact ⟨ih.reference_succ, ih.segments_succ, ih.arguments_succ⟩

/-! ## Rows of parts -/

/-- Rows are read alike if their parts are, where reading a part takes a character. -/
theorem At.parts {more : Option UInt8 → Bool} {more' : List Char → Bool} {part : Walk α}
    {part' : Step α} {k : ℕ}
    (hmore : ∀ {s position}, At text s position → more (bytesOf text)[position]? = more' s)
    (hpart : ∀ {s position}, At text s position → s.length ≤ k → more' s = true →
      Agrees text s.length (part position) (part' s))
    (h : At text s position) (hle : s.length ≤ k) {bound : ℕ} (hbound : s.length < bound)
    (done : List α) :
    Agrees text (s.length + 1) (parts (bytesOf text) more part bound done position)
      (readWhile more' part' bound done s) := by
  induction bound generalizing s position done with
  | zero => omega
  | succ bound ih =>
    rw [InPlace.parts, peek_bind, readWhile, hmore h]
    by_cases hnext : more' s = true
    · rw [if_pos hnext, if_pos hnext]
      refine (hpart h hle hnext).bind fun a rest p hp hlt => ?_
      exact (ih hp (by omega) (by omega) (a :: done)).mono (by omega)
    · rw [if_neg hnext, if_neg hnext]
      exact .ok h (Nat.lt_succ_self _)

/-- A row ends where no other part is asked for. -/
theorem readWhile_stops {more : List Char → Bool} {part : Step α} {bound : ℕ} {done l : List α}
    (h : readWhile more part bound done s = .ok (l, rest)) : more rest = false := by
  induction bound generalizing s done with
  | zero =>
    rw [readWhile] at h
    split at h
    case isTrue => cases h
    case isFalse hstop =>
      cases h
      simpa using hstop
  | succ bound ih =>
    rw [readWhile] at h
    split at h
    case isTrue =>
      obtain ⟨⟨a, after⟩, -, hnext⟩ := except_bind_ok_iff.1 h
      exact ih hnext
    case isFalse hstop =>
      cases h
      simpa using hstop

variable {depth : ℕ}

theorem At.type_of_depth (h : At text s position) (hdepth : 2 * s.length < depth) :
    Agrees text s.length (InPlace.type (bytesOf text) (reference (bytesOf text) depth) position)
      (readType (readReference depth) s) :=
  h.type ((typesAgree text depth).reference h hdepth)

theorem At.classType (h : At text s position) (hdepth : 2 * s.length < depth) :
    Agrees text s.length (classType (bytesOf text) depth position) (readClassType depth s) := by
  refine (h.expect (by decide)).bind fun _ rest p hp hlt => ?_
  exact ((typesAgree text depth).segments hp (by omega)).mono hlt.le

theorem At.marked (h : At text s position) (hm : m.toNat < 128) (hdepth : 2 * s.length < depth) :
    Agrees text (s.length + 1) (marked (bytesOf text) depth m position)
      (readMarked depth m s) := by
  refine h.parts (k := s.length) (fun hp => ?_) (fun {s' p} hp hle hmark => ?_) le_rfl
    (by omega) []
  · rw [Bool.eq_iff_iff, beq_iff_eq, beq_iff_eq]
    exact hp.peek_eq_some_iff hm
  · cases s' with
    | nil => cases hmark
    | cons c rest =>
      obtain rfl : c = m := by simpa using hmark
      have hexpect : Signature.expect c (c :: rest) = .ok ((), rest) := expect_ok_iff.2 rfl
      rw [List.length_cons] at hle ⊢
      rw [bump_bind, hexpect]
      exact ((typesAgree text depth).reference (hp.bump hm) (by omega)).mono (Nat.le_succ _)

/-! ## Type parameters -/

theorem At.classBound (h : At text s position) (hdepth : 2 * s.length < depth) :
    Agrees text (s.length + 1) (classBound (bytesOf text) depth position)
      (readClassBound depth s) := by
  have hbegins : ((bytesOf text)[position]? = some 'L'.toUInt8 ∨
      (bytesOf text)[position]? = some 'T'.toUInt8 ∨
      (bytesOf text)[position]? = some '['.toUInt8) ↔ beginsReference s = true := by
    rw [h.peek_eq_some_iff (by decide), h.peek_eq_some_iff (by decide),
      h.peek_eq_some_iff (by decide)]
    cases s <;> simp [beginsReference, or_assoc]
  unfold InPlace.classBound readClassBound
  rw [peek_bind]
  by_cases hnext : beginsReference s = true
  · rw [if_pos (hbegins.2 hnext), if_pos hnext]
    refine ((typesAgree text depth).reference h hdepth).bind fun t rest p hp hlt => ?_
    exact .ok hp (Nat.lt_succ_of_lt hlt)
  · rw [if_neg (mt hbegins.1 hnext), if_neg hnext]
    exact .ok h (Nat.lt_succ_self _)

theorem At.typeParameter (h : At text s position) (hdepth : 2 * s.length < depth) :
    Agrees text s.length (typeParameter (bytesOf text) depth position)
      (readTypeParameter depth s) := by
  rw [readTypeParameter_eq]
  refine (h.name parameterStops_lt).bind fun parameter s₁ p₁ h₁ hlt₁ => ?_
  refine (h₁.expect (by decide)).bind fun _ s₂ p₂ h₂ hlt₂ => ?_
  refine (h₂.classBound (by omega)).bind fun bound s₃ p₃ h₃ hlt₃ => ?_
  refine (h₃.marked (by decide) (by omega)).bind fun bounds s₄ p₄ h₄ hlt₄ => ?_
  have hlt : s₄.length < s.length := by omega
  exact .ok h₄ hlt

theorem At.typeParameters (h : At text s position) (hdepth : 2 * s.length < depth) :
    Agrees text (s.length + 1) (typeParameters (bytesOf text) depth position)
      (readTypeParameters depth s) := by
  unfold InPlace.typeParameters
  rw [peek_bind]
  by_cases hopen : s.head? = some '<'
  · rw [if_pos ((h.peek_eq_some_iff (by decide)).2 hopen)]
    cases s with
    | nil => cases hopen
    | cons c rest =>
      obtain rfl := Option.some.inj hopen
      rw [List.length_cons] at hdepth ⊢
      rw [bump_bind, readTypeParameters]
      refine Agrees.bind_of_ok ((h.bump (by decide)).parts (k := rest.length) (fun hp => ?_)
        (fun hp hle _ => hp.typeParameter (by omega)) le_rfl (by omega) [])
        fun params after p hrow hp hlt => ?_
      · rw [hp.isSome_peek, hp.peek_bne (by decide)]
      -- The row ends at the bracket that closes it, or at the end.
      rw [peek_bind]
      cases after with
      | nil =>
        rw [hp.peek_nil]
        exact .unbalanced
      | cons c after =>
        obtain rfl : c = '>' := by simpa using readWhile_stops hrow
        obtain ⟨b, hb, -⟩ := hp.peek_cons
        rw [hb]
        dsimp only
        rw [bump_bind]
        by_cases hempty : params.isEmpty = true
        · rw [if_pos hempty, if_pos hempty]
          exact (hp.bump (by decide)).unexpected
        · rw [if_neg hempty, if_neg hempty]
          have hlt' : after.length < rest.length + 1 + 1 := by
            rw [List.length_cons] at hlt
            omega
          exact .ok (hp.bump (by decide)) hlt'
  · have hread : readTypeParameters depth s = .ok ([], s) :=
      readTypeParameters.eq_2 depth s fun rest hs => hopen (hs ▸ rfl)
    rw [if_neg (mt (h.peek_eq_some_iff (by decide)).1 hopen), hread]
    exact .ok h (Nat.lt_succ_self _)

/-! ## Whole signatures -/

theorem At.returnType (h : At text s position) (hdepth : 2 * s.length < depth) :
    Agrees text (s.length + 1) (returnType (bytesOf text) depth position)
      (readReturn depth s) := by
  unfold InPlace.returnType
  rw [peek_bind]
  by_cases hnone : s.head? = some 'V'
  · rw [if_pos ((h.peek_eq_some_iff (by decide)).2 hnone)]
    cases s with
    | nil => cases hnone
    | cons c rest =>
      obtain rfl := Option.some.inj hnone
      exact .ok (h.bump (by decide)) (Nat.lt_succ_of_lt (Nat.lt_succ_self _))
  · rw [if_neg (mt (h.peek_eq_some_iff (by decide)).1 hnone),
      readReturn.eq_2 depth s fun rest hs => hnone (hs ▸ rfl)]
    refine (h.type_of_depth hdepth).bind fun t rest p hp hlt => ?_
    exact .ok hp (Nat.lt_succ_of_lt hlt)

theorem At.classSignature (h : At text s position) (hdepth : 2 * s.length < depth) :
    Agrees text (s.length + 1) (classSignature (bytesOf text) depth position)
      (readClass depth s) := by
  refine (h.typeParameters hdepth).bind fun params s₁ p₁ h₁ hlt₁ => ?_
  refine (h₁.classType (by omega)).bind fun superclass s₂ p₂ h₂ hlt₂ => ?_
  refine Agrees.bind (h₂.parts (k := s₂.length) (fun hp => hp.isSome_peek)
    (fun hp hle _ => hp.classType (by omega)) le_rfl (by omega) [])
    fun interfaces s₃ p₃ h₃ hlt₃ => ?_
  exact .ok h₃ (by omega)

theorem At.methodSignature (h : At text s position) (hdepth : 2 * s.length < depth) :
    Agrees text (s.length + 1) (methodSignature (bytesOf text) depth position)
      (readMethod depth s) := by
  refine (h.typeParameters hdepth).bind fun typeParams s₁ p₁ h₁ hlt₁ => ?_
  refine (h₁.expect (by decide)).bind fun _ s₂ p₂ h₂ hlt₂ => ?_
  refine Agrees.bind (h₂.parts (k := s₂.length) (fun hp => hp.peek_bne (by decide))
    (fun hp hle _ => hp.type_of_depth (by omega)) le_rfl (by omega) [])
    fun params s₃ p₃ h₃ hlt₃ => ?_
  refine (h₃.expect (by decide)).bind fun _ s₄ p₄ h₄ hlt₄ => ?_
  refine (h₄.returnType (by omega)).bind fun ret s₅ p₅ h₅ hlt₅ => ?_
  refine (h₅.marked (by decide) (by omega)).bind fun throws s₆ p₆ h₆ hlt₆ => ?_
  exact .ok h₆ (by omega)

/-! ## Whole texts -/

/-- The offset that an error tells is where the cursor is. -/
theorem At.offsetOf_eq (h : At text s position) : offsetOf text.toList s = position := by
  obtain ⟨front, htext, rfl⟩ := h
  rw [offsetOf, utf8Size_eq_length, utf8Size_eq_length, htext, utf8_append, List.length_append,
    Nat.add_sub_cancel]

/-- The error tells the character that begins at its position. -/
def TellsCharacter (text : String) (position : ℕ) (c : Char) : Prop :=
  ∃ front after, text.toList = front ++ c :: after ∧
    position = (String.ofList front).utf8ByteSize

theorem TellsCharacter.lt (h : TellsCharacter text position c) :
    position < text.utf8ByteSize := by
  obtain ⟨front, after, htext, rfl⟩ := h
  obtain ⟨b, more, hbytes, -⟩ := exists_firstByte c
  rw [← String.ofList_toList (s := text), htext, utf8ByteSize_ofList, utf8ByteSize_ofList,
    utf8_append, utf8_cons, hbytes, List.length_append, List.length_append, List.length_cons]
  omega

theorem At.tellsCharacter {after : List Char} (h : At text (c :: after) position) :
    TellsCharacter text position c := by
  obtain ⟨front, htext, rfl⟩ := h
  exact ⟨front, after, htext, (utf8ByteSize_ofList front).symm⟩

/-- Reading in place gives the same tree or error, and the error tells a character of the text. -/
structure SameOutcome (text : String) (x : Except Stop α) (y : Except SignatureError α) :
    Prop where
  mapError_eq : x.mapError (Stop.toError? text) = y.mapError some
  tells : ∀ text' position c, y = .error (.unexpected text' position c) →
    text' = text ∧ TellsCharacter text position c

namespace SameOutcome

theorem map {x : Except Stop α} {y : Except SignatureError α} (h : SameOutcome text x y)
    (f : α → β) : SameOutcome text (x.map f) (y.map f) := by
  obtain ⟨hsame, htells⟩ := h
  rcases x with e | a <;> rcases y with e' | b
  · exact ⟨congrArg Except.error (Except.error.inj hsame), fun t p c herror =>
      htells t p c (congrArg Except.error (Except.error.inj herror))⟩
  · cases hsame
  · cases hsame
  · obtain rfl := Except.ok.inj hsame
    exact ⟨rfl, nofun⟩

theorem of_agrees {x : Except Stop (α × ℕ)} {y : Except SignatureFault (α × List Char)}
    (h : Agrees text n x y) :
    SameOutcome text (x.map Prod.fst) ((y.map Prod.fst).mapError (·.toError text)) := by
  cases h with
  | ok h hlt => exact ⟨rfl, nofun⟩
  | truncated => exact ⟨rfl, nofun⟩
  | unbalanced => exact ⟨rfl, nofun⟩
  | unexpected h =>
    refine ⟨?_, ?_⟩
    · show Except.error _ = Except.error (some (SignatureError.unexpected text _ _))
      rw [h.offsetOf_eq]
      rfl
    · rintro _ _ _ ⟨⟩
      rw [h.offsetOf_eq]
      exact ⟨rfl, h.tellsCharacter⟩

end SameOutcome

/-- Nothing may follow, in place and among characters. -/
theorem At.finish (h : At text rest position) (hlt : rest.length < n) (a : α) :
    Agrees text n ((InPlace.finish (bytesOf text) >>= fun _ => pure a : Walk α) position)
      (readEnd (a, rest) >>= fun a => .ok (a, [])) := by
  have hrun : InPlace.finish (bytesOf text) position =
      if (bytesOf text).length ≤ position then .ok ((), position)
      else InPlace.unexpected (bytesOf text) position := by
    unfold InPlace.finish
    rw [atEnd_bind]
    by_cases hend : (bytesOf text).length ≤ position
    · rw [decide_eq_true hend, if_pos hend]
      rfl
    · rw [decide_eq_false hend, if_neg hend]
      rfl
  have hbind : (InPlace.finish (bytesOf text) >>= fun _ => pure a : Walk α) position =
      (InPlace.finish (bytesOf text) position >>= fun p => .ok (a, p.2)) := rfl
  cases rest with
  | nil =>
    rw [hbind, hrun, if_pos (h.length_le_iff.2 rfl)]
    exact .ok h hlt
  | cons c after =>
    have hfault : Agrees text n (InPlace.finish (bytesOf text) position)
        (.error (faultAt (c :: after))) := by
      rw [hrun, if_neg (mt h.length_le_iff.1 (List.cons_ne_nil c after))]
      exact h.unexpected
    have hnothing := hfault.bind_of_ok (n := n) (f := fun _ => pure a)
      (g := fun _ => .ok (a, [])) fun _ _ _ hok => nomatch hok
    exact hnothing

theorem sameOutcome_whole {read : Bytes → ℕ → Walk α} {read' : ℕ → Step α} (text : String)
    (h : Agrees text n (read (bytesOf text) (depthFor text.toList) 0)
      (read' (depthFor text.toList) text.toList)) :
    SameOutcome text (InPlace.whole read text) (Signature.whole read' text) := by
  have hall : Agrees text n
      ((read (bytesOf text) (depthFor text.toList) >>= fun a =>
        finish (bytesOf text) >>= fun _ => pure a) 0)
      (read' (depthFor text.toList) text.toList >>= fun p =>
        readEnd p >>= fun a => .ok (a, ([] : List Char))) :=
    h.bind fun a rest p hp hlt => hp.finish hlt a
  have hwhole : Signature.whole read' text =
      ((read' (depthFor text.toList) text.toList >>= fun p =>
        readEnd p >>= fun a => .ok (a, ([] : List Char))).map Prod.fst).mapError
          (·.toError text) := by
    unfold Signature.whole
    dsimp only
    rcases read' (depthFor text.toList) text.toList with fault | p
    · rfl
    · show (readEnd p).mapError _ =
        ((readEnd p >>= fun a => .ok (a, ([] : List Char))).map Prod.fst).mapError _
      rcases readEnd p with fault | a <;> rfl
  rw [hwhole]
  exact .of_agrees hall

theorem sameOutcome_parse (kind : SignatureKind) (text : String) :
    SameOutcome text (InPlace.parse kind text) (Signature.parse kind text) := by
  have hdepth : 2 * text.toList.length < depthFor text.toList := by
    unfold depthFor
    omega
  cases kind with
  | ofClass => exact (sameOutcome_whole text ((At.start text).classSignature hdepth)).map _
  | ofMethod => exact (sameOutcome_whole text ((At.start text).methodSignature hdepth)).map _
  | ofField =>
    exact (sameOutcome_whole text ((typesAgree text _).reference (.start text) hdepth)).map _

/-- Reading a signature in place, over the bytes of any text, comes to the same tree or the same
error as reading its characters. So whenever a name or a character is cut out of the text, the
cursor is where a character begins or the text ends, and the bound on the depth is not reached. An
error that tells a character tells the one that begins at its position, which is in the text. -/
theorem parse_in_place (kind : SignatureKind) (text : String) :
    (InPlace.parse kind text).mapError (Stop.toError? text) =
      (Signature.parse kind text).mapError some ∧
    InPlace.parse kind text ≠ .error .badCut ∧ InPlace.parse kind text ≠ .error .tooDeep ∧
    ∀ text' position c, Signature.parse kind text = .error (.unexpected text' position c) →
      text' = text ∧ position < text.utf8ByteSize ∧ TellsCharacter text position c := by
  obtain ⟨hsame, htells⟩ := sameOutcome_parse kind text
  have hstop (e : Stop) (he : e.toError? text = none) : InPlace.parse kind text ≠ .error e := by
    intro hparse
    rw [hparse, Except.mapError, he] at hsame
    rcases hread : Signature.parse kind text with cause | tree <;> rw [hread] at hsame <;>
      cases hsame
  refine ⟨hsame, hstop _ rfl, hstop _ rfl, fun text' position c herror => ?_⟩
  obtain ⟨rfl, hcharacter⟩ := htells text' position c herror
  exact ⟨rfl, hcharacter.lt, hcharacter⟩

/-- A name may hold a longer character, but no type begins with one. -/
example : InPlace.parse .ofField "Lü;é" = .error (.unexpected 4 'é') := rfl

end Signature.InPlace

end JarRemap
