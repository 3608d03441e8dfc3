import JarRemap.Proofs.Signature.Grammar

/-!
# Reading the types of a signature

A type is read from the front of some characters exactly if they are its written form in front of
the rest. Soundness and completeness of the three functions that call each other are each shown by
induction on the depth; only completeness needs that the depth is not reached.
-/

namespace JarRemap

namespace Signature

/-! ## Type arguments and their marks -/

/-- The mark in front of a type argument is told from the type. -/
def Marked (bound : ArgumentBound) (tail : List Char) : Prop :=
  bound = .exactly → ∃ c after, tail = c :: after ∧ c ≠ '>' ∧ c ≠ '*' ∧ c ≠ '+' ∧ c ≠ '-'

theorem exists_marked {c : Char} (after : List Char) (hclose : c ≠ '>') (hany : c ≠ '*') :
    ∃ bound tail, Marked bound tail ∧ c :: after = ArgumentBound.spell tail bound := by
  by_cases hbelow : c = '+'
  · exact ⟨.below, after, fun h => (by cases h), by rw [hbelow]; rfl⟩
  · by_cases habove : c = '-'
    · exact ⟨.above, after, fun h => (by cases h), by rw [habove]; rfl⟩
    · exact ⟨.exactly, c :: after, fun _ => ⟨c, after, rfl, hclose, hany, hbelow, habove⟩, rfl⟩

theorem marked_of_isReference {t : TypeSignature} (h : t.IsReference) (bound : ArgumentBound)
    (rest : List Char) : Marked bound (t.spell rest) := by
  intro _
  obtain ⟨c, tail, hspell, hc⟩ := h.head_spell rest
  refine ⟨c, tail, hspell, ?_⟩
  rcases hc with rfl | rfl | rfl <;> decide

theorem readArguments_marked {bound : ArgumentBound} {tail : List Char} (h : Marked bound tail)
    (depth : Nat) (done : List TypeArgument) :
    readArguments (depth + 1) done (ArgumentBound.spell tail bound) =
      (readReference depth tail >>= fun p =>
        readArguments depth (.bounded bound p.1 :: done) p.2) := by
  cases bound with
  | below => rfl
  | above => rfl
  | exactly =>
    obtain ⟨c, after, rfl, hclose, hany, hbelow, habove⟩ := h rfl
    rw [ArgumentBound.spell, readArguments, if_neg hclose, if_neg hany, if_neg hbelow,
      if_neg habove]

/-! ## Segments and their brackets -/

/-- Reads the arguments of a segment with their brackets, if it has any. -/
def readBracketed (depth : Nat) : Step (List TypeArgument)
  | '<' :: rest => readArguments depth [] rest
  | rest => .ok ([], rest)

/-- Reads what follows the segment `s` up to the end of the class type. -/
def readNested (depth : Nat) (s : ClassSegment) : Step ClassType
  | [] => .error .truncated
  | c :: rest =>
    if c = ';' then .ok (.mk s [], rest)
    else if c = '.' then do
      let (.mk next inner, rest) ← readSegments depth rest
      .ok (.mk s (next :: inner), rest)
    else if c = '>' then .error .unbalanced
    else .error (.unexpected c rest)

theorem readSegments_succ (depth : Nat) (s : List Char) :
    readSegments (depth + 1) s =
      (readName classStops s >>= fun p =>
        readBracketed depth p.2 >>= fun q => readNested depth (.mk p.1 q.1) q.2) := by
  rw [readSegments]
  refine congrArg _ (funext fun ⟨name, rest⟩ => ?_)
  dsimp only
  split
  case h_1 after =>
    rw [readBracketed]
    rcases readArguments depth [] after with e | ⟨args, _ | ⟨c, tail⟩⟩ <;> rfl
  case h_2 hopen =>
    rw [readBracketed.eq_2 depth rest hopen]
    cases rest <;> rfl

/-! ## Soundness -/

/-- At this depth, what is read is well-formed and stands at the front of the characters. -/
structure TypesSound (depth : Nat) : Prop where
  reference {s rest : List Char} {t : TypeSignature} :
    readReference depth s = .ok (t, rest) → t.IsReference ∧ t.WellFormed ∧ s = t.spell rest
  segments {s rest : List Char} {c : ClassType} :
    readSegments depth s = .ok (c, rest) → c.WellFormed ∧ 'L' :: s = c.spell rest
  arguments {done : List TypeArgument} {s rest : List Char} {args : List TypeArgument} :
    readArguments depth done s = .ok (args, rest) →
      args ≠ [] ∧ ∃ more, args = done.reverse ++ more ∧ TypeArgument.AllWellFormed more ∧
        s = TypeArgument.spellAll more ('>' :: rest)

theorem readType_sound {reference : Step TypeSignature}
    (h : ∀ {s t rest}, reference s = .ok (t, rest) →
      t.IsReference ∧ t.WellFormed ∧ s = t.spell rest)
    {s rest : List Char} {t : TypeSignature} (ht : readType reference s = .ok (t, rest)) :
    t.WellFormed ∧ s = t.spell rest := by
  rw [readType.eq_def] at ht
  split at ht
  case h_1 => exact (h ht).2
  case h_2 c after =>
    split at ht
    case h_1 p hletter =>
      cases ht
      rw [Primitive.ofLetter?_eq_some_iff.1 hletter, TypeSignature.spell]
      exact ⟨trivial, rfl⟩
    case h_2 => exact (h ht).2

theorem readBracketed_sound {depth : Nat}
    (h : ∀ {done s rest args}, readArguments depth done s = .ok (args, rest) →
      args ≠ [] ∧ ∃ more, args = done.reverse ++ more ∧ TypeArgument.AllWellFormed more ∧
        s = TypeArgument.spellAll more ('>' :: rest))
    {s rest : List Char} {args : List TypeArgument}
    (hargs : readBracketed depth s = .ok (args, rest)) :
    TypeArgument.AllWellFormed args ∧
      s = if args.isEmpty then rest else '<' :: TypeArgument.spellAll args ('>' :: rest) := by
  rw [readBracketed.eq_def] at hargs
  split at hargs
  case h_1 after =>
    obtain ⟨hne, more, rfl, hwell, rfl⟩ := h hargs
    rw [if_neg (by simpa using hne)]
    exact ⟨hwell, rfl⟩
  case h_2 =>
    cases hargs
    exact ⟨trivial, rfl⟩

variable {depth : Nat}

theorem TypesSound.reference_succ (h : TypesSound depth) {s rest : List Char} {t : TypeSignature}
    (ht : readReference (depth + 1) s = .ok (t, rest)) :
    t.IsReference ∧ t.WellFormed ∧ s = t.spell rest := by
  cases s with
  | nil => cases ht
  | cons c after =>
    rw [readReference] at ht
    split at ht
    case isTrue hc =>
      obtain ⟨⟨c', rest'⟩, hsegments, ht⟩ := except_bind_ok_iff.1 ht
      cases ht
      obtain ⟨hwell, hs⟩ := h.segments hsegments
      exact ⟨trivial, hwell, by rw [hc, hs, TypeSignature.spell]⟩
    split at ht
    case isTrue hc =>
      obtain ⟨⟨name, rest'⟩, hname, ht⟩ := except_bind_ok_iff.1 ht
      obtain ⟨⟨⟨⟩, rest''⟩, hend, ht⟩ := except_bind_ok_iff.1 ht
      cases ht
      obtain ⟨hwell, -, rfl⟩ := readName_ok_iff.1 hname
      obtain rfl := expect_ok_iff.1 hend
      exact ⟨trivial, hwell, by rw [hc, TypeSignature.spell]⟩
    split at ht
    case isTrue hc =>
      obtain ⟨⟨element, rest'⟩, helement, ht⟩ := except_bind_ok_iff.1 ht
      cases ht
      obtain ⟨hwell, rfl⟩ := readType_sound h.reference helement
      exact ⟨trivial, hwell, by rw [hc, TypeSignature.spell]⟩
    case isFalse => cases ht

theorem TypesSound.arguments_succ (h : TypesSound depth) {done : List TypeArgument}
    {s rest : List Char} {args : List TypeArgument}
    (hargs : readArguments (depth + 1) done s = .ok (args, rest)) :
    args ≠ [] ∧ ∃ more, args = done.reverse ++ more ∧ TypeArgument.AllWellFormed more ∧
      s = TypeArgument.spellAll more ('>' :: rest) := by
  cases s with
  | nil => cases hargs
  | cons c after =>
    by_cases hclose : c = '>'
    · rw [readArguments, if_pos hclose] at hargs
      split at hargs
      case isTrue => cases hargs
      case isFalse hdone =>
        cases hargs
        refine ⟨by simpa using hdone, [], (List.append_nil _).symm, trivial, ?_⟩
        rw [hclose, TypeArgument.spellAll]
    · by_cases hany : c = '*'
      · rw [readArguments, if_neg hclose, if_pos hany] at hargs
        obtain ⟨hne, more, rfl, hwell, rfl⟩ := h.arguments hargs
        refine ⟨hne, .any :: more, by simp, ⟨trivial, hwell⟩, ?_⟩
        rw [hany, TypeArgument.spellAll, TypeArgument.spell]
      · obtain ⟨bound, tail, hmarked, hs⟩ := exists_marked after hclose hany
        rw [hs] at hargs ⊢
        rw [readArguments_marked hmarked] at hargs
        obtain ⟨⟨t, rest'⟩, ht, hmore⟩ := except_bind_ok_iff.1 hargs
        obtain ⟨hreference, htwell, rfl⟩ := h.reference ht
        obtain ⟨hne, more, rfl, hwell, rfl⟩ := h.arguments hmore
        refine ⟨hne, .bounded bound t :: more, by simp, ⟨⟨hreference, htwell⟩, hwell⟩, ?_⟩
        rw [TypeArgument.spellAll, TypeArgument.spell]

theorem TypesSound.segments_succ (h : TypesSound depth) {s rest : List Char} {c : ClassType}
    (hc : readSegments (depth + 1) s = .ok (c, rest)) :
    c.WellFormed ∧ 'L' :: s = c.spell rest := by
  rw [readSegments_succ] at hc
  obtain ⟨⟨name, after⟩, hname, hc⟩ := except_bind_ok_iff.1 hc
  obtain ⟨⟨args, tail⟩, hargs, hnested⟩ := except_bind_ok_iff.1 hc
  obtain ⟨hisName, -, rfl⟩ := readName_ok_iff.1 hname
  obtain ⟨hwell, rfl⟩ := readBracketed_sound h.arguments hargs
  have hsegment : ClassSegment.WellFormed (.mk name args) := ⟨hisName, hwell⟩
  rw [← ClassSegment.spell]
  cases tail with
  | nil => cases hnested
  | cons d tail =>
    rw [readNested] at hnested
    split at hnested
    case isTrue hend =>
      cases hnested
      exact ⟨⟨hsegment, trivial⟩, by rw [hend, ClassType.spell, ClassSegment.spellInner]⟩
    split at hnested
    case isTrue hdot =>
      obtain ⟨⟨⟨next, inner⟩, rest'⟩, hnext, hnested⟩ := except_bind_ok_iff.1 hnested
      cases hnested
      obtain ⟨⟨hnextWell, hinnerWell⟩, hs⟩ := h.segments hnext
      rw [ClassType.spell, List.cons.injEq] at hs
      refine ⟨⟨hsegment, hnextWell, hinnerWell⟩, ?_⟩
      rw [hdot, hs.2, ClassType.spell, ClassSegment.spellInner]
    split at hnested
    case isTrue => cases hnested
    case isFalse => cases hnested

theorem typesSound (depth : Nat) : TypesSound depth := by
  induction depth with
  | zero =>
    exact ⟨fun h => (by cases h), fun h => (by cases h), fun h => (by cases h)⟩
  | succ depth ih => exact ⟨ih.reference_succ, ih.segments_succ, ih.arguments_succ⟩

/-! ## Completeness -/

/-- Where this depth is not reached, well-formed trees are read from their written forms. -/
structure TypesComplete (depth : Nat) : Prop where
  reference {t : TypeSignature} {rest : List Char} :
    t.IsReference → t.WellFormed → 2 * (t.spell rest).length ≤ depth →
      readReference depth (t.spell rest) = .ok (t, rest)
  segments {outer : ClassSegment} {inner : List ClassSegment} {rest : List Char} :
    outer.WellFormed → ClassSegment.AllWellFormed inner →
    2 * (outer.spell (ClassSegment.spellInner inner (';' :: rest))).length ≤ depth →
      readSegments depth (outer.spell (ClassSegment.spellInner inner (';' :: rest))) =
        .ok (.mk outer inner, rest)
  arguments {done more : List TypeArgument} {rest : List Char} :
    TypeArgument.AllWellFormed more → done ++ more ≠ [] →
    2 * (TypeArgument.spellAll more ('>' :: rest)).length + 1 ≤ depth →
      readArguments depth done (TypeArgument.spellAll more ('>' :: rest)) =
        .ok (done.reverse ++ more, rest)

theorem readType_complete {t : TypeSignature} {rest : List Char} {reference : Step TypeSignature}
    (h : t.IsReference → reference (t.spell rest) = .ok (t, rest)) :
    readType reference (t.spell rest) = .ok (t, rest) := by
  by_cases hreference : t.IsReference
  · obtain ⟨c, tail, hspell, hc⟩ := hreference.head_spell rest
    have hletter : Primitive.ofLetter? c = none := by
      rcases hc with rfl | rfl | rfl <;> rfl
    rw [← h hreference, hspell, readType]
    simp only [hletter]
  · cases t with
    | primitive p =>
      rw [TypeSignature.spell, readType]
      simp only [Primitive.ofLetter?_eq_some_iff.2 rfl]
    | typeVariable name => exact absurd trivial hreference
    | array element => exact absurd trivial hreference
    | classType c => exact absurd trivial hreference

theorem TypesComplete.reference_succ (h : TypesComplete depth) {t : TypeSignature}
    {rest : List Char} (hreference : t.IsReference) (hwell : t.WellFormed)
    (hdepth : 2 * (t.spell rest).length ≤ depth + 1) :
    readReference (depth + 1) (t.spell rest) = .ok (t, rest) := by
  cases t with
  | primitive p => exact hreference.elim
  | typeVariable name =>
    have hname : readName variableStops (name.toList ++ ';' :: rest) = .ok (name, ';' :: rest) :=
      readName_ok_iff.2 ⟨hwell, by rintro c ⟨⟩; decide, rfl⟩
    rw [TypeSignature.spell, readReference, if_neg (by decide), if_pos rfl, hname]
    rfl
  | array element =>
    rw [TypeSignature.spell, List.length_cons] at hdepth
    have helement : readType (readReference depth) (element.spell rest) = .ok (element, rest) :=
      readType_complete fun helement => h.reference helement hwell (by omega)
    rw [TypeSignature.spell, readReference, if_neg (by decide), if_neg (by decide), if_pos rfl,
      helement]
    rfl
  | classType c =>
    obtain ⟨outer, inner⟩ := c
    rw [TypeSignature.spell, ClassType.spell, List.length_cons] at hdepth
    rw [TypeSignature.spell, ClassType.spell, readReference, if_pos rfl,
      h.segments hwell.1 hwell.2 (by omega)]
    rfl

theorem TypesComplete.arguments_succ (h : TypesComplete depth) {done more : List TypeArgument}
    {rest : List Char} (hwell : TypeArgument.AllWellFormed more) (hne : done ++ more ≠ [])
    (hdepth : 2 * (TypeArgument.spellAll more ('>' :: rest)).length + 1 ≤ depth + 1) :
    readArguments (depth + 1) done (TypeArgument.spellAll more ('>' :: rest)) =
      .ok (done.reverse ++ more, rest) := by
  rcases more with _ | ⟨_ | ⟨bound, t⟩, more⟩
  · rw [List.append_nil] at hne ⊢
    rw [TypeArgument.spellAll, readArguments, if_pos rfl, if_neg (by simpa using hne)]
  · rw [TypeArgument.spellAll, TypeArgument.spell] at hdepth ⊢
    rw [List.length_cons] at hdepth
    rw [readArguments, if_neg (by decide), if_pos rfl,
      h.arguments hwell.2 (List.append_ne_nil_of_left_ne_nil (List.cons_ne_nil _ _) _) (by omega)]
    simp
  · rw [TypeArgument.spellAll, TypeArgument.spell] at hdepth ⊢
    obtain ⟨⟨hreference, htwell⟩, hmore⟩ := hwell
    have hlength := t.length_spell_lt (TypeArgument.spellAll more ('>' :: rest))
    have hmark := ArgumentBound.length_spell_le bound
      (t.spell (TypeArgument.spellAll more ('>' :: rest)))
    rw [readArguments_marked (marked_of_isReference hreference bound _),
      h.reference hreference htwell (by omega)]
    refine (h.arguments hmore (List.append_ne_nil_of_left_ne_nil (List.cons_ne_nil _ _) _)
      (by omega)).trans ?_
    simp

/-- What stands in front of the nested segments ends the name of a class and opens no bracket. -/
theorem head_spellInner (inner : List ClassSegment) (rest : List Char) :
    ∃ c tail, ClassSegment.spellInner inner (';' :: rest) = c :: tail ∧ (c = ';' ∨ c = '.') := by
  cases inner with
  | nil => exact ⟨';', rest, by rw [ClassSegment.spellInner], .inl rfl⟩
  | cons s more => exact ⟨'.', _, by rw [ClassSegment.spellInner], .inr rfl⟩

theorem TypesComplete.bracketed (h : TypesComplete depth) {args : List TypeArgument}
    (hargs : TypeArgument.AllWellFormed args) {c : Char} {rest : List Char} (hc : c ≠ '<')
    (hdepth : args ≠ [] →
      2 * (TypeArgument.spellAll args ('>' :: c :: rest)).length + 1 ≤ depth) :
    readBracketed depth
        (if args.isEmpty then c :: rest else '<' :: TypeArgument.spellAll args ('>' :: c :: rest)) =
      .ok (args, c :: rest) := by
  by_cases hempty : args = []
  · rw [hempty]
    exact readBracketed.eq_2 depth _ fun after h => hc (List.cons.inj h).1
  · rw [if_neg (by simpa using hempty), readBracketed,
      h.arguments hargs (by simpa using hempty) (hdepth hempty)]
    rfl

theorem TypesComplete.nested (h : TypesComplete depth) (s : ClassSegment) (rest : List Char)
    {inner : List ClassSegment} (hinner : ClassSegment.AllWellFormed inner)
    (hdepth : 2 * (ClassSegment.spellInner inner (';' :: rest)).length ≤ depth + 2) :
    readNested depth s (ClassSegment.spellInner inner (';' :: rest)) = .ok (.mk s inner, rest) := by
  cases inner with
  | nil => rw [ClassSegment.spellInner, readNested, if_pos rfl]
  | cons next more =>
    rw [ClassSegment.spellInner, List.length_cons] at hdepth
    rw [ClassSegment.spellInner, readNested, if_neg (by decide), if_pos rfl,
      h.segments hinner.1 hinner.2 (by omega)]
    rfl

theorem TypesComplete.segments_succ (h : TypesComplete depth) {outer : ClassSegment}
    {inner : List ClassSegment} {rest : List Char} (houter : outer.WellFormed)
    (hinner : ClassSegment.AllWellFormed inner)
    (hdepth : 2 * (outer.spell (ClassSegment.spellInner inner (';' :: rest))).length ≤ depth + 1) :
    readSegments (depth + 1) (outer.spell (ClassSegment.spellInner inner (';' :: rest))) =
      .ok (.mk outer inner, rest) := by
  obtain ⟨name, args⟩ := outer
  obtain ⟨hname, hargs⟩ := houter
  have hnested := h.nested (.mk name args) rest hinner
  obtain ⟨c, tail, hafter, hc⟩ := head_spellInner inner rest
  rw [hafter] at hdepth hnested ⊢
  rw [ClassSegment.spell, List.length_append] at hdepth
  have hlength : 0 < name.toList.length :=
    List.length_pos_iff.2 fun hnil => hname.nonempty (String.toList_eq_nil_iff.1 hnil)
  have hread : readName classStops (ClassSegment.spell (.mk name args) (c :: tail)) =
      .ok (name, if args.isEmpty then c :: tail
        else '<' :: TypeArgument.spellAll args ('>' :: c :: tail)) := by
    refine readName_ok_iff.2 ⟨hname, fun d hd => ?_, by rw [ClassSegment.spell]⟩
    split at hd
    case isTrue =>
      cases hd
      rcases hc with rfl | rfl <;> decide
    case isFalse =>
      cases hd
      decide
  have hbracketed : readBracketed depth (if args.isEmpty then c :: tail
      else '<' :: TypeArgument.spellAll args ('>' :: c :: tail)) = .ok (args, c :: tail) := by
    refine h.bracketed hargs (by rcases hc with rfl | rfl <;> decide) fun hne => ?_
    rw [if_neg (by simpa using hne), List.length_cons] at hdepth
    omega
  rw [readSegments_succ, hread]
  refine except_bind_ok_iff.2 ⟨_, rfl, except_bind_ok_iff.2 ⟨_, hbracketed, hnested ?_⟩⟩
  split at hdepth
  case isTrue => omega
  case isFalse =>
    have := TypeArgument.length_spellAll_le args ('>' :: c :: tail)
    rw [List.length_cons] at this hdepth
    omega

theorem typesComplete (depth : Nat) : TypesComplete depth := by
  induction depth with
  | zero =>
    -- No written form is empty.
    refine ⟨?_, ?_, ?_⟩
    · intro t rest _ _ hdepth
      have := t.length_spell_lt rest
      omega
    · intro outer inner rest _ _ hdepth
      have houter := outer.length_spell_le (ClassSegment.spellInner inner (';' :: rest))
      have hinner := ClassSegment.length_spellInner_le inner (';' :: rest)
      rw [List.length_cons] at hinner
      omega
    · intro done more rest _ _ hdepth
      omega
  | succ depth ih => exact ⟨ih.reference_succ, ih.segments_succ, ih.arguments_succ⟩

/-! ## Types, read exactly -/

theorem readReference_ok_iff {s rest : List Char} {t : TypeSignature}
    (hdepth : 2 * s.length ≤ depth) :
    readReference depth s = .ok (t, rest) ↔ (t.IsReference ∧ t.WellFormed) ∧ s = t.spell rest := by
  constructor
  · intro h
    obtain ⟨hreference, hwell, hs⟩ := (typesSound depth).reference h
    exact ⟨⟨hreference, hwell⟩, hs⟩
  · rintro ⟨⟨hreference, hwell⟩, rfl⟩
    exact (typesComplete depth).reference hreference hwell hdepth

theorem readType_ok_iff {s rest : List Char} {t : TypeSignature} (hdepth : 2 * s.length ≤ depth) :
    readType (readReference depth) s = .ok (t, rest) ↔ t.WellFormed ∧ s = t.spell rest := by
  refine ⟨readType_sound (typesSound depth).reference, ?_⟩
  rintro ⟨hwell, rfl⟩
  exact readType_complete fun h => (typesComplete depth).reference h hwell hdepth

theorem readClassType_ok_iff {s rest : List Char} {c : ClassType} (hdepth : 2 * s.length ≤ depth) :
    readClassType depth s = .ok (c, rest) ↔ c.WellFormed ∧ s = c.spell rest := by
  rw [readClassType]
  constructor
  · intro h
    obtain ⟨⟨⟨⟩, after⟩, hmark, h⟩ := except_bind_ok_iff.1 h
    obtain rfl := expect_ok_iff.1 hmark
    exact (typesSound depth).segments h
  · rintro ⟨hwell, rfl⟩
    obtain ⟨outer, inner⟩ := c
    rw [ClassType.spell, List.length_cons] at hdepth
    refine except_bind_ok_iff.2 ⟨_, expect_ok_iff.2 (by rw [ClassType.spell]), ?_⟩
    exact (typesComplete depth).segments hwell.1 hwell.2 (by omega)

end Signature

end JarRemap
