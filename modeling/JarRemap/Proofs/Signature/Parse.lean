import JarRemap.Proofs.Signature.Types
import Mathlib.Data.Set.Function

/-!
# Reading whole signatures

A text is read as a signature exactly if it is the written form of a well-formed tree, which is the
one it is read as. Rows of parts are read alike, so what a row can hold is said once: a part may be
bound to what stands behind it, as a type parameter without bounds is.
-/

namespace JarRemap

namespace Signature

variable {α : Type}

/-! ## Rows of parts -/

/-- Up to a length, `read` takes the written forms of what is `ok` in front of the rest, and nothing
else. -/
def Exact (n : Nat) (read : Step α) (ok : α → List Char → Prop)
    (spell : α → List Char → List Char) : Prop :=
  ∀ ⦃s a rest⦄, s.length ≤ n → (read s = .ok (a, rest) ↔ ok a rest ∧ s = spell a rest)

/-- Each part of a row is `ok` in front of those behind it and the rest. -/
def RowOk (ok : α → List Char → Prop) (spell : α → List Char → List Char) :
    List α → List Char → Prop
  | [], _ => True
  | a :: more, rest => ok a (more.foldr spell rest) ∧ RowOk ok spell more rest

theorem rowOk_of_forall {p : α → Prop} {spell : α → List Char → List Char} {l : List α}
    {rest : List Char} : RowOk (fun a _ => p a) spell l rest ↔ ∀ a ∈ l, p a := by
  induction l with
  | nil => simp [RowOk]
  | cons a more ih => rw [RowOk, ih, List.forall_mem_cons]

theorem length_foldr_spell_le {spell : α → List Char → List Char}
    (h : ∀ a rest, rest.length ≤ (spell a rest).length) (l : List α) (rest : List Char) :
    rest.length ≤ (l.foldr spell rest).length := by
  induction l with
  | nil => exact le_rfl
  | cons a more ih => exact ih.trans (h a _)

section Rows

variable {ok : α → List Char → Prop} {spell : α → List Char → List Char} {part : Step α}
  {more : List Char → Bool} {n : Nat}

theorem readWhile_of_not_more {s : List Char} (h : more s = false) (bound : Nat) (done : List α) :
    readWhile more part bound done s = .ok (done.reverse, s) := by
  cases bound <;> rw [readWhile, if_neg (by simp [h])]

theorem readWhile_ok_iff (hpart : Exact n part ok spell)
    (hlength : ∀ a rest, rest.length < (spell a rest).length)
    (hmore : ∀ a rest, ok a rest → more (spell a rest) = true) (bound : Nat) {done l : List α}
    {s rest : List Char} (hn : s.length ≤ n) (hbound : s.length ≤ bound) :
    readWhile more part bound done s = .ok (l, rest) ↔
      ∃ new, l = done.reverse ++ new ∧ RowOk ok spell new rest ∧ s = new.foldr spell rest ∧
        more rest = false := by
  constructor
  · intro h
    clear hbound
    induction bound generalizing done s with
    | zero =>
      rw [readWhile] at h
      split at h
      case isTrue => cases h
      case isFalse hstop =>
        cases h
        exact ⟨[], (List.append_nil _).symm, trivial, rfl, by simpa using hstop⟩
    | succ bound ih =>
      rw [readWhile] at h
      split at h
      case isTrue =>
        obtain ⟨⟨a, after⟩, ha, hnext⟩ := except_bind_ok_iff.1 h
        obtain ⟨hok, rfl⟩ := (hpart hn).1 ha
        have := hlength a after
        obtain ⟨new, rfl, hrow, rfl, hstop⟩ := ih (by omega) hnext
        exact ⟨a :: new, by simp, ⟨hok, hrow⟩, rfl, hstop⟩
      case isFalse hstop =>
        cases h
        exact ⟨[], (List.append_nil _).symm, trivial, rfl, by simpa using hstop⟩
  · rintro ⟨new, rfl, hrow, rfl, hstop⟩
    induction new generalizing done bound with
    | nil =>
      rw [List.append_nil]
      exact readWhile_of_not_more hstop bound done
    | cons a new ih =>
      obtain ⟨hok, hrow⟩ := hrow
      rw [List.foldr_cons] at hn hbound ⊢
      have hlt := hlength a (new.foldr spell rest)
      cases bound with
      | zero => omega
      | succ bound =>
        rw [readWhile, if_pos (hmore a _ hok)]
        refine except_bind_ok_iff.2 ⟨_, (hpart hn).2 ⟨hok, rfl⟩, ?_⟩
        refine (ih bound hrow (by omega) (by omega)).trans ?_
        simp

/-- A row is read exactly, if its parts are. -/
theorem readParts_ok_iff (hpart : Exact n part ok spell)
    (hlength : ∀ a rest, rest.length < (spell a rest).length)
    (hmore : ∀ a rest, ok a rest → more (spell a rest) = true) {bound : Nat} {l : List α}
    {s rest : List Char} (hn : s.length ≤ n) (hbound : s.length ≤ bound) :
    readParts bound more part s = .ok (l, rest) ↔
      (RowOk ok spell l rest ∧ more rest = false) ∧ s = l.foldr spell rest := by
  rw [readParts, readWhile_ok_iff hpart hlength hmore bound hn hbound]
  constructor
  · rintro ⟨new, rfl, hrow, hs, hstop⟩
    exact ⟨⟨hrow, hstop⟩, hs⟩
  · rintro ⟨⟨hrow, hstop⟩, hs⟩
    exact ⟨l, rfl, hrow, hs, hstop⟩

end Rows

variable {depth : Nat}

/-- The written form of a type behind the character `mark`. -/
def spellMarked (mark : Char) (t : TypeSignature) (rest : List Char) : List Char :=
  mark :: t.spell rest

theorem readMarked_ok_iff {mark : Char} {types : List TypeSignature} {s rest : List Char}
    (hdepth : 2 * s.length ≤ depth) :
    readMarked depth mark s = .ok (types, rest) ↔
      ((∀ t ∈ types, t.IsReference ∧ t.WellFormed) ∧ rest.head? ≠ some mark) ∧
        s = types.foldr (spellMarked mark) rest := by
  have hread : readMarked depth mark s =
      readParts depth (fun s => s.head? == some mark)
        (fun s => expect mark s >>= fun p => readReference depth p.2) s := rfl
  have hpart : Exact s.length (fun s => expect mark s >>= fun p => readReference depth p.2)
      (fun t _ => t.IsReference ∧ t.WellFormed) (spellMarked mark) := by
    intro s' t rest' hs'
    constructor
    · intro h
      obtain ⟨⟨⟨⟩, after⟩, hmark, ht⟩ := except_bind_ok_iff.1 h
      obtain rfl := expect_ok_iff.1 hmark
      rw [List.length_cons] at hs'
      have hafter : 2 * after.length ≤ depth := by omega
      obtain ⟨hwell, rfl⟩ := (readReference_ok_iff hafter).1 ht
      exact ⟨hwell, rfl⟩
    · rintro ⟨hwell, rfl⟩
      rw [spellMarked, List.length_cons] at hs'
      have hafter : 2 * (t.spell rest').length ≤ depth := by omega
      refine except_bind_ok_iff.2 ⟨_, expect_ok_iff.2 rfl, ?_⟩
      exact (readReference_ok_iff hafter).2 ⟨hwell, rfl⟩
  rw [hread, readParts_ok_iff hpart ?_ ?_ le_rfl (by omega), rowOk_of_forall]
  · simp
  · intro t rest'
    have := t.length_spell_lt rest'
    rw [spellMarked, List.length_cons]
    omega
  · intro t rest' _
    simp [spellMarked]

/-! ## Type parameters -/

/-- The written form of a class bound, if there is one. -/
def spellClassBound (bound : Option TypeSignature) (rest : List Char) : List Char :=
  (bound.map fun t => t.spell rest).getD rest

/-- Reads a class bound, if one begins here. -/
def readClassBound (depth : Nat) : Step (Option TypeSignature) := fun s =>
  if beginsReference s then do
    let (t, rest) ← readReference depth s
    .ok (some t, rest)
  else .ok (none, s)

theorem readTypeParameter_eq (depth : Nat) (s : List Char) :
    readTypeParameter depth s =
      (readName parameterStops s >>= fun name => expect ':' name.2 >>= fun colon =>
        readClassBound depth colon.2 >>= fun bound => readMarked depth ':' bound.2 >>= fun bounds =>
          .ok (⟨name.1, bound.1, bounds.1⟩, bounds.2)) := by
  rw [readTypeParameter]
  refine congrArg _ (funext fun ⟨name, rest⟩ => ?_)
  refine congrArg (expect ':' rest >>= ·) (funext fun ⟨⟨⟩, rest⟩ => ?_)
  rw [readClassBound]
  dsimp only
  split
  case isTrue => rcases readReference depth rest with e | ⟨t, rest⟩ <;> rfl
  case isFalse => rfl

theorem length_spellClassBound_le (bound : Option TypeSignature) (rest : List Char) :
    rest.length ≤ (spellClassBound bound rest).length := by
  rcases bound with _ | t
  · exact le_rfl
  · exact (t.length_spell_lt rest).le

theorem beginsReference_iff {s : List Char} : beginsReference s = true ↔ BeginsReference s := by
  cases s <;> simp [beginsReference, BeginsReference, or_assoc]

theorem readClassBound_ok_iff {s rest : List Char} {bound : Option TypeSignature}
    (hdepth : 2 * s.length ≤ depth) :
    readClassBound depth s = .ok (bound, rest) ↔
      ((∀ t ∈ bound, t.IsReference ∧ t.WellFormed) ∧ (bound = none → ¬ BeginsReference rest)) ∧
        s = spellClassBound bound rest := by
  rw [readClassBound]
  constructor
  · intro h
    split at h
    case isTrue =>
      obtain ⟨⟨t, after⟩, ht, h⟩ := except_bind_ok_iff.1 h
      cases h
      obtain ⟨hwell, hs⟩ := (readReference_ok_iff hdepth).1 ht
      refine ⟨⟨?_, fun h => (by cases h)⟩, hs⟩
      rintro t ⟨⟩
      exact hwell
    case isFalse hnone =>
      cases h
      exact ⟨⟨fun t ht => (by cases ht), fun _ => fun h => hnone (beginsReference_iff.2 h)⟩, rfl⟩
  · rintro ⟨⟨hwell, hnone⟩, rfl⟩
    cases bound with
    | none => exact if_neg fun h => hnone rfl (beginsReference_iff.1 h)
    | some t =>
      have hbegins : beginsReference (t.spell rest) = true := by
        obtain ⟨c, tail, hspell, hc⟩ := (hwell t rfl).1.head_spell rest
        exact beginsReference_iff.2 ⟨c, by rw [hspell]; rfl, hc⟩
      have hread : readReference depth (t.spell rest) = .ok (t, rest) :=
        (readReference_ok_iff hdepth).2 ⟨hwell t rfl, rfl⟩
      rw [spellClassBound, Option.map_some, Option.getD_some, if_pos hbegins, hread]
      rfl

end Signature

open Signature

theorem TypeParameter.spell_eq (p : TypeParameter) (rest : List Char) :
    p.spell rest = p.name.toList ++
      ':' :: spellClassBound p.classBound (p.interfaceBounds.foldr (spellMarked ':') rest) :=
  rfl

/-- The type parameter is well-formed and told from what follows. -/
def TypeParameter.Told (p : TypeParameter) (rest : List Char) : Prop :=
  p.WellFormed ∧ rest.head? ≠ some ':' ∧ (p.Bare → ¬ BeginsReference rest)

theorem TypeParameter.length_spell_lt (p : TypeParameter) (rest : List Char) :
    rest.length < (p.spell rest).length := by
  have hmarked : ∀ t rest, rest.length ≤ (spellMarked ':' t rest).length := by
    intro t rest
    have := t.length_spell_lt rest
    rw [spellMarked, List.length_cons]
    omega
  have hbounds := length_foldr_spell_le hmarked p.interfaceBounds rest
  have hbound := length_spellClassBound_le p.classBound
    (p.interfaceBounds.foldr (spellMarked ':') rest)
  rw [spell_eq, List.length_append, List.length_cons]
  omega

namespace Signature

theorem readTypeParameter_ok_iff {s rest : List Char} {p : TypeParameter}
    (hdepth : 2 * s.length ≤ depth) :
    readTypeParameter depth s = .ok (p, rest) ↔ p.Told rest ∧ s = p.spell rest := by
  obtain ⟨name, bound, bounds⟩ := p
  rw [readTypeParameter_eq, TypeParameter.spell_eq]
  constructor
  · intro h
    obtain ⟨⟨name', after⟩, hname, htail⟩ := except_bind_ok_iff.1 h
    obtain ⟨⟨⟨⟩, colon⟩, hcolon, htail⟩ := except_bind_ok_iff.1 htail
    obtain ⟨⟨bound', middle⟩, hbound, htail⟩ := except_bind_ok_iff.1 htail
    obtain ⟨⟨bounds', rest'⟩, hbounds, hend⟩ := except_bind_ok_iff.1 htail
    cases hend
    obtain ⟨hisName, -, rfl⟩ := readName_ok_iff.1 hname
    obtain rfl := expect_ok_iff.1 hcolon
    rw [List.length_append, List.length_cons] at hdepth
    obtain ⟨⟨hboundWell, hnone⟩, rfl⟩ := (readClassBound_ok_iff (s := colon) (by omega)).1 hbound
    have hlength := length_spellClassBound_le bound' middle
    obtain ⟨⟨hboundsWell, hstop⟩, rfl⟩ := (readMarked_ok_iff (s := middle) (by omega)).1 hbounds
    refine ⟨⟨⟨hisName, fun t ht => ?_⟩, hstop, fun ⟨hbare, hempty⟩ => ?_⟩, rfl⟩
    · rcases List.mem_append.1 ht with ht | ht
      · exact hboundWell t (Option.mem_toList.1 ht)
      · exact hboundsWell t ht
    · obtain rfl : bounds' = [] := hempty
      exact hnone hbare
  · rintro ⟨⟨⟨hname, hbounds⟩, hstop, hbare⟩, rfl⟩
    -- An interface bound begins with a colon, so only a type parameter without any bound may be
    -- taken to have a class bound.
    have hnone : bound = none → ¬ BeginsReference (bounds.foldr (spellMarked ':') rest) := by
      intro hbound
      cases bounds with
      | nil => exact hbare ⟨hbound, rfl⟩
      | cons t more =>
        rintro ⟨c, ⟨⟩, hc⟩
        revert hc
        decide
    rw [List.length_append, List.length_cons] at hdepth
    dsimp only at hdepth hstop
    have hlength := length_spellClassBound_le bound (bounds.foldr (spellMarked ':') rest)
    have hreadBound : readClassBound depth
        (spellClassBound bound (bounds.foldr (spellMarked ':') rest)) =
          .ok (bound, bounds.foldr (spellMarked ':') rest) := by
      refine (readClassBound_ok_iff (by omega)).2 ⟨⟨fun t ht => ?_, hnone⟩, rfl⟩
      exact hbounds t (List.mem_append_left _ (Option.mem_toList.2 ht))
    have hreadBounds : readMarked depth ':' (bounds.foldr (spellMarked ':') rest) =
        .ok (bounds, rest) := by
      refine (readMarked_ok_iff (by omega)).2 ⟨⟨fun t ht => ?_, hstop⟩, rfl⟩
      exact hbounds t (List.mem_append_right _ ht)
    refine except_bind_ok_iff.2 ⟨_, readName_ok_iff.2 ⟨hname, ?_, rfl⟩, ?_⟩
    · rintro c ⟨⟩
      decide
    exact except_bind_ok_iff.2 ⟨_, expect_ok_iff.2 rfl, except_bind_ok_iff.2
      ⟨_, hreadBound, except_bind_ok_iff.2 ⟨_, hreadBounds, rfl⟩⟩⟩

theorem beginsReference_append {a : List Char} (ha : a ≠ []) (rest : List Char) :
    BeginsReference (a ++ rest) ↔ BeginsReference a := by
  cases a with
  | nil => exact absurd rfl ha
  | cons c after => rfl

/-- Behind a type parameter stands the name of the next one or the bracket that closes the row. -/
theorem rowOk_told_iff {params : List TypeParameter} {rest : List Char} :
    RowOk TypeParameter.Told TypeParameter.spell params ('>' :: rest) ↔
      TypeParameter.RowWellFormed params := by
  induction params with
  | nil => exact ⟨fun _ => ⟨fun p hp => (by cases hp), .nil⟩, fun _ => trivial⟩
  | cons p more ih =>
    rw [RowOk, ih, TypeParameter.Told]
    cases more with
    | nil =>
      have hclose : ¬ BeginsReference ('>' :: rest) := by
        rintro ⟨c, ⟨⟩, hc⟩
        revert hc
        decide
      constructor
      · rintro ⟨⟨hp, -, -⟩, -⟩
        exact ⟨by simpa using hp, .singleton p⟩
      · rintro ⟨heach, -⟩
        exact ⟨⟨heach p (by simp), by simp, fun _ => hclose⟩, fun q hq => (by cases hq), .nil⟩
    | cons q more =>
      have hname : q.WellFormed → q.name.toList ≠ [] :=
        fun hq hnil => hq.name.nonempty (String.toList_eq_nil_iff.1 hnil)
      rw [List.foldr_cons, TypeParameter.spell_eq]
      constructor
      · rintro ⟨⟨hp, -, hbare⟩, heach, hrow⟩
        have hq := heach q (by simp)
        rw [beginsReference_append (hname hq)] at hbare
        exact ⟨List.forall_mem_cons.2 ⟨hp, heach⟩, .cons_cons hbare hrow⟩
      · rintro ⟨heach, hrow⟩
        obtain ⟨hp, heach⟩ := List.forall_mem_cons.1 heach
        have hq := heach q (by simp)
        rw [List.isChain_cons_cons] at hrow
        refine ⟨⟨hp, ?_, ?_⟩, heach, hrow.2⟩
        · rw [List.head?_append_of_ne_nil _ (hname hq)]
          exact fun hcolon => hq.name.free _ (List.mem_of_mem_head? hcolon) (by decide)
        · rw [beginsReference_append (hname hq)]
          exact hrow.1

/-- The type parameters between the brackets. -/
theorem readTypeParameterRow_ok_iff {s rest : List Char} {params : List TypeParameter}
    (hdepth : 2 * s.length ≤ depth) :
    readParts depth (fun s => !s.isEmpty && s.head? != some '>') (readTypeParameter depth) s =
        .ok (params, rest) ↔
      (RowOk TypeParameter.Told TypeParameter.spell params rest ∧
        (!rest.isEmpty && rest.head? != some '>') = false) ∧
        s = params.foldr TypeParameter.spell rest := by
  refine readParts_ok_iff (n := s.length) ?_ TypeParameter.length_spell_lt ?_ le_rfl (by omega)
  · intro s' p rest' hs
    exact readTypeParameter_ok_iff (by omega)
  · rintro p rest' ⟨hp, -⟩
    rw [TypeParameter.spell_eq]
    rcases hname : p.name.toList with _ | ⟨c, more⟩
    · exact absurd (String.toList_eq_nil_iff.1 hname) hp.name.nonempty
    · have hc : c ≠ '>' := by
        rintro rfl
        exact hp.name.free '>' (by simp [hname]) (by decide)
      simpa using hc

theorem readTypeParameters_ok_iff {s rest : List Char} {params : List TypeParameter}
    (hdepth : 2 * s.length ≤ depth) :
    readTypeParameters depth s = .ok (params, rest) ↔
      (TypeParameter.RowWellFormed params ∧ (params = [] → rest.head? ≠ some '<')) ∧
        s = TypeParameter.spellAll params rest := by
  rw [readTypeParameters.eq_def]
  split
  case h_1 after =>
    rw [List.length_cons] at hdepth
    constructor
    · intro h
      obtain ⟨⟨params', tail⟩, hread, htail⟩ := except_bind_ok_iff.1 h
      cases tail with
      | nil => cases htail
      | cons d tail =>
        dsimp only at htail
        split at htail
        case isTrue => cases htail
        case isFalse hempty =>
          cases htail
          obtain ⟨⟨hrow, hstop⟩, rfl⟩ := (readTypeParameterRow_ok_iff (by omega)).1 hread
          obtain rfl : d = '>' := by simpa using hstop
          refine ⟨⟨rowOk_told_iff.1 hrow, fun hnil => absurd (List.isEmpty_iff.2 hnil) hempty⟩, ?_⟩
          rw [TypeParameter.spellAll, if_neg hempty]
    · rintro ⟨⟨hwell, hclosed⟩, hs⟩
      rw [TypeParameter.spellAll] at hs
      split at hs
      case isTrue hempty =>
        rw [← hs] at hclosed
        exact absurd rfl (hclosed (List.isEmpty_iff.1 hempty))
      case isFalse hempty =>
        have hafter : 2 * after.length ≤ depth := by omega
        have hread := (readTypeParameterRow_ok_iff hafter).2
          ⟨⟨rowOk_told_iff.2 hwell, rfl⟩, (List.cons.inj hs).2⟩
        refine except_bind_ok_iff.2 ⟨_, hread, ?_⟩
        dsimp only
        rw [if_neg hempty]
  case h_2 hopen =>
    constructor
    · rintro ⟨⟩
      refine ⟨⟨⟨fun p hp => (by cases hp), .nil⟩, fun _ hhead => ?_⟩, rfl⟩
      obtain ⟨after, rfl⟩ := List.head?_eq_some_iff.1 hhead
      exact hopen after rfl
    · rintro ⟨-, hs⟩
      rw [TypeParameter.spellAll] at hs
      split at hs
      case isTrue hempty =>
        rw [List.isEmpty_iff.1 hempty, hs]
      case isFalse => exact absurd hs (hopen _)

/-! ## Whole signatures -/

theorem TypeParameter.length_spellAll_le (params : List TypeParameter) (rest : List Char) :
    rest.length ≤ (TypeParameter.spellAll params rest).length := by
  rw [TypeParameter.spellAll]
  split
  case isTrue => exact le_rfl
  case isFalse =>
    have := length_foldr_spell_le (fun p rest => (TypeParameter.length_spell_lt p rest).le) params
      ('>' :: rest)
    rw [List.length_cons] at this ⊢
    omega

/-- The interfaces, up to the end. -/
theorem readInterfaces_ok_iff {s : List Char} {interfaces : List ClassType}
    (hdepth : 2 * s.length ≤ depth) :
    readParts depth (fun s => !s.isEmpty) (readClassType depth) s = .ok (interfaces, []) ↔
      (∀ c ∈ interfaces, c.WellFormed) ∧ s = interfaces.foldr ClassType.spell [] := by
  have hpart : Exact s.length (readClassType depth) (fun c _ => c.WellFormed)
      ClassType.spell := fun s' c rest hs => readClassType_ok_iff (by omega)
  rw [readParts_ok_iff hpart ClassType.length_spell_lt ?_ le_rfl (by omega), rowOk_of_forall]
  · simp
  · rintro ⟨outer, inner⟩ rest _
    rw [ClassType.spell]
    rfl

theorem readClass_ok_iff {s : List Char} {c : ClassSignature} (hdepth : 2 * s.length ≤ depth) :
    readClass depth s = .ok (c, []) ↔ c.WellFormed ∧ s = c.chars := by
  obtain ⟨typeParams, superclass, interfaces⟩ := c
  rw [readClass, ClassSignature.chars]
  constructor
  · intro h
    obtain ⟨⟨params, after⟩, hparams, htail⟩ := except_bind_ok_iff.1 h
    obtain ⟨⟨super, after'⟩, hsuper, htail⟩ := except_bind_ok_iff.1 htail
    obtain ⟨⟨interfaces', rest⟩, hread, hend⟩ := except_bind_ok_iff.1 htail
    cases hend
    obtain ⟨⟨hrow, -⟩, rfl⟩ := (readTypeParameters_ok_iff hdepth).1 hparams
    have hlength := TypeParameter.length_spellAll_le typeParams after
    obtain ⟨hwell, rfl⟩ := (readClassType_ok_iff (s := after) (by omega)).1 hsuper
    have := superclass.length_spell_lt after'
    obtain ⟨hall, rfl⟩ := (readInterfaces_ok_iff (by omega)).1 hread
    exact ⟨⟨hrow, hwell, hall⟩, rfl⟩
  · rintro ⟨⟨hparams, hsuper, hall⟩, rfl⟩
    dsimp only at hparams hsuper hall hdepth ⊢
    have hlength := TypeParameter.length_spellAll_le typeParams
      (superclass.spell (interfaces.foldr ClassType.spell []))
    have := superclass.length_spell_lt (interfaces.foldr ClassType.spell [])
    have hopen : (superclass.spell (interfaces.foldr ClassType.spell [])).head? ≠ some '<' := by
      obtain ⟨outer, inner⟩ := superclass
      rw [ClassType.spell]
      simp
    have hreadSuper : readClassType depth (superclass.spell (interfaces.foldr ClassType.spell [])) =
        .ok (superclass, interfaces.foldr ClassType.spell []) :=
      (readClassType_ok_iff (by omega)).2 ⟨hsuper, rfl⟩
    have hrest : 2 * (interfaces.foldr ClassType.spell []).length ≤ depth := by omega
    have hreadAll := (readInterfaces_ok_iff hrest).2 ⟨hall, rfl⟩
    refine except_bind_ok_iff.2
      ⟨_, (readTypeParameters_ok_iff hdepth).2 ⟨⟨hparams, fun _ => hopen⟩, rfl⟩, ?_⟩
    exact except_bind_ok_iff.2 ⟨_, hreadSuper, except_bind_ok_iff.2 ⟨_, hreadAll, rfl⟩⟩

/-- The written form of a return type, where there may be none. -/
def spellReturn (ret : Option TypeSignature) (rest : List Char) : List Char :=
  (ret.map fun t => t.spell rest).getD ('V' :: rest)

theorem length_spellReturn_le (ret : Option TypeSignature) (rest : List Char) :
    rest.length ≤ (spellReturn ret rest).length := by
  rcases ret with _ | t
  · exact Nat.le_succ _
  · exact (t.length_spell_lt rest).le

/-- No type begins as the end of a parameter list or as no return type does. -/
theorem head_spell (t : TypeSignature) (rest : List Char) :
    ∃ c tail, t.spell rest = c :: tail ∧ c ≠ ')' ∧ c ≠ 'V' := by
  cases t with
  | primitive p => exact ⟨p.letter, rest, by rw [TypeSignature.spell], by cases p <;> decide⟩
  | typeVariable name => exact ⟨'T', _, by rw [TypeSignature.spell], by decide⟩
  | array element => exact ⟨'[', _, by rw [TypeSignature.spell], by decide⟩
  | classType c =>
    obtain ⟨outer, inner⟩ := c
    exact ⟨'L', _, by rw [TypeSignature.spell, ClassType.spell], by decide⟩

theorem readReturn_ok_iff {s rest : List Char} {ret : Option TypeSignature}
    (hdepth : 2 * s.length ≤ depth) :
    readReturn depth s = .ok (ret, rest) ↔
      (∀ t ∈ ret, t.WellFormed) ∧ s = spellReturn ret rest := by
  constructor
  · intro h
    rw [readReturn.eq_def] at h
    split at h
    case h_1 =>
      cases h
      exact ⟨fun _ ht => (by cases ht), rfl⟩
    case h_2 =>
      obtain ⟨⟨t, after⟩, ht, h⟩ := except_bind_ok_iff.1 h
      cases h
      obtain ⟨hwell, hs⟩ := (readType_ok_iff hdepth).1 ht
      refine ⟨?_, hs⟩
      rintro t ⟨⟩
      exact hwell
  · rintro ⟨hwell, rfl⟩
    cases ret with
    | none => rfl
    | some t =>
      rw [spellReturn, Option.map_some, Option.getD_some] at hdepth ⊢
      rw [readReturn.eq_2 depth (t.spell rest) fun after hV => ?_]
      · have hread : readType (readReference depth) (t.spell rest) = .ok (t, rest) :=
          (readType_ok_iff hdepth).2 ⟨hwell t rfl, rfl⟩
        rw [hread]
        rfl
      · obtain ⟨c, tail, hspell, -, hc⟩ := head_spell t rest
        rw [hspell] at hV
        exact hc (List.cons.inj hV).1

/-- The types of the parameters, up to the bracket that closes the list. -/
theorem readParameterTypes_ok_iff {s rest : List Char} {params : List TypeSignature}
    (hdepth : 2 * s.length ≤ depth) :
    readParts depth (fun s => s.head? != some ')') (readType (readReference depth)) s =
        .ok (params, rest) ↔
      ((∀ t ∈ params, t.WellFormed) ∧ rest.head? = some ')') ∧
        s = params.foldr TypeSignature.spell rest := by
  have hpart : Exact s.length (readType (readReference depth)) (fun t _ => t.WellFormed)
      TypeSignature.spell := fun s' t rest' hs => readType_ok_iff (by omega)
  rw [readParts_ok_iff hpart TypeSignature.length_spell_lt ?_ le_rfl (by omega), rowOk_of_forall]
  · simp
  · intro t rest' _
    obtain ⟨c, more, hspell, hc, -⟩ := head_spell t rest'
    rw [hspell]
    simpa using hc

theorem readMethod_ok_iff {s : List Char} {m : MethodSignature} (hdepth : 2 * s.length ≤ depth) :
    readMethod depth s = .ok (m, []) ↔ m.WellFormed ∧ s = m.chars := by
  obtain ⟨typeParams, params, ret, throws⟩ := m
  have hthrows : MethodSignature.chars ⟨typeParams, params, ret, throws⟩ =
      TypeParameter.spellAll typeParams ('(' :: params.foldr TypeSignature.spell
        (')' :: spellReturn ret (throws.foldr (spellMarked '^') []))) := rfl
  rw [readMethod, hthrows]
  constructor
  · intro h
    obtain ⟨⟨typeParams', after⟩, htypeParams, htail⟩ := except_bind_ok_iff.1 h
    obtain ⟨⟨⟨⟩, after₁⟩, hopen, htail⟩ := except_bind_ok_iff.1 htail
    obtain ⟨⟨params', after₂⟩, hreadParams, htail⟩ := except_bind_ok_iff.1 htail
    obtain ⟨⟨⟨⟩, after₃⟩, hclose, htail⟩ := except_bind_ok_iff.1 htail
    obtain ⟨⟨ret', after₄⟩, hret, htail⟩ := except_bind_ok_iff.1 htail
    obtain ⟨⟨throws', rest⟩, hreadThrows, hend⟩ := except_bind_ok_iff.1 htail
    cases hend
    obtain ⟨⟨hrow, -⟩, rfl⟩ := (readTypeParameters_ok_iff hdepth).1 htypeParams
    obtain rfl := expect_ok_iff.1 hopen
    have h₁ := TypeParameter.length_spellAll_le typeParams ('(' :: after₁)
    rw [List.length_cons] at h₁
    have hafter₁ : 2 * after₁.length ≤ depth := by omega
    obtain ⟨⟨hparamsWell, -⟩, rfl⟩ := (readParameterTypes_ok_iff hafter₁).1 hreadParams
    obtain rfl := expect_ok_iff.1 hclose
    have h₂ := length_foldr_spell_le (fun t rest => (TypeSignature.length_spell_lt t rest).le)
      params (')' :: after₃)
    rw [List.length_cons] at h₂
    obtain ⟨hretWell, rfl⟩ := (readReturn_ok_iff (s := after₃) (by omega)).1 hret
    have h₃ := length_spellReturn_le ret after₄
    obtain ⟨⟨hthrowsWell, -⟩, rfl⟩ := (readMarked_ok_iff (s := after₄) (by omega)).1 hreadThrows
    exact ⟨⟨hrow, hparamsWell, hretWell, hthrowsWell⟩, rfl⟩
  · rintro ⟨⟨hrow, hparamsWell, hretWell, hthrowsWell⟩, rfl⟩
    dsimp only at hrow hparamsWell hretWell hthrowsWell
    have h₁ := TypeParameter.length_spellAll_le typeParams ('(' :: params.foldr TypeSignature.spell
        (')' :: spellReturn ret (throws.foldr (spellMarked '^') [])))
    have h₂ := length_foldr_spell_le (fun t rest => (TypeSignature.length_spell_lt t rest).le)
      params (')' :: spellReturn ret (throws.foldr (spellMarked '^') []))
    have h₃ := length_spellReturn_le ret (throws.foldr (spellMarked '^') [])
    rw [List.length_cons] at h₁ h₂
    have hafter₁ : 2 * (params.foldr TypeSignature.spell
        (')' :: spellReturn ret (throws.foldr (spellMarked '^') []))).length ≤ depth := by omega
    have hreadParams := (readParameterTypes_ok_iff hafter₁).2 ⟨⟨hparamsWell, rfl⟩, rfl⟩
    have hreadReturn : readReturn depth (spellReturn ret (throws.foldr (spellMarked '^') [])) =
        .ok (ret, throws.foldr (spellMarked '^') []) :=
      (readReturn_ok_iff (by omega)).2 ⟨hretWell, rfl⟩
    have hreadThrows : readMarked depth '^' (throws.foldr (spellMarked '^') []) =
        .ok (throws, []) :=
      (readMarked_ok_iff (by omega)).2 ⟨⟨hthrowsWell, by simp⟩, rfl⟩
    refine except_bind_ok_iff.2
      ⟨_, (readTypeParameters_ok_iff hdepth).2 ⟨⟨hrow, fun _ => by simp⟩, rfl⟩, ?_⟩
    refine except_bind_ok_iff.2 ⟨_, expect_ok_iff.2 rfl, except_bind_ok_iff.2 ⟨_, hreadParams, ?_⟩⟩
    refine except_bind_ok_iff.2 ⟨_, expect_ok_iff.2 rfl, except_bind_ok_iff.2 ⟨_, hreadReturn, ?_⟩⟩
    exact except_bind_ok_iff.2 ⟨_, hreadThrows, rfl⟩

/-! ## Texts -/

theorem readEnd_ok_iff {x : Except SignatureFault (α × List Char)} {a : α} :
    x >>= readEnd = .ok a ↔ x = .ok (a, []) := by
  rcases x with e | ⟨b, _ | ⟨c, rest⟩⟩ <;> simp [bind, Except.bind, readEnd]

/-- What is read exactly is read from a text whenever the depth for the text is enough. -/
theorem whole_ok_iff {read : Nat → Step α} {wellFormed : Prop} {chars : List Char} {a : α}
    (h : ∀ {depth s}, 2 * s.length ≤ depth →
      (read depth s = .ok (a, []) ↔ wellFormed ∧ s = chars)) {s : String} :
    whole read s = .ok a ↔ wellFormed ∧ s = String.ofList chars := by
  rw [whole, mapError_ok_iff, readEnd_ok_iff, h (by rw [depthFor]; omega), ← String.toList_inj,
    String.toList_ofList]

end Signature

theorem ClassSignature.parse_ok_iff {s : String} {c : ClassSignature} :
    ClassSignature.parse s = .ok c ↔ c.WellFormed ∧ s = c.text :=
  whole_ok_iff readClass_ok_iff

theorem MethodSignature.parse_ok_iff {s : String} {m : MethodSignature} :
    MethodSignature.parse s = .ok m ↔ m.WellFormed ∧ s = m.text :=
  whole_ok_iff readMethod_ok_iff

theorem TypeSignature.parse_ok_iff {s : String} {t : TypeSignature} :
    TypeSignature.parse s = .ok t ↔ (t.IsReference ∧ t.WellFormed) ∧ s = t.text :=
  whole_ok_iff readReference_ok_iff

namespace Signature

theorem parse_ok_iff {kind : SignatureKind} {s : String} {sig : Signature} :
    Signature.parse kind s = .ok sig ↔ (sig.kind = kind ∧ sig.WellFormed) ∧ s = sig.text := by
  cases kind with
  | ofClass =>
    rw [Signature.parse, map_ok_iff]
    cases sig <;>
      simp [ClassSignature.parse_ok_iff, Signature.kind, Signature.WellFormed, Signature.text]
  | ofMethod =>
    rw [Signature.parse, map_ok_iff]
    cases sig <;>
      simp [MethodSignature.parse_ok_iff, Signature.kind, Signature.WellFormed, Signature.text]
  | ofField =>
    rw [Signature.parse, map_ok_iff]
    cases sig <;>
      simp [TypeSignature.parse_ok_iff, Signature.kind, Signature.WellFormed, Signature.text]

/-- Well-formed signatures of one kind are written differently. -/
theorem text_injOn (kind : SignatureKind) :
    Set.InjOn text {sig | sig.kind = kind ∧ sig.WellFormed} := by
  intro a ha b hb htext
  have hparse := parse_ok_iff.2 ⟨ha, rfl⟩
  rw [parse_ok_iff.2 ⟨hb, htext⟩] at hparse
  exact (Except.ok.inj hparse).symm

end Signature

/-- Each of the three readers of signatures takes the written forms of the well-formed trees of its
grammar and nothing else, and gives the tree that was written: so a text has one reading, and
writing what was read gives the text back. -/
theorem signature_readers_exact :
    (∀ (s : String) (c : ClassSignature),
      ClassSignature.parse s = .ok c ↔ c.WellFormed ∧ s = c.text) ∧
    (∀ (s : String) (m : MethodSignature),
      MethodSignature.parse s = .ok m ↔ m.WellFormed ∧ s = m.text) ∧
    (∀ (s : String) (t : TypeSignature),
      TypeSignature.parse s = .ok t ↔ (t.IsReference ∧ t.WellFormed) ∧ s = t.text) ∧
    (∀ kind, Set.InjOn Signature.text {sig | sig.kind = kind ∧ sig.WellFormed}) ∧
    ∀ kind s,
      (Signature.parse kind s).map Signature.text = (Signature.parse kind s).map fun _ => s := by
  refine ⟨fun _ _ => ClassSignature.parse_ok_iff, fun _ _ => MethodSignature.parse_ok_iff,
    fun _ _ => TypeSignature.parse_ok_iff, Signature.text_injOn, fun kind s => ?_⟩
  rcases hparse : Signature.parse kind s with e | sig
  · rfl
  · exact congrArg Except.ok (Signature.parse_ok_iff.1 hparse).2.symm

end JarRemap
