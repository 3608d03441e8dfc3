import JarRemap.Proofs.Descriptor
import JarRemap.Signature.Parser

/-!
# The grammar of signatures

The trees that a signature can spell: a name must be told from what follows it, what is bounded must
not be primitive, and of two type parameters in a row the second must not be taken for the class
bound of the first.
-/

namespace JarRemap

namespace Signature

/-- The name can be told from what follows it, if that begins with one of `stops`. -/
structure IsName (stops : List Char) (name : String) : Prop where
  nonempty : name ≠ ""
  free : ∀ c ∈ name.toList, c ∉ stops

instance (stops : List Char) (name : String) : Decidable (IsName stops name) :=
  decidable_of_iff (name ≠ "" ∧ (name.toList.all fun c => decide (c ∉ stops)) = true)
    ⟨fun ⟨hne, hall⟩ => ⟨hne, fun c hc => by simpa using List.all_eq_true.1 hall c hc⟩,
      fun h => ⟨h.nonempty, List.all_eq_true.2 fun c hc => by simpa using h.free c hc⟩⟩

/-- Nothing follows, or one of `stops` does. -/
def StopsAt (stops rest : List Char) : Prop :=
  ∀ c ∈ rest.head?, c ∈ stops

end Signature

open Signature

/-! ## Well-formed types -/

/-- The type is not primitive. -/
def TypeSignature.IsReference : TypeSignature → Prop
  | .primitive _ => False
  | _ => True

mutual

/-- All names in the type can be told from what follows them, and its arguments are no primitive
types. -/
def TypeSignature.WellFormed : TypeSignature → Prop
  | .primitive _ => True
  | .typeVariable name => IsName variableStops name
  | .array element => element.WellFormed
  | .classType c => c.WellFormed

/-- The segments of the class type are well-formed. -/
def ClassType.WellFormed : ClassType → Prop
  | .mk outer inner => outer.WellFormed ∧ ClassSegment.AllWellFormed inner

/-- The segment has a name and well-formed arguments. -/
def ClassSegment.WellFormed : ClassSegment → Prop
  | .mk name args => IsName classStops name ∧ TypeArgument.AllWellFormed args

/-- All of the segments are well-formed. -/
def ClassSegment.AllWellFormed : List ClassSegment → Prop
  | [] => True
  | s :: more => s.WellFormed ∧ ClassSegment.AllWellFormed more

/-- The argument is well-formed and not primitive. -/
def TypeArgument.WellFormed : TypeArgument → Prop
  | .any => True
  | .bounded _ t => t.IsReference ∧ t.WellFormed

/-- All of the arguments are well-formed. -/
def TypeArgument.AllWellFormed : List TypeArgument → Prop
  | [] => True
  | a :: more => a.WellFormed ∧ TypeArgument.AllWellFormed more

end

/-! ## Well-formed signatures -/

namespace Signature

/-- A class bound begins with the first of the characters. -/
def BeginsReference (s : List Char) : Prop :=
  ∃ c ∈ s.head?, c = 'L' ∨ c = 'T' ∨ c = '['

end Signature

/-- The type parameter has a name, and its bounds are well-formed and not primitive. -/
structure TypeParameter.WellFormed (p : TypeParameter) : Prop where
  name : IsName parameterStops p.name
  bounds : ∀ t ∈ p.classBound.toList ++ p.interfaceBounds, t.IsReference ∧ t.WellFormed

/-- Nothing bounds the type parameter. -/
def TypeParameter.Bare (p : TypeParameter) : Prop :=
  p.classBound = none ∧ p.interfaceBounds = []

/-- The type parameter can stand in front of `next`: a class bound that it lacks is not seen in the
name of the latter. -/
def TypeParameter.Before (p next : TypeParameter) : Prop :=
  p.Bare → ¬ BeginsReference next.name.toList

/-- All of the type parameters are well-formed, and so is their row. -/
structure TypeParameter.RowWellFormed (params : List TypeParameter) : Prop where
  each : ∀ p ∈ params, p.WellFormed
  row : params.IsChain TypeParameter.Before

/-- All parts of the class signature are well-formed. -/
structure ClassSignature.WellFormed (s : ClassSignature) : Prop where
  typeParams : TypeParameter.RowWellFormed s.typeParams
  superclass : s.superclass.WellFormed
  interfaces : ∀ c ∈ s.interfaces, c.WellFormed

/-- All parts of the method signature are well-formed, and nothing that is thrown is primitive. -/
structure MethodSignature.WellFormed (s : MethodSignature) : Prop where
  typeParams : TypeParameter.RowWellFormed s.typeParams
  params : ∀ t ∈ s.params, t.WellFormed
  ret : ∀ t ∈ s.ret, t.WellFormed
  throws : ∀ t ∈ s.throws, t.IsReference ∧ t.WellFormed

/-- The signature is well-formed. That of a field is not primitive. -/
def Signature.WellFormed : Signature → Prop
  | .ofClass s => s.WellFormed
  | .ofMethod s => s.WellFormed
  | .ofField t => t.IsReference ∧ t.WellFormed

/-! ## The first character and the length of a written form -/

theorem TypeSignature.IsReference.head_spell {t : TypeSignature} (h : t.IsReference)
    (rest : List Char) :
    ∃ c tail, t.spell rest = c :: tail ∧ (c = 'L' ∨ c = 'T' ∨ c = '[') := by
  cases t with
  | primitive p => exact h.elim
  | typeVariable name => exact ⟨'T', _, by rw [TypeSignature.spell], by simp⟩
  | array element => exact ⟨'[', _, by rw [TypeSignature.spell], by simp⟩
  | classType c =>
    obtain ⟨outer, inner⟩ := c
    exact ⟨'L', _, by rw [TypeSignature.spell, ClassType.spell], by simp⟩

theorem ArgumentBound.length_spell_le (bound : ArgumentBound) (rest : List Char) :
    rest.length ≤ (bound.spell rest).length := by
  cases bound <;> simp [spell]

mutual

theorem TypeSignature.length_spell_lt (t : TypeSignature) (rest : List Char) :
    rest.length < (t.spell rest).length := by
  cases t with
  | primitive p => rw [TypeSignature.spell]; simp
  | typeVariable name => rw [TypeSignature.spell]; simp; omega
  | array element =>
    have := element.length_spell_lt rest
    rw [TypeSignature.spell, List.length_cons]
    omega
  | classType c => exact c.length_spell_lt rest

theorem ClassType.length_spell_lt : (c : ClassType) → (rest : List Char) →
    rest.length < (c.spell rest).length
  | .mk outer inner, rest => by
    have houter := outer.length_spell_le (ClassSegment.spellInner inner (';' :: rest))
    have hinner := ClassSegment.length_spellInner_le inner (';' :: rest)
    rw [List.length_cons] at hinner
    rw [ClassType.spell, List.length_cons]
    omega

theorem ClassSegment.length_spell_le : (s : ClassSegment) → (rest : List Char) →
    rest.length ≤ (s.spell rest).length
  | .mk name args, rest => by
    have hargs := TypeArgument.length_spellAll_le args ('>' :: rest)
    rw [List.length_cons] at hargs
    rw [ClassSegment.spell, List.length_append]
    split
    · omega
    · rw [List.length_cons]
      omega

theorem ClassSegment.length_spellInner_le : (inner : List ClassSegment) → (rest : List Char) →
    rest.length ≤ (ClassSegment.spellInner inner rest).length
  | [], rest => by rw [ClassSegment.spellInner]
  | s :: more, rest => by
    have hfirst := s.length_spell_le (ClassSegment.spellInner more rest)
    have hmore := ClassSegment.length_spellInner_le more rest
    rw [ClassSegment.spellInner, List.length_cons]
    omega

theorem TypeArgument.length_spell_lt : (a : TypeArgument) → (rest : List Char) →
    rest.length < (a.spell rest).length
  | .any, rest => by rw [TypeArgument.spell, List.length_cons]; omega
  | .bounded bound t, rest => by
    exact (t.length_spell_lt rest).trans_le (bound.length_spell_le (t.spell rest))

theorem TypeArgument.length_spellAll_le : (args : List TypeArgument) → (rest : List Char) →
    rest.length ≤ (TypeArgument.spellAll args rest).length
  | [], rest => by rw [TypeArgument.spellAll]
  | a :: more, rest => by
    have hfirst := a.length_spell_lt (TypeArgument.spellAll more rest)
    have hmore := TypeArgument.length_spellAll_le more rest
    rw [TypeArgument.spellAll]
    omega

end

namespace Signature

/-! ## Characters and names -/

theorem expect_ok_iff {c : Char} {s rest : List Char} :
    expect c s = .ok ((), rest) ↔ s = c :: rest := by
  cases s with
  | nil => simp [expect]
  | cons d after =>
    rw [expect]
    split
    case isTrue h => simp [h]
    case isFalse h => simp [h]

theorem readName_ok_iff {stops s rest : List Char} {name : String} :
    readName stops s = .ok (name, rest) ↔
      IsName stops name ∧ StopsAt stops rest ∧ s = name.toList ++ rest := by
  rw [readName.eq_def]
  constructor
  · intro h
    have happend := List.takeWhile_append_dropWhile (p := fun c => !stops.contains c) (l := s)
    split at h
    case h_1 => cases h
    case h_2 name' hnonempty =>
      cases h
      refine ⟨⟨fun hempty => hnonempty ?_, fun c hc => ?_⟩, fun c hc => ?_, ?_⟩
      · rw [← String.toList_inj, String.toList_ofList] at hempty
        exact hempty
      · rw [String.toList_ofList] at hc
        simpa using List.mem_takeWhile_imp hc
      · have := List.head?_dropWhile_not (fun c => !stops.contains c) s
        rw [Option.mem_def.1 hc] at this
        simpa using this
      · rw [String.toList_ofList, happend]
  · rintro ⟨⟨hnonempty, hfree⟩, hstops, rfl⟩
    have hall : ∀ c ∈ name.toList, (!stops.contains c) = true := by
      intro c hc
      simpa using hfree c hc
    have htake : rest.takeWhile (fun c => !stops.contains c) = [] := by
      cases rest with
      | nil => rfl
      | cons c after => exact List.takeWhile_cons_of_neg (by simpa using hstops c rfl)
    have hdrop : rest.dropWhile (fun c => !stops.contains c) = rest := by
      cases rest with
      | nil => rfl
      | cons c after => exact List.dropWhile_cons_of_neg (by simpa using hstops c rfl)
    rw [List.takeWhile_append_of_pos hall, List.dropWhile_append_of_pos hall, htake, hdrop,
      List.append_nil]
    split
    case h_1 heq => exact absurd (String.toList_eq_nil_iff.1 heq) hnonempty
    case h_2 => rw [String.ofList_toList]

end Signature

end JarRemap
