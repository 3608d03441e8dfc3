import JarRemap.Proofs.Signature.Parse
import JarRemap.Proofs.Text.Split
import Mathlib.Data.List.Chain

/-!
# Signatures under a renaming of classes

A class type leads to a class along a path: the outermost class, and for each nested segment the
class of that segment. The renaming maps every class on the path as a whole and has to split the
result into segments again. That succeeds as long as the mapped classes still nest in each other; a
class type of one segment has nothing to split. Where they do not, the segments lead elsewhere.
-/

namespace JarRemap

open Signature

/-! ## Paths -/

/-- The binary names of the nested classes that the segments after the class `outer` lead along. -/
def ClassSegment.pathInner (outer : String) : List ClassSegment → List String
  | [] => []
  | .mk name _ :: more =>
    (outer ++ "$" ++ name) :: ClassSegment.pathInner (outer ++ "$" ++ name) more

/-- The binary names of the classes that a class type leads along, outermost first. -/
def ClassType.path : ClassType → List String
  | .mk (.mk name _) inner => name :: ClassSegment.pathInner name inner

/-- The class type means the last class on its path. -/
theorem ClassType.getLast?_path (c : ClassType) : c.path.getLast? = some c.binaryName := by
  obtain ⟨⟨name, args⟩, inner⟩ := c
  rw [path, binaryName, segments, List.map_cons, ClassSegment.name]
  induction inner generalizing name with
  | nil => rw [List.map_nil, String.intercalate_singleton]; rfl
  | cons s inner ih =>
    obtain ⟨next, nextArgs⟩ := s
    rw [ClassSegment.pathInner, List.getLast?_cons_cons, ih, List.map_cons, ClassSegment.name,
      String.intercalate_cons_cons, String.intercalate_cons_append]

/-- The name of the second class is that of the first with a simple name after a `$`. -/
def NestsIn (outer nested : String) : Prop :=
  ∃ simple, nested = outer ++ "$" ++ simple

/-- The classes that a class type leads along still nest in each other when they are mapped. -/
def ClassType.StaysNested (f : String → String) (c : ClassType) : Prop :=
  c.path.IsChain fun outer nested => NestsIn (f outer) (f nested)

variable {f : String → String}

theorem simpleNameWithin_of_nestsIn {outer nested : String} (h : NestsIn outer nested) :
    outer ++ "$" ++ simpleNameWithin outer nested = nested := by
  obtain ⟨simple, rfl⟩ := h
  rw [simpleNameWithin, Text.afterStart?_eq_some_iff.2 rfl]

theorem ClassSegment.pathInner_renameInner_iff (outer : String) (inner : List ClassSegment) :
    ClassSegment.pathInner (f outer) (ClassSegment.renameInner f outer inner) =
        (ClassSegment.pathInner outer inner).map f ↔
      (outer :: ClassSegment.pathInner outer inner).IsChain
        fun outer nested => NestsIn (f outer) (f nested) := by
  induction inner generalizing outer with
  | nil => exact ⟨fun _ => .singleton outer, fun _ => rfl⟩
  | cons s inner ih =>
    obtain ⟨name, args⟩ := s
    simp only [renameInner, pathInner, List.map_cons, List.cons.injEq, List.isChain_cons_cons]
    constructor
    · rintro ⟨hfirst, hrest⟩
      rw [hfirst] at hrest
      exact ⟨⟨_, hfirst.symm⟩, (ih _).1 hrest⟩
    · rintro ⟨hfirst, hrest⟩
      have hsimple := simpleNameWithin_of_nestsIn hfirst
      exact ⟨hsimple, by rw [hsimple]; exact (ih _).2 hrest⟩

/-- A renamed class type leads along the mapped classes exactly if these nest in each other. -/
theorem ClassType.path_rename_iff (c : ClassType) :
    (c.rename f).path = c.path.map f ↔ c.StaysNested f := by
  obtain ⟨⟨name, args⟩, inner⟩ := c
  simp only [rename, path, List.map_cons, List.cons.injEq, true_and, StaysNested]
  exact ClassSegment.pathInner_renameInner_iff name inner

theorem ClassType.binaryName_rename {c : ClassType} (h : c.StaysNested f) :
    (c.rename f).binaryName = f c.binaryName := by
  have hlast := (c.rename f).getLast?_path
  rw [(path_rename_iff c).2 h, List.getLast?_map, getLast?_path] at hlast
  exact (Option.some.inj hlast).symm

/-- A class type of one segment always stays nested. -/
theorem ClassType.staysNested_single (s : ClassSegment) : (ClassType.mk s []).StaysNested f := by
  obtain ⟨name, args⟩ := s
  exact .singleton name

/-! ## The class types in a signature -/

mutual

/-- The class types in a type, in the order in which they begin. -/
def TypeSignature.classTypes : TypeSignature → List ClassType
  | .primitive _ => []
  | .typeVariable _ => []
  | .array element => element.classTypes
  | .classType c => c.classTypes

/-- A class type and those in its arguments. -/
def ClassType.classTypes : ClassType → List ClassType
  | .mk (.mk name args) inner =>
    .mk (.mk name args) inner ::
      (TypeArgument.classTypesAll args ++ ClassSegment.classTypesInner inner)

/-- The class types in the arguments of nested segments. -/
def ClassSegment.classTypesInner : List ClassSegment → List ClassType
  | [] => []
  | .mk _ args :: more => TypeArgument.classTypesAll args ++ ClassSegment.classTypesInner more

/-- The class types in a type argument. -/
def TypeArgument.classTypes : TypeArgument → List ClassType
  | .any => []
  | .bounded _ t => t.classTypes

/-- The class types in type arguments. -/
def TypeArgument.classTypesAll : List TypeArgument → List ClassType
  | [] => []
  | a :: more => a.classTypes ++ TypeArgument.classTypesAll more

end

/-- The class types in the bounds of a type parameter. -/
def TypeParameter.classTypes (p : TypeParameter) : List ClassType :=
  (p.classBound.toList ++ p.interfaceBounds).flatMap TypeSignature.classTypes

/-- The class types in a signature. -/
def Signature.classTypes : Signature → List ClassType
  | .ofClass s =>
    s.typeParams.flatMap TypeParameter.classTypes ++
      (s.superclass :: s.interfaces).flatMap ClassType.classTypes
  | .ofMethod s =>
    s.typeParams.flatMap TypeParameter.classTypes ++
      (s.params ++ s.ret.toList ++ s.throws).flatMap TypeSignature.classTypes
  | .ofField t => t.classTypes

mutual

theorem TypeSignature.classTypes_rename : (t : TypeSignature) →
    (t.rename f).classTypes = t.classTypes.map (ClassType.rename f)
  | .primitive _ => rfl
  | .typeVariable _ => rfl
  | .array element => element.classTypes_rename
  | .classType c => c.classTypes_rename

theorem ClassType.classTypes_rename : (c : ClassType) →
    (c.rename f).classTypes = c.classTypes.map (ClassType.rename f)
  | .mk (.mk name args) inner => by
    rw [ClassType.rename, ClassType.classTypes, ClassType.classTypes, List.map_cons,
      ClassType.rename, List.map_append, TypeArgument.classTypesAll_rename args,
      ClassSegment.classTypesInner_rename name inner]

theorem ClassSegment.classTypesInner_rename (outer : String) : (inner : List ClassSegment) →
    ClassSegment.classTypesInner (ClassSegment.renameInner f outer inner) =
      (ClassSegment.classTypesInner inner).map (ClassType.rename f)
  | [] => rfl
  | .mk name args :: more => by
    rw [ClassSegment.renameInner, ClassSegment.classTypesInner, ClassSegment.classTypesInner,
      List.map_append, TypeArgument.classTypesAll_rename args,
      ClassSegment.classTypesInner_rename (outer ++ "$" ++ name) more]

theorem TypeArgument.classTypes_rename : (a : TypeArgument) →
    (a.rename f).classTypes = a.classTypes.map (ClassType.rename f)
  | .any => rfl
  | .bounded _ t => t.classTypes_rename

theorem TypeArgument.classTypesAll_rename : (args : List TypeArgument) →
    TypeArgument.classTypesAll (TypeArgument.renameAll f args) =
      (TypeArgument.classTypesAll args).map (ClassType.rename f)
  | [] => rfl
  | a :: more => by
    rw [TypeArgument.renameAll, TypeArgument.classTypesAll, TypeArgument.classTypesAll,
      List.map_append, a.classTypes_rename, TypeArgument.classTypesAll_rename more]

end

/-- The bounds of a type parameter, the class bound first. -/
theorem TypeParameter.bounds_rename (p : TypeParameter) :
    (p.rename f).classBound.toList ++ (p.rename f).interfaceBounds =
      (p.classBound.toList ++ p.interfaceBounds).map (TypeSignature.rename f) := by
  rw [List.map_append]
  cases h : p.classBound <;> simp [rename, h]

theorem TypeParameter.classTypes_rename (p : TypeParameter) :
    (p.rename f).classTypes = p.classTypes.map (ClassType.rename f) := by
  rw [classTypes, classTypes, bounds_rename, List.flatMap_map, List.map_flatMap]
  simp only [TypeSignature.classTypes_rename]

theorem Signature.classTypes_rename (sig : Signature) :
    (sig.rename f).classTypes = sig.classTypes.map (ClassType.rename f) := by
  cases sig with
  | ofClass s =>
    simp [rename, classTypes, ClassSignature.rename, List.flatMap_map, List.map_flatMap,
      TypeParameter.classTypes_rename, ClassType.classTypes_rename]
  | ofMethod s =>
    cases h : s.ret <;>
      simp [rename, classTypes, MethodSignature.rename, List.flatMap_map, List.map_flatMap,
        TypeParameter.classTypes_rename, TypeSignature.classTypes_rename, h]
  | ofField t => exact t.classTypes_rename

/-! ## A renaming that gives every class back -/

mutual

theorem TypeSignature.rename_eq_self : (t : TypeSignature) →
    (∀ name ∈ t.classNames, f name = name) → t.rename f = t
  | .primitive _, _ => rfl
  | .typeVariable _, _ => rfl
  | .array element, hf => congrArg TypeSignature.array (element.rename_eq_self hf)
  | .classType c, hf => congrArg TypeSignature.classType (c.rename_eq_self hf)

theorem ClassType.rename_eq_self : (c : ClassType) →
    (∀ name ∈ c.classNames, f name = name) → c.rename f = c
  | .mk (.mk name args) inner, hf => by
    simp only [ClassType.classNames, List.mem_append, List.mem_cons] at hf
    have hname := hf name (.inr (.inl rfl))
    rw [ClassType.rename, hname, TypeArgument.renameAll_eq_self args fun n hn => hf n (.inl hn),
      ClassSegment.renameInner_eq_self name hname inner fun n hn => hf n (.inr (.inr hn))]

theorem ClassSegment.renameInner_eq_self (outer : String) (houter : f outer = outer) :
    (inner : List ClassSegment) →
    (∀ name ∈ ClassSegment.classNamesInner outer inner, f name = name) →
      ClassSegment.renameInner f outer inner = inner
  | [], _ => rfl
  | .mk name args :: more, hf => by
    simp only [ClassSegment.classNamesInner, List.mem_append, List.mem_cons] at hf
    have hnested := hf (outer ++ "$" ++ name) (.inr (.inl rfl))
    have hsimple : simpleNameWithin outer (outer ++ "$" ++ name) = name := by
      rw [simpleNameWithin, Text.afterStart?_eq_some_iff.2 rfl]
    rw [ClassSegment.renameInner, houter, hnested, hsimple,
      TypeArgument.renameAll_eq_self args fun n hn => hf n (.inl hn),
      ClassSegment.renameInner_eq_self _ hnested more fun n hn => hf n (.inr (.inr hn))]

theorem TypeArgument.rename_eq_self : (a : TypeArgument) →
    (∀ name ∈ a.classNames, f name = name) → a.rename f = a
  | .any, _ => rfl
  | .bounded bound t, hf => congrArg (TypeArgument.bounded bound) (t.rename_eq_self hf)

theorem TypeArgument.renameAll_eq_self : (args : List TypeArgument) →
    (∀ name ∈ TypeArgument.classNamesAll args, f name = name) →
      TypeArgument.renameAll f args = args
  | [], _ => rfl
  | a :: more, hf => by
    simp only [TypeArgument.classNamesAll, List.mem_append] at hf
    rw [TypeArgument.renameAll, a.rename_eq_self fun n hn => hf n (.inl hn),
      TypeArgument.renameAll_eq_self more fun n hn => hf n (.inr hn)]

end

theorem map_eq_self_of_flatMap {α : Type} {g : α → α} {names : α → List String} {l : List α}
    (hg : ∀ a, (∀ name ∈ names a, f name = name) → g a = a)
    (hf : ∀ name ∈ l.flatMap names, f name = name) : l.map g = l := by
  refine (List.map_congr_left fun a ha => ?_).trans (List.map_id l)
  exact hg a fun name hname => hf name (List.mem_flatMap.2 ⟨a, ha, hname⟩)

theorem option_map_eq_self_of_flatMap {α : Type} {g : α → α} {names : α → List String}
    {o : Option α} (hg : ∀ a, (∀ name ∈ names a, f name = name) → g a = a)
    (hf : ∀ name ∈ o.toList.flatMap names, f name = name) : o.map g = o := by
  cases o with
  | none => rfl
  | some a => exact congrArg some (hg a fun name hname => hf name (by simpa using hname))

theorem TypeParameter.rename_eq_self (p : TypeParameter)
    (hf : ∀ name ∈ p.classNames, f name = name) : p.rename f = p := by
  simp only [classNames, List.flatMap_append, List.mem_append] at hf
  rw [rename, option_map_eq_self_of_flatMap TypeSignature.rename_eq_self fun n hn => hf n (.inl hn),
    map_eq_self_of_flatMap TypeSignature.rename_eq_self fun n hn => hf n (.inr hn)]

/-- A renaming that gives back the classes of a signature gives back the signature. -/
theorem Signature.rename_eq_self {sig : Signature} (hf : ∀ name ∈ sig.classNames, f name = name) :
    sig.rename f = sig := by
  cases sig with
  | ofClass s =>
    simp only [classNames, List.mem_append, List.flatMap_cons] at hf
    rw [rename, ClassSignature.rename,
      map_eq_self_of_flatMap TypeParameter.rename_eq_self fun n hn => hf n (.inl hn),
      s.superclass.rename_eq_self fun n hn => hf n (.inr (.inl hn)),
      map_eq_self_of_flatMap ClassType.rename_eq_self fun n hn => hf n (.inr (.inr hn))]
  | ofMethod s =>
    simp only [classNames, List.mem_append, List.flatMap_append] at hf
    rw [rename, MethodSignature.rename,
      map_eq_self_of_flatMap TypeParameter.rename_eq_self fun n hn => hf n (.inl hn),
      map_eq_self_of_flatMap TypeSignature.rename_eq_self fun n hn => hf n (.inr (.inl (.inl hn))),
      option_map_eq_self_of_flatMap TypeSignature.rename_eq_self
        fun n hn => hf n (.inr (.inl (.inr hn))),
      map_eq_self_of_flatMap TypeSignature.rename_eq_self fun n hn => hf n (.inr (.inr hn))]
  | ofField t => exact congrArg ofField (t.rename_eq_self hf)

/-- A signature whose classes all keep their names is written as it was read. -/
theorem renameSignature_eq_self {kind : SignatureKind} {s s' : String}
    (hf : ∀ sig, Signature.parse kind s = .ok sig → ∀ name ∈ sig.classNames, f name = name)
    (h : renameSignature f kind s = .ok s') : s' = s := by
  obtain ⟨sig, hparse, rfl⟩ := map_ok_iff.1 h
  rw [Signature.rename_eq_self (hf sig hparse)]
  exact (Signature.parse_ok_iff.1 hparse).2.symm

/-! ## Reading what was renamed -/

/-- The class can be named in a signature, also as one nested in another. -/
structure IsClassName (name : String) : Prop where
  isName : IsName classStops name
  ends : name.toList.getLast? ≠ some '$'

/-- What follows a `$` in the name of a class can be the name of a segment. -/
theorem IsClassName.behind {name : String} (h : IsClassName name) (front : List Char)
    {back : String} (hname : name.toList = front ++ '$' :: back.toList) :
    IsName classStops back := by
  refine ⟨fun hempty => h.ends ?_, fun c hc => h.isName.free c ?_⟩
  · rw [hname, hempty]
    simp
  · rw [hname]
    simp [hc]

theorem IsClassName.simpleNameWithin {nested : String} (h : IsClassName nested) (outer : String) :
    IsName classStops (simpleNameWithin outer nested) := by
  rw [JarRemap.simpleNameWithin]
  split
  case h_1 simple hafter =>
    refine h.behind outer.toList ?_
    rw [Text.afterStart?_eq_some_iff.1 hafter]
    simp
  case h_2 =>
    split
    case h_1 front simple hsplit => exact h.behind _ (Text.splitLast?_eq_some_iff.1 hsplit).1
    case h_2 => exact h.isName

theorem TypeSignature.IsReference.rename {t : TypeSignature} (h : t.IsReference) :
    (t.rename f).IsReference := by
  cases t with
  | primitive p => exact h
  | typeVariable name => exact h
  | array element => exact h
  | classType c => exact h

mutual

theorem TypeSignature.wellFormed_rename : (t : TypeSignature) → t.WellFormed →
    (∀ name ∈ t.classNames, IsClassName (f name)) → (t.rename f).WellFormed
  | .primitive _, _, _ => trivial
  | .typeVariable _, h, _ => h
  | .array element, h, hf => element.wellFormed_rename h hf
  | .classType c, h, hf => c.wellFormed_rename h hf

theorem ClassType.wellFormed_rename : (c : ClassType) → c.WellFormed →
    (∀ name ∈ c.classNames, IsClassName (f name)) → (c.rename f).WellFormed
  | .mk (.mk name args) inner, ⟨⟨_, hargs⟩, hinner⟩, hf => by
    simp only [ClassType.classNames, List.mem_append, List.mem_cons] at hf
    refine ⟨⟨(hf name (.inr (.inl rfl))).isName, ?_⟩, ?_⟩
    · exact TypeArgument.allWellFormed_rename args hargs fun n hn => hf n (.inl hn)
    · exact ClassSegment.allWellFormed_rename name inner hinner fun n hn => hf n (.inr (.inr hn))

theorem ClassSegment.allWellFormed_rename (outer : String) : (inner : List ClassSegment) →
    ClassSegment.AllWellFormed inner →
    (∀ name ∈ ClassSegment.classNamesInner outer inner, IsClassName (f name)) →
      ClassSegment.AllWellFormed (ClassSegment.renameInner f outer inner)
  | [], _, _ => trivial
  | .mk name args :: more, ⟨⟨_, hargs⟩, hmore⟩, hf => by
    simp only [ClassSegment.classNamesInner, List.mem_append, List.mem_cons] at hf
    refine ⟨⟨(hf _ (.inr (.inl rfl))).simpleNameWithin _, ?_⟩, ?_⟩
    · exact TypeArgument.allWellFormed_rename args hargs fun n hn => hf n (.inl hn)
    · exact ClassSegment.allWellFormed_rename _ more hmore fun n hn => hf n (.inr (.inr hn))

theorem TypeArgument.wellFormed_rename : (a : TypeArgument) → a.WellFormed →
    (∀ name ∈ a.classNames, IsClassName (f name)) → (a.rename f).WellFormed
  | .any, _, _ => trivial
  | .bounded _ t, ⟨hreference, hwell⟩, hf => ⟨hreference.rename, t.wellFormed_rename hwell hf⟩

theorem TypeArgument.allWellFormed_rename : (args : List TypeArgument) →
    TypeArgument.AllWellFormed args →
    (∀ name ∈ TypeArgument.classNamesAll args, IsClassName (f name)) →
      TypeArgument.AllWellFormed (TypeArgument.renameAll f args)
  | [], _, _ => trivial
  | a :: more, ⟨ha, hmore⟩, hf => by
    simp only [TypeArgument.classNamesAll, List.mem_append] at hf
    exact ⟨a.wellFormed_rename ha fun n hn => hf n (.inl hn),
      TypeArgument.allWellFormed_rename more hmore fun n hn => hf n (.inr hn)⟩

end

theorem TypeParameter.bare_rename {p : TypeParameter} : (p.rename f).Bare ↔ p.Bare := by
  simp [Bare, rename]

theorem TypeParameter.rowWellFormed_rename {params : List TypeParameter}
    (h : TypeParameter.RowWellFormed params)
    (hf : ∀ name ∈ params.flatMap TypeParameter.classNames, IsClassName (f name)) :
    TypeParameter.RowWellFormed (params.map (TypeParameter.rename f)) := by
  refine ⟨List.forall_mem_map.2 fun p hp => ⟨(h.each p hp).name, ?_⟩, ?_⟩
  · rw [bounds_rename]
    refine List.forall_mem_map.2 fun t ht => ?_
    obtain ⟨hreference, hwell⟩ := (h.each p hp).bounds t ht
    refine ⟨hreference.rename, t.wellFormed_rename hwell fun name hname => hf name ?_⟩
    exact List.mem_flatMap.2 ⟨p, hp, List.mem_flatMap.2 ⟨t, ht, hname⟩⟩
  · rw [List.isChain_map]
    exact h.row.imp fun p q hpq hbare => hpq (bare_rename.1 hbare)

/-- A signature stays well-formed if the new names of its classes can be told from what follows. -/
theorem Signature.WellFormed.rename {sig : Signature} (h : sig.WellFormed)
    (hf : ∀ name ∈ sig.classNames, IsClassName (f name)) : (sig.rename f).WellFormed := by
  cases sig with
  | ofClass s =>
    simp only [classNames, List.mem_append, List.flatMap_cons] at hf
    refine ⟨TypeParameter.rowWellFormed_rename h.typeParams fun n hn => hf n (.inl hn), ?_, ?_⟩
    · exact s.superclass.wellFormed_rename h.superclass fun n hn => hf n (.inr (.inl hn))
    · refine List.forall_mem_map.2 fun c hc => ?_
      refine c.wellFormed_rename (h.interfaces c hc) fun n hn => ?_
      exact hf n (.inr (.inr (List.mem_flatMap.2 ⟨c, hc, hn⟩)))
  | ofMethod s =>
    simp only [classNames, List.mem_append, List.flatMap_append] at hf
    refine ⟨TypeParameter.rowWellFormed_rename h.typeParams fun n hn => hf n (.inl hn), ?_, ?_, ?_⟩
    · refine List.forall_mem_map.2 fun t ht => t.wellFormed_rename (h.params t ht) fun n hn => ?_
      exact hf n (.inr (.inl (.inl (List.mem_flatMap.2 ⟨t, ht, hn⟩))))
    · intro t' ht'
      obtain ⟨t, ht, rfl⟩ := Option.map_eq_some_iff.1 ht'
      refine t.wellFormed_rename (h.ret t ht) fun n hn => ?_
      exact hf n (.inr (.inl (.inr (List.mem_flatMap.2 ⟨t, Option.mem_toList.2 ht, hn⟩))))
    · refine List.forall_mem_map.2 fun t ht => ?_
      obtain ⟨hreference, hwell⟩ := h.throws t ht
      refine ⟨hreference.rename, t.wellFormed_rename hwell fun n hn => ?_⟩
      exact hf n (.inr (.inr (List.mem_flatMap.2 ⟨t, ht, hn⟩)))
  | ofField t => exact ⟨h.1.rename, t.wellFormed_rename h.2 hf⟩

end JarRemap
