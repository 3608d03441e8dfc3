import JarRemap.Proofs.Signature.Renamed

/-!
# Renamings of signatures one after the other

A naming that takes nested classes to nested ones can be undone segment by segment: the segments of
a renamed class type lead along the new names of the classes that it led along. What is read of the
renamed text is then the same tree with other names of classes, and to rename that again is to
rename the first text by both namings at once.
-/

namespace JarRemap

open Signature

/-! ## The shape of a signature -/

mutual

/-- The type without the names of its classes. -/
def TypeSignature.shape : TypeSignature → TypeSignature
  | .primitive p => .primitive p
  | .typeVariable name => .typeVariable name
  | .array element => .array element.shape
  | .classType c => .classType c.shape

/-- The class type without names of classes. -/
def ClassType.shape : ClassType → ClassType
  | .mk outer inner => .mk outer.shape (ClassSegment.shapes inner)

/-- The segment without its name and the names of classes in its arguments. -/
def ClassSegment.shape : ClassSegment → ClassSegment
  | .mk _ args => .mk "" (TypeArgument.shapes args)

/-- The segments without names of classes. -/
def ClassSegment.shapes : List ClassSegment → List ClassSegment
  | [] => []
  | s :: more => s.shape :: ClassSegment.shapes more

/-- The type argument without names of classes. -/
def TypeArgument.shape : TypeArgument → TypeArgument
  | .any => .any
  | .bounded bound t => .bounded bound t.shape

/-- The type arguments without names of classes. -/
def TypeArgument.shapes : List TypeArgument → List TypeArgument
  | [] => []
  | a :: more => a.shape :: TypeArgument.shapes more

end

/-- The type parameter without names of classes. -/
def TypeParameter.shape (p : TypeParameter) : TypeParameter :=
  { p with
    classBound := p.classBound.map TypeSignature.shape
    interfaceBounds := p.interfaceBounds.map TypeSignature.shape }

/-- The signature without names of classes. What is left are the type parameters and where they
stand, type variables, primitive types and arrays, and the arguments and segments of class types. -/
def Signature.shape : Signature → Signature
  | .ofClass s =>
    .ofClass
      { typeParams := s.typeParams.map TypeParameter.shape
        superclass := s.superclass.shape
        interfaces := s.interfaces.map ClassType.shape }
  | .ofMethod s =>
    .ofMethod
      { typeParams := s.typeParams.map TypeParameter.shape
        params := s.params.map TypeSignature.shape
        ret := s.ret.map TypeSignature.shape
        throws := s.throws.map TypeSignature.shape }
  | .ofField t => .ofField t.shape

section

variable (f : String → String)

mutual

theorem TypeSignature.shape_rename : (t : TypeSignature) → (t.rename f).shape = t.shape
  | .primitive _ => rfl
  | .typeVariable _ => rfl
  | .array element => congrArg TypeSignature.array element.shape_rename
  | .classType c => congrArg TypeSignature.classType c.shape_rename

theorem ClassType.shape_rename : (c : ClassType) → (c.rename f).shape = c.shape
  | .mk (.mk name args) inner => by
    rw [ClassType.rename, ClassType.shape, ClassType.shape, ClassSegment.shape, ClassSegment.shape,
      TypeArgument.shapes_renameAll args, ClassSegment.shapes_renameInner name inner]

theorem ClassSegment.shapes_renameInner (outer : String) : (inner : List ClassSegment) →
    ClassSegment.shapes (ClassSegment.renameInner f outer inner) = ClassSegment.shapes inner
  | [] => rfl
  | .mk name args :: more => by
    rw [ClassSegment.renameInner, ClassSegment.shapes, ClassSegment.shapes, ClassSegment.shape,
      ClassSegment.shape, TypeArgument.shapes_renameAll args,
      ClassSegment.shapes_renameInner (outer ++ "$" ++ name) more]

theorem TypeArgument.shape_rename : (a : TypeArgument) → (a.rename f).shape = a.shape
  | .any => rfl
  | .bounded bound t => congrArg (TypeArgument.bounded bound) t.shape_rename

theorem TypeArgument.shapes_renameAll : (args : List TypeArgument) →
    TypeArgument.shapes (TypeArgument.renameAll f args) = TypeArgument.shapes args
  | [] => rfl
  | a :: more => by
    rw [TypeArgument.renameAll, TypeArgument.shapes, TypeArgument.shapes, a.shape_rename,
      TypeArgument.shapes_renameAll more]

end

theorem TypeParameter.shape_rename (p : TypeParameter) : (p.rename f).shape = p.shape := by
  simp [rename, shape, Function.comp_def, TypeSignature.shape_rename]

/-- A renaming of classes changes nothing but their names. -/
theorem Signature.shape_rename (sig : Signature) : (sig.rename f).shape = sig.shape := by
  cases sig with
  | ofClass s =>
    simp [rename, shape, ClassSignature.rename, Function.comp_def, TypeParameter.shape_rename,
      ClassType.shape_rename]
  | ofMethod s =>
    simp [rename, shape, MethodSignature.rename, Function.comp_def, TypeParameter.shape_rename,
      TypeSignature.shape_rename]
  | ofField t => exact congrArg ofField (t.shape_rename f)

end

/-! ## Namings that keep classes nested -/

/-- The naming gives names that can stand in a signature, and to a nested class one that is nested
in that of the class around it. -/
structure KeepsNesting (f : String → String) : Prop where
  isName : ∀ name, IsName classStops name → IsName classStops (f name)
  nests : ∀ outer simple, IsName classStops outer → IsName classStops simple →
    ∃ rest, rest ≠ "" ∧ f (outer ++ "$" ++ simple) = f outer ++ "$" ++ rest

/-- The name of a nested class can stand in a signature if both of its parts can. -/
theorem Signature.IsName.nested {outer simple : String} (houter : IsName classStops outer)
    (hsimple : IsName classStops simple) : IsName classStops (outer ++ "$" ++ simple) := by
  refine ⟨fun hempty => ?_, fun c hc => ?_⟩
  · have hlength := congrArg (fun s => s.toList.length) hempty
    simp at hlength
  · simp only [String.toList_append, List.mem_append] at hc
    rcases hc with (hc | hc) | hc
    · exact houter.free c hc
    · obtain rfl : c = '$' := List.mem_singleton.1 hc
      decide
    · exact hsimple.free c hc

namespace KeepsNesting

variable {f g : String → String}

/-- Putting all classes into a package keeps them nested. -/
theorem inPackage {front : String} (h : ∀ c ∈ front.toList, c ∉ classStops) :
    KeepsNesting (front ++ ·) := by
  refine ⟨fun name hname => ⟨fun hempty => ?_, fun c hc => ?_⟩, fun outer simple _ hsimple => ?_⟩
  · exact hname.nonempty (String.append_eq_empty_iff.1 hempty).2
  · rw [String.toList_append] at hc
    exact (List.mem_append.1 hc).elim (h c) (hname.free c)
  · exact ⟨simple, hsimple.nonempty, by simp only [String.append_assoc]⟩

/-- The simple name of a renamed nested class can stand in a signature, and behind the new name of
the class around it makes the new name of the nested one. -/
theorem simple (hf : KeepsNesting f) {outer name : String} (houter : IsName classStops outer)
    (hname : IsName classStops name) :
    IsName classStops (simpleNameWithin (f outer) (f (outer ++ "$" ++ name))) ∧
      f outer ++ "$" ++ simpleNameWithin (f outer) (f (outer ++ "$" ++ name)) =
        f (outer ++ "$" ++ name) := by
  obtain ⟨rest, hrest, hnested⟩ := hf.nests outer name houter hname
  have hsimple : simpleNameWithin (f outer) (f (outer ++ "$" ++ name)) = rest := by
    rw [simpleNameWithin, hnested, Text.afterStart?_eq_some_iff.2 rfl]
  have hfree := (hf.isName _ (houter.nested hname)).free
  rw [hsimple]
  refine ⟨⟨hrest, fun c hc => hfree c ?_⟩, hnested.symm⟩
  rw [hnested, String.toList_append]
  exact List.mem_append_right _ hc

protected theorem comp (hg : KeepsNesting g) (hf : KeepsNesting f) : KeepsNesting (g ∘ f) := by
  refine ⟨fun name h => hg.isName _ (hf.isName _ h), fun outer name houter hname => ?_⟩
  obtain ⟨hsimple, hnested⟩ := hf.simple houter hname
  obtain ⟨rest, hrest, hagain⟩ := hg.nests _ _ (hf.isName _ houter) hsimple
  rw [hnested] at hagain
  exact ⟨rest, hrest, hagain⟩

/-! ## Reading what was renamed -/

mutual

theorem type_wellFormed (hf : KeepsNesting f) : (t : TypeSignature) → t.WellFormed →
    (t.rename f).WellFormed
  | .primitive _, _ => trivial
  | .typeVariable _, h => h
  | .array element, h => hf.type_wellFormed element h
  | .classType c, h => hf.classType_wellFormed c h

theorem classType_wellFormed (hf : KeepsNesting f) : (c : ClassType) → c.WellFormed →
    (c.rename f).WellFormed
  | .mk (.mk name args) inner, ⟨⟨hname, hargs⟩, hinner⟩ =>
    ⟨⟨hf.isName name hname, hf.arguments_wellFormed args hargs⟩,
      hf.inner_wellFormed name hname inner hinner⟩

theorem inner_wellFormed (hf : KeepsNesting f) (outer : String) (houter : IsName classStops outer) :
    (inner : List ClassSegment) → ClassSegment.AllWellFormed inner →
      ClassSegment.AllWellFormed (ClassSegment.renameInner f outer inner)
  | [], _ => trivial
  | .mk _ args :: more, ⟨⟨hname, hargs⟩, hmore⟩ =>
    ⟨⟨(hf.simple houter hname).1, hf.arguments_wellFormed args hargs⟩,
      hf.inner_wellFormed _ (houter.nested hname) more hmore⟩

theorem argument_wellFormed (hf : KeepsNesting f) : (a : TypeArgument) → a.WellFormed →
    (a.rename f).WellFormed
  | .any, _ => trivial
  | .bounded _ t, ⟨hreference, hwell⟩ => ⟨hreference.rename, hf.type_wellFormed t hwell⟩

theorem arguments_wellFormed (hf : KeepsNesting f) : (args : List TypeArgument) →
    TypeArgument.AllWellFormed args → TypeArgument.AllWellFormed (TypeArgument.renameAll f args)
  | [], _ => trivial
  | a :: more, ⟨ha, hmore⟩ => ⟨hf.argument_wellFormed a ha, hf.arguments_wellFormed more hmore⟩

end

theorem typeParams_wellFormed (hf : KeepsNesting f) {params : List TypeParameter}
    (h : TypeParameter.RowWellFormed params) :
    TypeParameter.RowWellFormed (params.map (TypeParameter.rename f)) := by
  refine ⟨List.forall_mem_map.2 fun p hp => ⟨(h.each p hp).name, ?_⟩, ?_⟩
  · rw [TypeParameter.bounds_rename]
    refine List.forall_mem_map.2 fun t ht => ?_
    obtain ⟨hreference, hwell⟩ := (h.each p hp).bounds t ht
    exact ⟨hreference.rename, hf.type_wellFormed t hwell⟩
  · rw [List.isChain_map]
    exact h.row.imp fun p q hpq hbare => hpq (TypeParameter.bare_rename.1 hbare)

/-- A signature stays well-formed. -/
theorem wellFormed (hf : KeepsNesting f) {sig : Signature} (h : sig.WellFormed) :
    (sig.rename f).WellFormed := by
  cases sig with
  | ofClass s =>
    refine ⟨hf.typeParams_wellFormed h.typeParams, hf.classType_wellFormed _ h.superclass, ?_⟩
    exact List.forall_mem_map.2 fun c hc => hf.classType_wellFormed c (h.interfaces c hc)
  | ofMethod s =>
    refine ⟨hf.typeParams_wellFormed h.typeParams, ?_, fun t' ht' => ?_, ?_⟩
    · exact List.forall_mem_map.2 fun t ht => hf.type_wellFormed t (h.params t ht)
    · obtain ⟨t, ht, rfl⟩ := Option.map_eq_some_iff.1 ht'
      exact hf.type_wellFormed t (h.ret t ht)
    · refine List.forall_mem_map.2 fun t ht => ?_
      obtain ⟨hreference, hwell⟩ := h.throws t ht
      exact ⟨hreference.rename, hf.type_wellFormed t hwell⟩
  | ofField t => exact ⟨h.1.rename, hf.type_wellFormed t h.2⟩

/-! ## Renaming again -/

variable (g)

mutual

theorem type_rename (hf : KeepsNesting f) : (t : TypeSignature) → t.WellFormed →
    (t.rename f).rename g = t.rename (g ∘ f)
  | .primitive _, _ => rfl
  | .typeVariable _, _ => rfl
  | .array element, h => congrArg TypeSignature.array (hf.type_rename element h)
  | .classType c, h => congrArg TypeSignature.classType (hf.classType_rename c h)

theorem classType_rename (hf : KeepsNesting f) : (c : ClassType) → c.WellFormed →
    (c.rename f).rename g = c.rename (g ∘ f)
  | .mk (.mk name args) inner, ⟨⟨hname, hargs⟩, hinner⟩ => by
    rw [ClassType.rename, ClassType.rename, ClassType.rename, hf.arguments_rename args hargs,
      hf.inner_rename name hname inner hinner, Function.comp_apply]

theorem inner_rename (hf : KeepsNesting f) (outer : String) (houter : IsName classStops outer) :
    (inner : List ClassSegment) → ClassSegment.AllWellFormed inner →
      ClassSegment.renameInner g (f outer) (ClassSegment.renameInner f outer inner) =
        ClassSegment.renameInner (g ∘ f) outer inner
  | [], _ => rfl
  | .mk name args :: more, ⟨⟨hname, hargs⟩, hmore⟩ => by
    -- The second naming is asked for what the first one has made of the nested class.
    have hnested := (hf.simple houter hname).2
    rw [ClassSegment.renameInner, ClassSegment.renameInner, ClassSegment.renameInner, hnested,
      hf.arguments_rename args hargs, hf.inner_rename _ (houter.nested hname) more hmore,
      Function.comp_apply, Function.comp_apply]

theorem argument_rename (hf : KeepsNesting f) : (a : TypeArgument) → a.WellFormed →
    (a.rename f).rename g = a.rename (g ∘ f)
  | .any, _ => rfl
  | .bounded bound t, ⟨_, hwell⟩ => congrArg (TypeArgument.bounded bound) (hf.type_rename t hwell)

theorem arguments_rename (hf : KeepsNesting f) : (args : List TypeArgument) →
    TypeArgument.AllWellFormed args →
      TypeArgument.renameAll g (TypeArgument.renameAll f args) =
        TypeArgument.renameAll (g ∘ f) args
  | [], _ => rfl
  | a :: more, ⟨ha, hmore⟩ => by
    rw [TypeArgument.renameAll, TypeArgument.renameAll, TypeArgument.renameAll,
      hf.argument_rename a ha, hf.arguments_rename more hmore]

end

theorem typeParam_rename (hf : KeepsNesting f) {p : TypeParameter} (h : p.WellFormed) :
    (p.rename f).rename g = p.rename (g ∘ f) := by
  have hbound (t : TypeSignature) (ht : t ∈ p.classBound.toList ++ p.interfaceBounds) :
      (t.rename f).rename g = t.rename (g ∘ f) :=
    hf.type_rename g t (h.bounds t ht).2
  simp only [TypeParameter.rename, Option.map_map, List.map_map]
  congr 1
  · refine Option.map_congr fun t ht => hbound t ?_
    exact List.mem_append_left _ (Option.mem_toList.2 ht)
  · exact List.map_congr_left fun t ht => hbound t (List.mem_append_right _ ht)

/-- Two renamings of a signature are one. -/
theorem rename_rename (hf : KeepsNesting f) {sig : Signature} (h : sig.WellFormed) :
    (sig.rename f).rename g = sig.rename (g ∘ f) := by
  cases sig with
  | ofClass s =>
    simp only [Signature.rename, ClassSignature.rename, List.map_map,
      hf.classType_rename g _ h.superclass]
    congr 2
    · exact List.map_congr_left fun p hp => hf.typeParam_rename g (h.typeParams.each p hp)
    · exact List.map_congr_left fun c hc => hf.classType_rename g c (h.interfaces c hc)
  | ofMethod s =>
    simp only [Signature.rename, MethodSignature.rename, List.map_map, Option.map_map]
    congr 2
    · exact List.map_congr_left fun p hp => hf.typeParam_rename g (h.typeParams.each p hp)
    · exact List.map_congr_left fun t ht => hf.type_rename g t (h.params t ht)
    · exact Option.map_congr fun t ht => hf.type_rename g t (h.ret t ht)
    · exact List.map_congr_left fun t ht => hf.type_rename g t (h.throws t ht).2
  | ofField t => exact congrArg Signature.ofField (hf.type_rename g t h.2)

end KeepsNesting

/-! ## Texts -/

/-- Renaming a signature respects identity and composition: the naming that gives every class back
gives the text back; and what a naming that keeps classes nested makes of a signature is read as a
signature of the same kind and shape, of which every other naming makes what both of them make of
the first one at once. Two namings that keep classes nested do so together. -/
theorem renameSignature_functorial :
    (∀ kind text sig, Signature.parse kind text = .ok sig →
      renameSignature id kind text = .ok text) ∧
    ∀ f, KeepsNesting f → ∀ kind text sig, Signature.parse kind text = .ok sig →
      ∃ text' sig', renameSignature f kind text = .ok text' ∧
        Signature.parse kind text' = .ok sig' ∧ sig'.shape = sig.shape ∧
        ∀ g, (∃ text'', renameSignature g kind text' = .ok text'' ∧
            renameSignature (g ∘ f) kind text = .ok text'') ∧
          (KeepsNesting g → KeepsNesting (g ∘ f)) := by
  constructor
  · intro kind text sig hparse
    have hrename : renameSignature id kind text = .ok (sig.rename id).text :=
      map_ok_iff.2 ⟨sig, hparse, rfl⟩
    have hself : sig.rename id = sig := Signature.rename_eq_self fun _ _ => rfl
    rw [hrename, hself]
    exact congrArg Except.ok (Signature.parse_ok_iff.1 hparse).2.symm
  · intro f hf kind text sig hparse
    obtain ⟨⟨hkind, hwell⟩, -⟩ := Signature.parse_ok_iff.1 hparse
    have hkind' : (sig.rename f).kind = kind := by
      rw [← hkind]
      cases sig <;> rfl
    have hparse' : Signature.parse kind (sig.rename f).text = .ok (sig.rename f) :=
      Signature.parse_ok_iff.2 ⟨⟨hkind', hf.wellFormed hwell⟩, rfl⟩
    refine ⟨_, _, map_ok_iff.2 ⟨sig, hparse, rfl⟩, hparse', sig.shape_rename f, fun g => ⟨?_, ?_⟩⟩
    · refine ⟨_, map_ok_iff.2 ⟨_, hparse', rfl⟩, map_ok_iff.2 ⟨sig, hparse, ?_⟩⟩
      rw [hf.rename_rename g hwell]
    · exact fun hg => hg.comp hf

/-- A method whose types lead through a generic class to classes nested in it. -/
theorem renameSignature_functorial_nested :
    renameSignature id .ofMethod "<T:La/O<TT;>.I;>([La/O<*>.I<-La/O;>;)V" =
      .ok "<T:La/O<TT;>.I;>([La/O<*>.I<-La/O;>;)V" ∧
    ∃ sig sig' text'', KeepsNesting ("b/" ++ ·) ∧
      Signature.parse .ofMethod "<T:La/O<TT;>.I;>([La/O<*>.I<-La/O;>;)V" = .ok sig ∧
      Signature.parse .ofMethod "<T:Lb/a/O<TT;>.I;>([Lb/a/O<*>.I<-Lb/a/O;>;)V" = .ok sig' ∧
      sig'.shape = sig.shape ∧
      renameSignature ("c/" ++ ·) .ofMethod "<T:Lb/a/O<TT;>.I;>([Lb/a/O<*>.I<-Lb/a/O;>;)V" =
        .ok text'' ∧
      renameSignature (("c/" ++ ·) ∘ ("b/" ++ ·)) .ofMethod
        "<T:La/O<TT;>.I;>([La/O<*>.I<-La/O;>;)V" = .ok text'' := by
  have hkeeps : KeepsNesting ("b/" ++ ·) := .inPackage (by simp [classStops])
  have hmade : renameSignature ("b/" ++ ·) .ofMethod "<T:La/O<TT;>.I;>([La/O<*>.I<-La/O;>;)V" =
      .ok "<T:Lb/a/O<TT;>.I;>([Lb/a/O<*>.I<-Lb/a/O;>;)V" := by decide +kernel
  obtain ⟨sig, hparse, -⟩ := map_ok_iff.1 hmade
  obtain ⟨text', sig', hrename, hparse', hshape, hagain⟩ :=
    renameSignature_functorial.2 _ hkeeps _ _ _ hparse
  obtain rfl := Except.ok.inj (hmade.symm.trans hrename)
  obtain ⟨text'', hsecond, hboth⟩ := (hagain ("c/" ++ ·)).1
  exact ⟨renameSignature_functorial.1 _ _ _ hparse, sig, sig', text'', hkeeps, hparse, hparse',
    hshape, hsecond, hboth⟩

end JarRemap
