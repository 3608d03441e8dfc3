import JarRemap.Proofs.RenameTable.ClassName
import JarRemap.Proofs.Signature.Renamed

/-!
# Erased signatures under a rename table

A descriptor is the erasure of the signature beside it. A type variable is erased to the erasure of
its first bound, which is looked up where the variable is declared; one without bounds is erased to
the class of all objects. The renaming goes through signature and descriptor on its own, so the two
still belong together exactly if the class types that the signature comes down to are renamed to the
mapped classes, and the class of all objects keeps its name if it stands for a type variable.
-/

namespace JarRemap

/-! ## Erasure -/

/-- The type parameters that can be named at a place, for each declaration around it from the inside
out. -/
abbrev TypeScope := List (List TypeParameter)

/-- The type parameter that a name means, with the scope of its declaration. -/
def TypeScope.lookup? (name : String) : TypeScope → Option (TypeParameter × TypeScope)
  | [] => none
  | params :: outer =>
    match params.find? (·.name == name) with
    | some p => some (p, params :: outer)
    | none => lookup? name outer

/-- The scope with renamed classes. -/
def TypeScope.rename (f : String → String) (scope : TypeScope) : TypeScope :=
  scope.map fun params => params.map (TypeParameter.rename f)

/-- The first bound of a type parameter. -/
def TypeParameter.leftmost? (p : TypeParameter) : Option TypeSignature :=
  (p.classBound.toList ++ p.interfaceBounds).head?

/-- What a type comes down to, apart from its array dimensions. -/
inductive ErasedForm where
  | primitive (p : Primitive)
  | classType (c : ClassType)
  /-- A type variable without bounds. -/
  | unbounded

namespace ErasedForm

/-- The class of all objects. -/
def objectName : String := "java/lang/Object"

/-- The type in descriptors. -/
def base : ErasedForm → BaseType
  | .primitive p => .primitive p
  | .classType c => .object c.binaryName
  | .unbounded => .object objectName

/-- The form with renamed classes. -/
def rename (f : String → String) : ErasedForm → ErasedForm
  | .primitive p => .primitive p
  | .classType c => .classType (c.rename f)
  | .unbounded => .unbounded

/-- The renaming gives the form the new name of the class that it means. -/
def Follows (f : String → String) : ErasedForm → Prop
  | .primitive _ => True
  | .classType c => (c.rename f).binaryName = f c.binaryName
  | .unbounded => f objectName = objectName

end ErasedForm

/-- In a scope, a type comes down to a form with a number of array dimensions. -/
inductive TypeSignature.ComesTo : TypeScope → TypeSignature → Nat → ErasedForm → Prop
  | primitive {scope : TypeScope} {p : Primitive} :
    ComesTo scope (.primitive p) 0 (.primitive p)
  | classType {scope : TypeScope} {c : ClassType} : ComesTo scope (.classType c) 0 (.classType c)
  | array {scope : TypeScope} {t : TypeSignature} {n : Nat} {form : ErasedForm} :
    ComesTo scope t n form → ComesTo scope (.array t) (n + 1) form
  | bounded {scope home : TypeScope} {name : String} {p : TypeParameter} {t : TypeSignature}
      {n : Nat} {form : ErasedForm} :
    scope.lookup? name = some (p, home) → p.leftmost? = some t → ComesTo home t n form →
      ComesTo scope (.typeVariable name) n form
  | unbounded {scope home : TypeScope} {name : String} {p : TypeParameter} :
    scope.lookup? name = some (p, home) → p.leftmost? = none →
      ComesTo scope (.typeVariable name) 0 .unbounded

/-- In a scope, the erasure of the type is `d`. -/
def TypeSignature.Erases (scope : TypeScope) (t : TypeSignature) (d : FieldType) : Prop :=
  ∃ form, t.ComesTo scope d.dimensions.toNat form ∧ d.base = form.base

namespace Signature

/-- The scope inside a signature. -/
def scopeIn (outer : TypeScope) : Signature → TypeScope
  | .ofMethod m => m.typeParams :: outer
  | _ => outer

/-- The types in a signature that a descriptor beside it has too. -/
def describedTypes : Signature → List TypeSignature
  | .ofClass _ => []
  | .ofMethod m => m.params ++ m.ret.toList
  | .ofField t => [t]

/-- In the scope around it, the erasure of the signature is `d`. -/
def Erases (outer : TypeScope) : Signature → Descriptor → Prop
  | .ofMethod m, .method d =>
    List.Forall₂ (TypeSignature.Erases (m.typeParams :: outer)) m.params d.params ∧
      List.Forall₂ (TypeSignature.Erases (m.typeParams :: outer)) m.ret.toList d.ret.toList
  | .ofField t, .field d => t.Erases outer d
  | _, _ => False

/-- The erasure of the signature contains the form. -/
def ComesTo (outer : TypeScope) (sig : Signature) (form : ErasedForm) : Prop :=
  ∃ t ∈ sig.describedTypes, ∃ n, t.ComesTo (sig.scopeIn outer) n form

end Signature

variable {f : String → String} {scope : TypeScope}

/-! ## Erasure and renaming -/

theorem TypeScope.lookup?_rename (name : String) :
    (scope.rename f).lookup? name =
      (scope.lookup? name).map fun (p, home) => (p.rename f, home.rename f) := by
  induction scope with
  | nil => rfl
  | cons params outer ih =>
    have hfind : (params.map (TypeParameter.rename f)).find? (·.name == name) =
        (params.find? (·.name == name)).map (TypeParameter.rename f) := by
      rw [List.find?_map]
      rfl
    rw [rename, List.map_cons, lookup?, lookup?, hfind]
    cases params.find? (·.name == name) with
    | none => exact ih
    | some p => rfl

theorem TypeScope.lookup?_rename_some {name : String} {p : TypeParameter} {home : TypeScope}
    (h : scope.lookup? name = some (p, home)) :
    (scope.rename f).lookup? name = some (p.rename f, home.rename f) := by
  rw [lookup?_rename, h]
  rfl

theorem TypeParameter.leftmost?_rename (p : TypeParameter) :
    (p.rename f).leftmost? = p.leftmost?.map (TypeSignature.rename f) := by
  rw [leftmost?, leftmost?, bounds_rename, List.head?_map]

namespace TypeSignature

variable {t : TypeSignature} {n n' : Nat} {form form' : ErasedForm}

theorem ComesTo.unique (h : t.ComesTo scope n form) (h' : t.ComesTo scope n' form') :
    n = n' ∧ form = form' := by
  induction h generalizing n' form' with
  | primitive => cases h'; exact ⟨rfl, rfl⟩
  | classType => cases h'; exact ⟨rfl, rfl⟩
  | array _ ih =>
    cases h' with
    | array h' =>
      obtain ⟨rfl, rfl⟩ := ih h'
      exact ⟨rfl, rfl⟩
  | bounded hlookup hbound _ ih =>
    cases h' with
    | bounded hlookup' hbound' h' =>
      rw [hlookup] at hlookup'
      cases hlookup'
      rw [hbound] at hbound'
      cases hbound'
      exact ih h'
    | unbounded hlookup' hnone =>
      rw [hlookup] at hlookup'
      cases hlookup'
      rw [hbound] at hnone
      cases hnone
  | unbounded hlookup hnone =>
    cases h' with
    | bounded hlookup' hbound =>
      rw [hlookup] at hlookup'
      cases hlookup'
      rw [hnone] at hbound
      cases hbound
    | unbounded => exact ⟨rfl, rfl⟩

theorem ComesTo.rename (h : t.ComesTo scope n form) :
    (t.rename f).ComesTo (scope.rename f) n (form.rename f) := by
  induction h with
  | primitive => exact .primitive
  | classType => exact .classType
  | array _ ih => exact .array ih
  | bounded hlookup hbound _ ih =>
    refine .bounded (TypeScope.lookup?_rename_some hlookup) ?_ ih
    rw [TypeParameter.leftmost?_rename, hbound]
    rfl
  | unbounded hlookup hnone =>
    refine .unbounded (TypeScope.lookup?_rename_some hlookup) ?_
    rw [TypeParameter.leftmost?_rename, hnone]
    rfl

end TypeSignature

theorem ErasedForm.base_rename_iff {form : ErasedForm} :
    form.base.rename f = (form.rename f).base ↔ form.Follows f := by
  cases form with
  | primitive p => exact ⟨fun _ => trivial, fun _ => rfl⟩
  | classType c =>
    rw [base, BaseType.rename, rename, base, BaseType.object.injEq, eq_comm]
    rfl
  | unbounded =>
    rw [base, BaseType.rename, rename, base, BaseType.object.injEq]
    rfl

/-- The erasure of a renamed type is the renamed erasure exactly if what the type comes down to
follows the renaming. -/
theorem TypeSignature.Erases.rename_iff {t : TypeSignature} {d : FieldType}
    (h : t.Erases scope d) :
    (t.rename f).Erases (scope.rename f) (d.rename f) ↔
      ∀ n form, t.ComesTo scope n form → form.Follows f := by
  obtain ⟨form, hcomes, hbase⟩ := h
  constructor
  · rintro ⟨form', hcomes', hbase'⟩ n form'' hcomes''
    obtain ⟨-, rfl⟩ := hcomes.unique hcomes''
    obtain ⟨-, rfl⟩ := (hcomes.rename (f := f)).unique hcomes'
    rw [← ErasedForm.base_rename_iff, ← hbase]
    exact hbase'
  · intro hfollows
    refine ⟨form.rename f, hcomes.rename, ?_⟩
    rw [← ErasedForm.base_rename_iff.2 (hfollows _ form hcomes), ← hbase]
    rfl

theorem Signature.Erases.rename_iff {sig : Signature} {d : Descriptor} (h : sig.Erases scope d) :
    (sig.rename f).Erases (scope.rename f) (d.rename f) ↔
      ∀ form, sig.ComesTo scope form → form.Follows f := by
  have hforms : (∀ form, sig.ComesTo scope form → form.Follows f) ↔
      ∀ t ∈ sig.describedTypes, ∀ n form, t.ComesTo (sig.scopeIn scope) n form →
        form.Follows f := by
    constructor
    · exact fun hall t ht n form hform => hall form ⟨t, ht, n, hform⟩
    · rintro hall form ⟨t, ht, n, hform⟩
      exact hall t ht n form hform
  rw [hforms]
  cases sig with
  | ofClass c => cases d <;> exact h.elim
  | ofMethod m =>
    cases d with
    | field d => exact h.elim
    | method d =>
      have hret : ∀ o : Option FieldType,
          (o.map (FieldType.rename f)).toList = o.toList.map (FieldType.rename f) := by
        intro o
        cases o <;> rfl
      have hret' : (m.ret.map (TypeSignature.rename f)).toList =
          m.ret.toList.map (TypeSignature.rename f) := by
        cases m.ret <;> rfl
      have hiff := fun {l : List TypeSignature} {l' : List FieldType}
          (hl : List.Forall₂ (TypeSignature.Erases (m.typeParams :: scope)) l l') =>
        forall₂_map_iff (fun t d htd => htd.rename_iff (f := f)) hl
      simp only [describedTypes, List.forall_mem_append]
      exact and_congr (hiff h.1) (by
        rw [MethodSignature.rename, MethodDescriptor.rename, hret, hret']
        exact hiff h.2)
  | ofField t =>
    cases d with
    | method d => exact h.elim
    | field d =>
      simp only [describedTypes, List.forall_mem_singleton]
      exact TypeSignature.Erases.rename_iff h

/-! ## Under a table -/

/-- What a rename table makes of a signature. Its class types are renamed one by one. One leads
along the new names of the classes that it led along exactly if these nest in each other, and then
it means the new name of the class that it meant; a class type of one segment always does. If the
new names can be told from what follows them, the new text is read as the renamed signature. Where a
descriptor was the erasure of the signature, its new form is that of the renamed one exactly if all
that the signature comes down to follows the renaming. -/
theorem RenameTable.signature_follows_table (table : RenameTable) {kind : SignatureKind}
    {text : String} {sig : Signature} (hparse : Signature.parse kind text = .ok sig) :
    renameSignature table.newClassName kind text = .ok (sig.rename table.newClassName).text ∧
    (sig.rename table.newClassName).classTypes =
      sig.classTypes.map (ClassType.rename table.newClassName) ∧
    (∀ c ∈ sig.classTypes,
      ((c.rename table.newClassName).path = c.path.map table.newClassName ↔
        c.StaysNested table.newClassName) ∧
      (c.StaysNested table.newClassName →
        (c.rename table.newClassName).binaryName = table.newClassName c.binaryName) ∧
      (c.segments.length = 1 → c.StaysNested table.newClassName)) ∧
    ((∀ name ∈ sig.classNames, IsClassName (table.newClassName name)) →
      Signature.parse kind (sig.rename table.newClassName).text =
        .ok (sig.rename table.newClassName)) ∧
    ∀ (scope : TypeScope) (descriptor : String) (d : Descriptor),
      Descriptor.parse descriptor = .ok d → sig.Erases scope d →
        renameDescriptor table.newClassName descriptor = .ok (d.rename table.newClassName).text ∧
        ((sig.rename table.newClassName).Erases (scope.rename table.newClassName)
            (d.rename table.newClassName) ↔
          ∀ form, sig.ComesTo scope form → form.Follows table.newClassName) := by
  obtain ⟨⟨hkind, hwell⟩, rfl⟩ := Signature.parse_ok_iff.1 hparse
  refine ⟨?_, sig.classTypes_rename, fun c _ => ⟨c.path_rename_iff, ClassType.binaryName_rename,
    fun hlength => ?_⟩, fun hnames => ?_, fun scope descriptor d hd herases => ⟨?_, ?_⟩⟩
  · rw [renameSignature, hparse]
    rfl
  · obtain ⟨outer, inner⟩ := c
    obtain rfl : inner = [] := by simpa [ClassType.segments] using hlength
    exact ClassType.staysNested_single outer
  · refine Signature.parse_ok_iff.2 ⟨⟨?_, hwell.rename hnames⟩, rfl⟩
    rw [← hkind]
    cases sig <;> rfl
  · rw [renameDescriptor, hd]
    rfl
  · exact herases.rename_iff

/-- `La/Outer<TT;>.Inner;` -/
def innerOfGeneric : ClassType :=
  .mk (.mk "a/Outer" [.bounded .exactly (.typeVariable "T")]) [.mk "Inner" []]

theorem innerOfGeneric_parse :
    Signature.parse .ofField "La/Outer<TT;>.Inner;" =
      .ok (.ofField (.classType innerOfGeneric)) := by
  have hvariable : Signature.IsName Signature.variableStops "T" := by decide
  have houter : ClassSegment.WellFormed (.mk "a/Outer" [.bounded .exactly (.typeVariable "T")]) :=
    ⟨by decide, ⟨trivial, hvariable⟩, trivial⟩
  have hinner : ClassSegment.AllWellFormed [.mk "Inner" []] :=
    ⟨⟨by decide, trivial⟩, trivial⟩
  exact Signature.parse_ok_iff.2 ⟨⟨rfl, trivial, houter, hinner⟩, by decide⟩

/-- Renames an outer class and the class nested in it. -/
def pairTable (outer inner : String) : RenameTable :=
  ⟨[⟨"a/Outer", outer, [], []⟩, ⟨"a/Outer$Inner", inner, [], []⟩]⟩

theorem pairTable_newClassName (outer inner : String) :
    (pairTable outer inner).newClassName "a/Outer" = outer ∧
      (pairTable outer inner).newClassName "a/Outer$Inner" = inner :=
  ⟨RenameTable.newClassName_of_row rfl, RenameTable.newClassName_of_row rfl⟩

/-- A nested class that stays in its outer class is renamed with it. -/
theorem RenameTable.signature_follows_table_nested :
    renameSignature (pairTable "x/Outer" "x/Outer$Renamed").newClassName .ofField
        "La/Outer<TT;>.Inner;" =
      .ok (Signature.rename (pairTable "x/Outer" "x/Outer$Renamed").newClassName
        (.ofField (.classType innerOfGeneric))).text ∧
    (innerOfGeneric.rename (pairTable "x/Outer" "x/Outer$Renamed").newClassName).binaryName =
      "x/Outer$Renamed" := by
  obtain ⟨houter, hinner⟩ := pairTable_newClassName "x/Outer" "x/Outer$Renamed"
  obtain ⟨htext, -, hpath, -⟩ :=
    (pairTable "x/Outer" "x/Outer$Renamed").signature_follows_table innerOfGeneric_parse
  have hstays :
      innerOfGeneric.StaysNested (pairTable "x/Outer" "x/Outer$Renamed").newClassName := by
    refine .cons_cons ⟨"Renamed", ?_⟩ (.singleton _)
    rw [houter]
    exact hinner
  refine ⟨htext, ?_⟩
  rw [(hpath innerOfGeneric List.mem_cons_self).2.1 hstays]
  exact hinner

/-- `<T:>(TT;)V` -/
def ofBareVariable : MethodSignature :=
  ⟨[⟨"T", none, []⟩], [.typeVariable "T"], none, []⟩

/-- Renames the class of all objects. -/
def objectTable : RenameTable :=
  ⟨[⟨ErasedForm.objectName, "o/Top", [], []⟩]⟩

theorem ofBareVariable_erases :
    Signature.Erases [] (.ofMethod ofBareVariable)
      (.method ⟨[⟨0, .object ErasedForm.objectName⟩], none⟩) :=
  ⟨.cons ⟨.unbounded, .unbounded rfl rfl, rfl⟩ .nil, .nil⟩

theorem innerOfGeneric_rename_flat :
    innerOfGeneric.rename (pairTable "x/Outer" "y/Flat").newClassName =
      .mk (.mk "x/Outer" [.bounded .exactly (.typeVariable "T")]) [.mk "y/Flat" []] := by
  obtain ⟨houter, hinner⟩ := pairTable_newClassName "x/Outer" "y/Flat"
  have hsimple : simpleNameWithin "x/Outer" "y/Flat" = "y/Flat" := by decide
  have hnested : "a/Outer" ++ "$" ++ "Inner" = "a/Outer$Inner" := by decide
  simp only [innerOfGeneric, ClassType.rename, ClassSegment.renameInner, TypeArgument.renameAll,
    TypeArgument.rename, TypeSignature.rename, hnested, houter, hinner, hsimple]

/-- A nested class that leaves its outer class is another one in the signature than in the
descriptor beside it, although the descriptor was the erasure of the signature; and so it is if a
type variable without bounds stands for a class that is renamed. -/
theorem RenameTable.signature_leaves_descriptor :
    Signature.parse .ofField "La/Outer<TT;>.Inner;" = .ok (.ofField (.classType innerOfGeneric)) ∧
    (innerOfGeneric.rename (pairTable "x/Outer" "y/Flat").newClassName).binaryName =
      "x/Outer$y/Flat" ∧
    (pairTable "x/Outer" "y/Flat").newClassName innerOfGeneric.binaryName = "y/Flat" ∧
    renameSignature (pairTable "x/Outer" "y/Flat").newClassName .ofField "La/Outer<TT;>.Inner;" =
      .ok "Lx/Outer<TT;>.y/Flat;" ∧
    renameDescriptor (pairTable "x/Outer" "y/Flat").newClassName "La/Outer$Inner;" =
      .ok "Ly/Flat;" ∧
    Signature.Erases [] (.ofMethod ofBareVariable)
      (.method ⟨[⟨0, .object ErasedForm.objectName⟩], none⟩) ∧
    ¬ Signature.Erases [] (.ofMethod (ofBareVariable.rename objectTable.newClassName))
      (.method ⟨[⟨0, .object (objectTable.newClassName ErasedForm.objectName)⟩], none⟩) := by
  refine ⟨innerOfGeneric_parse, ?_, ?_, ?_, ?_, ofBareVariable_erases, ?_⟩
  · rw [innerOfGeneric_rename_flat]
    decide
  · exact (pairTable_newClassName "x/Outer" "y/Flat").2
  · rw [renameSignature, innerOfGeneric_parse]
    change Except.ok (TypeSignature.text (.classType (innerOfGeneric.rename _))) = _
    rw [innerOfGeneric_rename_flat]
    decide
  · refine renameDescriptor_ok_iff.2 ⟨.field ⟨0, .object "a/Outer$Inner"⟩, ?_, by decide, ?_⟩
    · intro name hname
      rw [List.mem_singleton.1 hname]
      exact ⟨by decide, by decide⟩
    · rw [Descriptor.rename, FieldType.rename, BaseType.rename,
        (pairTable_newClassName "x/Outer" "y/Flat").2]
      decide
  · have hobject : objectTable.newClassName ErasedForm.objectName = "o/Top" :=
      RenameTable.newClassName_of_row rfl
    intro herases
    have hfollows := (ofBareVariable_erases.rename_iff (f := objectTable.newClassName)).1 herases
      .unbounded ⟨_, List.mem_cons_self, 0, .unbounded rfl rfl⟩
    rw [ErasedForm.Follows, hobject] at hfollows
    revert hfollows
    decide

end JarRemap
