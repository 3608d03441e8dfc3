import JarRemap.Proofs.Rename.MemberName
import JarRemap.Proofs.Rename.RenamedClass
import JarRemap.Proofs.RenameTable.ClassName

/-!
# What renaming a class asks for

The names that the passes over a class look up: in the table, the classes that descriptors,
signatures and class entries mention and the names of parameters; through the hierarchy, members. As
every old name is read from the pool as it was parsed, what is asked for depends on the class alone
and not on the answers. Each relation holds of a part of a class and the questions that renaming
this part puts.
-/

namespace JarRemap

/-- A question that is put in renaming a class. -/
inductive Question where
  | className (name : String)
  | memberName (k : MemberKey)
  | parameterName (owner method descriptor : String) (slot : ℕ) (name : String)

/-- The remapper answers with the old name, if it does not fail. -/
def Remapper.GivesBack (r : Remapper) : Question → Prop
  | .className name => r.table.newClassName name = name
  | .memberName k => ∀ name, r.memberName k = .ok name → name = k.name
  | .parameterName owner method descriptor slot name =>
    r.table.newParameterName owner method descriptor slot name = name

/-! ## Texts -/

/-- The classes in a descriptor. -/
inductive DescriptorAsks (s : String) : Question → Prop
  | mk {d : Descriptor} {name : String} : Descriptor.parse s = .ok d → name ∈ d.classNames →
    DescriptorAsks s (.className name)

/-- The classes in a signature. -/
inductive SignatureAsks (kind : SignatureKind) (s : String) : Question → Prop
  | mk {sig : Signature} {name : String} : Signature.parse kind s = .ok sig →
    name ∈ sig.classNames → SignatureAsks kind s (.className name)

/-- A member and the classes in its descriptor. -/
inductive MemberAsks (kind : MemberKind) (holder name descriptor : String) : Question → Prop
  | name : MemberAsks kind holder name descriptor (.memberName ⟨kind, holder, name, descriptor⟩)
  | descriptor {q : Question} : DescriptorAsks descriptor q →
    MemberAsks kind holder name descriptor q

section

variable (source : ConstantPool)

/-- What is asked for about the text in a slot. -/
inductive SlotAsks (asks : String → Question → Prop) (i : UInt16) : Question → Prop
  | mk {s : String} {q : Question} : source.text i = .ok s → asks s q → SlotAsks asks i q

/-! ## Entries of the pool -/

/-- What is asked for about an entry of the pool. -/
inductive ConstantAsks (attributes : List Attribute) : Constant → Question → Prop
  | className {i : UInt16} {s : String} : source.text i = .ok s → Text.beginsWith '[' s = false →
    ConstantAsks attributes (.classEntry i) (.className s)
  | arrayName {i : UInt16} {s : String} {q : Question} : source.text i = .ok s →
    Text.beginsWith '[' s = true → DescriptorAsks s q → ConstantAsks attributes (.classEntry i) q
  | reference {k : Constant} {kind : MemberKind} {owner nat : UInt16} {o n d : String}
      {q : Question} :
    k.memberKind? = some kind → k.reference? = some (owner, nat) → source.className owner = .ok o →
    source.nameAndType nat = .ok (n, d) → MemberAsks kind o n d q → ConstantAsks attributes k q
  | methodType {i : UInt16} {q : Question} : SlotAsks source DescriptorAsks i q →
    ConstantAsks attributes (.methodType i) q
  | dynamic {bootstrap nat : UInt16} {n d : String} {q : Question} :
    source.nameAndType nat = .ok (n, d) → DescriptorAsks d q →
    ConstantAsks attributes (.dynamic bootstrap nat) q
  | invokeDynamic {bootstrap nat : UInt16} {n d : String} {q : Question} :
    source.nameAndType nat = .ok (n, d) → DescriptorAsks d q →
    ConstantAsks attributes (.invokeDynamic bootstrap nat) q
  | lambda {bootstrap nat : UInt16} {n d interfaceName erased : String} :
    source.nameAndType nat = .ok (n, d) →
    LambdaSite source attributes bootstrap d interfaceName erased →
    ConstantAsks attributes (.invokeDynamic bootstrap nat)
      (.memberName ⟨.method, interfaceName, n, erased⟩)

/-! ## Annotations -/

mutual

/-- What is asked for about an annotation. -/
inductive UseAsks : AnnotationUse → Question → Prop
  | type {type : UInt16} {elements : List ElementPair} {q : Question} :
    SlotAsks source DescriptorAsks type q → UseAsks (.mk type elements) q
  | elements {type : UInt16} {elements : List ElementPair} {q : Question} :
    PairsAsks elements q → UseAsks (.mk type elements) q

/-- What is asked for about named elements. -/
inductive PairsAsks : List ElementPair → Question → Prop
  | value {name : UInt16} {value : ElementValue} {more : List ElementPair} {q : Question} :
    ValueAsks value q → PairsAsks (.mk name value :: more) q
  | more {first : ElementPair} {more : List ElementPair} {q : Question} :
    PairsAsks more q → PairsAsks (first :: more) q

/-- What is asked for about the value of an element. -/
inductive ValueAsks : ElementValue → Question → Prop
  | enumConstant {type name : UInt16} {d n : String} {t : FieldType} {q : Question} :
    source.text type = .ok d → source.text name = .ok n → FieldType.parse d = .ok t →
    MemberAsks .field t.internalName n d q → ValueAsks (.enumConstant type name) q
  | classLiteral {i : UInt16} {d : String} {q : Question} : source.text i = .ok d → d ≠ "V" →
    DescriptorAsks d q → ValueAsks (.classLiteral i) q
  | nested {use : AnnotationUse} {q : Question} : UseAsks use q → ValueAsks (.nested use) q
  | array {values : List ElementValue} {q : Question} : ValuesAsks values q →
    ValueAsks (.array values) q

/-- What is asked for about values. -/
inductive ValuesAsks : List ElementValue → Question → Prop
  | value {v : ElementValue} {more : List ElementValue} {q : Question} : ValueAsks v q →
    ValuesAsks (v :: more) q
  | more {v : ElementValue} {more : List ElementValue} {q : Question} : ValuesAsks more q →
    ValuesAsks (v :: more) q

end

/-! ## Rows of tables -/

/-- The class of a nested class with a simple name. -/
inductive InnerClassAsks (c : InnerClass) : Question → Prop
  | mk {name : String} : c.innerName ≠ 0 → source.className c.innerClass = .ok name →
    InnerClassAsks c (.className name)

/-- The enclosing method, if there is one. -/
inductive EnclosingAsks (e : EnclosingMethod) : Question → Prop
  | mk {holder n d : String} {q : Question} : e.method ≠ 0 → source.className e.owner = .ok holder →
    source.nameAndType e.method = .ok (n, d) → MemberAsks .method holder n d q → EnclosingAsks e q

/-- The name of a local variable that is a parameter, and what `type` asks for about the slot of its
type. -/
inductive VariableAsks (owner method descriptor : String) (slots : List ℕ)
    (type : UInt16 → Question → Prop) (v : LocalVariable) : Question → Prop
  | name {s : String} : v.start = 0 → v.slot.toNat ∈ slots → source.text v.name = .ok s →
    VariableAsks owner method descriptor slots type v
      (.parameterName owner method descriptor v.slot.toNat s)
  | type {q : Question} : type v.descriptor q →
    VariableAsks owner method descriptor slots type v q

/-- What is asked for about an attribute in the body of a method. -/
inductive CodeAttributeAsks (owner method descriptor : String) (slots : List ℕ) (a : Attribute) :
    Question → Prop
  | localVariables {rows : List LocalVariable} {v : LocalVariable} {q : Question} :
    a.name = AttributeFormat.localVariables.name →
    AttributeFormat.localVariables.parse source a.info = .ok rows → v ∈ rows →
    VariableAsks source owner method descriptor slots (SlotAsks source DescriptorAsks) v q →
    CodeAttributeAsks owner method descriptor slots a q
  | localVariableTypes {rows : List LocalVariable} {v : LocalVariable} {q : Question} :
    a.name = AttributeFormat.localVariableTypes.name →
    AttributeFormat.localVariableTypes.parse source a.info = .ok rows → v ∈ rows →
    VariableAsks source owner method descriptor slots (SlotAsks source (SignatureAsks .ofField)) v
      q →
    CodeAttributeAsks owner method descriptor slots a q

/-- The names of the parameters of a method that have a slot and a name. -/
inductive ParametersAsk (owner method descriptor : String) :
    List MethodParameter → List ℕ → Question → Prop
  | name {p : MethodParameter} {params : List MethodParameter} {slot : ℕ} {slots : List ℕ}
      {s : String} :
    p.name ≠ 0 → source.text p.name = .ok s →
    ParametersAsk owner method descriptor (p :: params) (slot :: slots)
      (.parameterName owner method descriptor slot s)
  | more {p : MethodParameter} {params : List MethodParameter} {slot : ℕ} {slots : List ℕ}
      {q : Question} :
    ParametersAsk owner method descriptor params slots q →
    ParametersAsk owner method descriptor (p :: params) (slot :: slots) q

/-! ## Attributes -/

mutual

/-- What is asked for about an attribute at a site. -/
inductive AttributeAsks (owner : String) : AttributeSite → Attribute → Question → Prop
  | signature {site : AttributeSite} {a : Attribute} {i : UInt16} {q : Question} :
    a.name = signatureName → a.index = .ok i →
    SlotAsks source (SignatureAsks site.signatureKind) i q → AttributeAsks owner site a q
  | annotations {site : AttributeSite} {a : Attribute} {uses : List AnnotationUse}
      {use : AnnotationUse} {q : Question} :
    a.name ∈ AnnotationUse.attributeNames → AnnotationUse.parse a.info = .ok uses → use ∈ uses →
    UseAsks source use q → AttributeAsks owner site a q
  | parameterAnnotations {site : AttributeSite} {a : Attribute} {params : List (List AnnotationUse)}
      {uses : List AnnotationUse} {use : AnnotationUse} {q : Question} :
    a.name ∈ AnnotationUse.parameterAttributeNames →
    AnnotationUse.parseForParameters a.info = .ok params → uses ∈ params → use ∈ uses →
    UseAsks source use q → AttributeAsks owner site a q
  | annotationDefault {site : AttributeSite} {a : Attribute} {v : ElementValue} {q : Question} :
    a.name = AttributeFormat.annotationDefault.name →
    AttributeFormat.annotationDefault.parse source a.info = .ok v → ValueAsks source v q →
    AttributeAsks owner site a q
  | code {method descriptor : String} {isStatic : Bool} {a b : Attribute} {body : CodeBody}
      {slots : List ℕ} {q : Question} :
    a.name = AttributeFormat.code.name → AttributeFormat.code.parse source a.info = .ok body →
    parameterSlots descriptor isStatic = .ok slots → b ∈ body.attributes →
    CodeAttributeAsks source owner method descriptor slots b q →
    AttributeAsks owner (.ofMethod method descriptor isStatic) a q
  | methodParameters {method descriptor : String} {isStatic : Bool} {a : Attribute}
      {params : List MethodParameter} {slots : List ℕ} {q : Question} :
    a.name = AttributeFormat.methodParameters.name →
    AttributeFormat.methodParameters.parse source a.info = .ok params →
    parameterSlots descriptor isStatic = .ok slots →
    ParametersAsk source owner method descriptor params slots q →
    AttributeAsks owner (.ofMethod method descriptor isStatic) a q
  | recordComponents {site : AttributeSite} {a : Attribute} {rows : List RecordComponent}
      {c : RecordComponent} {q : Question} :
    a.name = AttributeFormat.recordComponents.name →
    AttributeFormat.recordComponents.parse source a.info = .ok rows → c ∈ rows →
    ComponentAsks owner c q → AttributeAsks owner site a q
  | innerClasses {site : AttributeSite} {a : Attribute} {rows : List InnerClass} {c : InnerClass}
      {q : Question} :
    a.name = AttributeFormat.innerClasses.name →
    AttributeFormat.innerClasses.parse source a.info = .ok rows → c ∈ rows →
    InnerClassAsks source c q → AttributeAsks owner site a q
  | enclosingMethod {site : AttributeSite} {a : Attribute} {e : EnclosingMethod} {q : Question} :
    a.name = AttributeFormat.enclosingMethod.name →
    AttributeFormat.enclosingMethod.parse source a.info = .ok e → EnclosingAsks source e q →
    AttributeAsks owner site a q

/-- What is asked for about a component of a record, which is a field of the class. -/
inductive ComponentAsks (owner : String) : RecordComponent → Question → Prop
  | component {c : RecordComponent} {n d : String} {q : Question} :
    source.text c.name = .ok n → source.text c.descriptor = .ok d → MemberAsks .field owner n d q →
    ComponentAsks owner c q
  | attribute {c : RecordComponent} {a : Attribute} {q : Question} : a ∈ c.attributes →
    AttributeAsks owner .ofComponent a q → ComponentAsks owner c q

end

/-! ## Members and the class -/

/-- What is asked for about a member of the class `owner`. -/
inductive DeclarationAsks (owner : String) (kind : MemberKind)
    (site : String → String → AttributeSite) (m : Member) : Question → Prop
  | member {n d : String} {q : Question} : source.text m.name = .ok n →
    source.text m.descriptor = .ok d → MemberAsks kind owner n d q →
    DeclarationAsks owner kind site m q
  | attribute {n d : String} {a : Attribute} {q : Question} : source.text m.name = .ok n →
    source.text m.descriptor = .ok d → a ∈ m.attributes →
    AttributeAsks source owner (site n d) a q → DeclarationAsks owner kind site m q

end

/-- What is asked for in renaming a class whose old name is `owner`. -/
inductive ClassFile.Asks (owner : String) (c : ClassFile) : Question → Prop
  | constant {i : UInt16} {k : Constant} {q : Question} : (i, k) ∈ c.pool.toList →
    ConstantAsks c.pool c.attributes k q → Asks owner c q
  | field {m : Member} {q : Question} : m ∈ c.fields →
    DeclarationAsks c.pool owner .field (fun _ _ => .ofField) m q → Asks owner c q
  | method {m : Member} {q : Question} : m ∈ c.methods →
    DeclarationAsks c.pool owner .method
      (fun name descriptor => .ofMethod name descriptor (m.access.contains .staticFlag)) m q →
    Asks owner c q
  | attribute {a : Attribute} {q : Question} : a ∈ c.attributes →
    AttributeAsks c.pool owner .ofClass a q → Asks owner c q

/-! ## Tables that rename nothing -/

/-- The class, its fields and its methods keep their names, and no parameter is renamed. -/
def ClassRename.Keeps (c : ClassRename) : Prop :=
  c.newName = c.oldName ∧ (∀ f ∈ c.fields, f.newName = f.oldName) ∧
    ∀ m ∈ c.methods, m.newName = m.oldName ∧ m.params = []

instance (c : ClassRename) : Decidable c.Keeps :=
  inferInstanceAs (Decidable (_ ∧ _ ∧ _))

namespace RenameTable

/-- Every row keeps the names it is for. -/
def Keeps (t : RenameTable) : Prop :=
  ∀ c ∈ t.classes, c.Keeps

instance (t : RenameTable) : Decidable t.Keeps :=
  inferInstanceAs (Decidable (∀ c ∈ t.classes, c.Keeps))

theorem keeps_empty : empty.Keeps := by decide

namespace Keeps

variable {t : RenameTable} (h : t.Keeps)
include h

theorem row {owner : String} {c : ClassRename} (hrow : t.class? owner = some c) : c.Keeps :=
  h c (List.mem_of_find?_eq_some hrow)

theorem className_eq {name new : String} (hnew : t.className? name = some new) : new = name := by
  obtain ⟨c, hrow, rfl⟩ := Option.map_eq_some_iff.1 hnew
  have hname : c.oldName = name := by simpa using List.find?_some hrow
  rw [(h.row hrow).1, hname]

theorem memberName_eq {k : MemberKey} {new : String} (hnew : t.memberName? k = some new) :
    new = k.name := by
  obtain ⟨kind, owner, name, descriptor⟩ := k
  cases kind with
  | field =>
    obtain ⟨f, hf, rfl⟩ := Option.map_eq_some_iff.1 hnew
    obtain ⟨c, hrow, hfield⟩ := Option.bind_eq_some_iff.1 hf
    obtain ⟨hfind, -⟩ := Option.filter_eq_some_iff.1 hfield
    have hname : f.oldName = name := by simpa using List.find?_some hfind
    rw [(h.row hrow).2.1 f (List.mem_of_find?_eq_some hfind), hname]
  | method =>
    obtain ⟨m, hm, rfl⟩ := Option.map_eq_some_iff.1 hnew
    obtain ⟨c, hrow, hfind⟩ := Option.bind_eq_some_iff.1 hm
    have hname : m.oldName = name ∧ m.descriptor = descriptor := by
      simpa [MethodRename.isFor] using List.find?_some hfind
    rw [((h.row hrow).2.2 m (List.mem_of_find?_eq_some hfind)).1, hname.1]

theorem parameterName_eq (owner method descriptor : String) (slot : ℕ) :
    t.parameterName? owner method descriptor slot = none := by
  rw [parameterName?, Option.map_eq_none_iff, Option.bind_eq_none_iff]
  intro m hm
  obtain ⟨c, hrow, hfind⟩ := Option.bind_eq_some_iff.1 hm
  have hparams := ((h.row hrow).2.2 m (List.mem_of_find?_eq_some hfind)).2
  rw [MethodRename.param?, hparams, List.find?_nil]

end Keeps

end RenameTable

namespace Remapper

variable {r : Remapper}

/-- Where no row has a new name for a member, no class of the hierarchy gives it one. -/
theorem memberName_of_keeps (h : r.table.Keeps) {k : MemberKey} {name : String}
    (hname : r.memberName k = .ok name) : name = k.name := by
  rw [memberName] at hname
  split at hname
  case isTrue =>
    cases hname
    rfl
  case isFalse =>
    obtain ⟨found, hfound, rfl⟩ := map_ok_iff.1 hname
    rw [search, RenameTable.search] at hfound
    split at hfound
    case h_1 mapped hrow =>
      cases hfound
      exact h.memberName_eq hrow
    case h_2 =>
      cases found with
      | none => rfl
      | some new =>
        have hvisited : ∃ c, r.table.nameFrom? k c = some new :=
          Walk.exists_visit_of_ancestors hfound
        obtain ⟨c, hc⟩ := hvisited
        obtain ⟨m, -, -, hnew⟩ := nameFrom?_eq_some_iff.1 hc
        have hsame := h.memberName_eq hnew
        exact hsame

/-- A table that renames nothing gives back every name. -/
theorem givesBack_of_keeps (h : r.table.Keeps) (q : Question) : r.GivesBack q := by
  cases q with
  | className name => exact RenameTable.newClassName_eq_self (fun _ _ => h.className_eq) name
  | memberName k => exact fun name hname => memberName_of_keeps h hname
  | parameterName owner method descriptor slot name =>
    rw [GivesBack, RenameTable.newParameterName, h.parameterName_eq]
    rfl

end Remapper

end JarRemap
