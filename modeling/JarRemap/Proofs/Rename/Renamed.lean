import JarRemap.Rename.Pass
import Mathlib.Data.List.Forall2

/-!
# What a renamed class looks like

The vocabulary in which a renaming is described from outside: how the parts of a class, which hold
slots of the pool that was parsed, correspond to the parts of the renamed class, which hold slots of
its own pool. Nothing here says how a part comes about. Each relation speaks of what slots resolve
to, in the old pool on one side and in the new pool on the other.
-/

namespace JarRemap

/-- The entry is of a kind that a renaming leaves alone. -/
def Constant.IsKept : Constant → Prop
  | .classEntry _ | .fieldRef _ _ | .methodRef _ _ | .interfaceMethodRef _ _ | .methodType _
  | .dynamic _ _ | .invokeDynamic _ _ => False
  | _ => True

section

variable (r : Remapper) (old new : ConstantPool)

/-! ## Slots -/

/-- The old slot holds a descriptor, and the new one its new form. -/
def DescriptorRenamed (i j : UInt16) : Prop :=
  ∃ d d', old.text i = .ok d ∧ renameDescriptor r.table.newClassName d = .ok d' ∧
    new.text j = .ok d'

/-- The old slot holds a signature, and the new one its new form. -/
def SignatureRenamed (kind : SignatureKind) (i j : UInt16) : Prop :=
  ∃ s s', old.text i = .ok s ∧ renameSignature r.table.newClassName kind s = .ok s' ∧
    new.text j = .ok s'

/-- The old slots hold the name and the descriptor of a member of the class `holder`, and the new
slot its new name. -/
def MemberNameRenamed (kind : MemberKind) (holder : String) (name descriptor name' : UInt16) :
    Prop :=
  ∃ n d n', old.text name = .ok n ∧ old.text descriptor = .ok d ∧
    r.memberName ⟨kind, holder, n, d⟩ = .ok n' ∧ new.text name' = .ok n'

/-- The old slot holds the name of a parameter, and the new one its new name. -/
def ParameterNameRenamed (owner method descriptor : String) (slot : ℕ) (i j : UInt16) : Prop :=
  ∃ s, old.text i = .ok s ∧
    new.text j = .ok (r.table.newParameterName owner method descriptor slot s)

/-! ## Entries of the pool -/

/-- The old slots hold the owner of a member and its name and descriptor, and the new slot its new
name and descriptor. -/
def ReferenceRenamed (kind : MemberKind) (owner nameAndType nameAndType' : UInt16) : Prop :=
  ∃ o n d n' d', old.className owner = .ok o ∧ old.nameAndType nameAndType = .ok (n, d) ∧
    r.memberName ⟨kind, o, n, d⟩ = .ok n' ∧
    renameDescriptor r.table.newClassName d = .ok d' ∧ new.nameAndType nameAndType' = .ok (n', d')

/-- A call site that a lambda factory links: it returns an interface of this name and implements the
method whose erased descriptor is the first argument of its bootstrap method. -/
structure LambdaSite (attributes : List Attribute) (bootstrap : UInt16)
    (descriptor interfaceName erased : String) : Prop where
  linked : ∃ bootstraps linker kind reference factory first index,
    AttributeFormat.bootstrapMethods.parseAmong old attributes = .ok (some bootstraps) ∧
    bootstraps[bootstrap.toNat]? = some linker ∧
    old.entry? linker.method = some (.methodHandle kind reference) ∧
    old.memberReference reference = .ok factory ∧
    factory.owner = RenamePass.lambdaFactory ∧ factory.name ∈ RenamePass.lambdaLinkers ∧
    linker.arguments.head? = some first ∧ old.entry? first = some (.methodType index) ∧
    old.text index = .ok erased
  returned : ∃ params,
    MethodDescriptor.parse descriptor = .ok ⟨params, some ⟨0, .object interfaceName⟩⟩

/-- The new name at a call site: that of the method which a lambda implements, or else the old
one. -/
def SiteNamed (attributes : List Attribute) (bootstrap : UInt16) (name descriptor name' : String) :
    Prop :=
  (∃ interfaceName erased, LambdaSite old attributes bootstrap descriptor interfaceName erased ∧
    r.memberName ⟨.method, interfaceName, name, erased⟩ = .ok name') ∨
  ((∀ interfaceName erased,
    ¬ LambdaSite old attributes bootstrap descriptor interfaceName erased) ∧ name' = name)

/-- What an entry of the old pool becomes. -/
inductive EntryRenamed (attributes : List Attribute) : Constant → Constant → Prop
  | classEntry {name name' : UInt16} {s s' : String} : old.text name = .ok s →
    r.table.newClassConstant s = .ok s' → new.text name' = .ok s' →
    EntryRenamed attributes (.classEntry name) (.classEntry name')
  | fieldRef {owner nat nat' : UInt16} : ReferenceRenamed r old new .field owner nat nat' →
    EntryRenamed attributes (.fieldRef owner nat) (.fieldRef owner nat')
  | methodRef {owner nat nat' : UInt16} : ReferenceRenamed r old new .method owner nat nat' →
    EntryRenamed attributes (.methodRef owner nat) (.methodRef owner nat')
  | interfaceMethodRef {owner nat nat' : UInt16} :
    ReferenceRenamed r old new .method owner nat nat' →
    EntryRenamed attributes (.interfaceMethodRef owner nat) (.interfaceMethodRef owner nat')
  | methodType {d d' : UInt16} : DescriptorRenamed r old new d d' →
    EntryRenamed attributes (.methodType d) (.methodType d')
  | dynamic {bootstrap nat nat' : UInt16} {n d d' : String} :
    old.nameAndType nat = .ok (n, d) → renameDescriptor r.table.newClassName d = .ok d' →
    new.nameAndType nat' = .ok (n, d') →
    EntryRenamed attributes (.dynamic bootstrap nat) (.dynamic bootstrap nat')
  | invokeDynamic {bootstrap nat nat' : UInt16} {n d n' d' : String} :
    old.nameAndType nat = .ok (n, d) → SiteNamed r old attributes bootstrap n d n' →
    renameDescriptor r.table.newClassName d = .ok d' → new.nameAndType nat' = .ok (n', d') →
    EntryRenamed attributes (.invokeDynamic bootstrap nat) (.invokeDynamic bootstrap nat')
  | kept {k : Constant} : k.IsKept → EntryRenamed attributes k k

/-! ## Annotations -/

mutual

/-- The type of an annotation and the values of its elements are renamed. -/
inductive UseRenamed : AnnotationUse → AnnotationUse → Prop
  | mk {type type' : UInt16} {elements elements' : List ElementPair} :
    DescriptorRenamed r old new type type' → PairsRenamed elements elements' →
    UseRenamed (.mk type elements) (.mk type' elements')

/-- Elements keep their names, and their values are renamed. -/
inductive PairsRenamed : List ElementPair → List ElementPair → Prop
  | nil : PairsRenamed [] []
  | cons {name : UInt16} {value value' : ElementValue} {more more' : List ElementPair} :
    ValueRenamed value value' → PairsRenamed more more' →
    PairsRenamed (.mk name value :: more) (.mk name value' :: more')

/-- A constant stays. The constant of an enum is renamed as a field of its type, and the literal of
a class as a descriptor, unless it is that of no value. -/
inductive ValueRenamed : ElementValue → ElementValue → Prop
  | constant (tag : UInt8) (value : UInt16) :
    ValueRenamed (.constant tag value) (.constant tag value)
  | enumConstant {type type' name name' : UInt16} {d : String} {t : FieldType} :
    old.text type = .ok d → FieldType.parse d = .ok t → DescriptorRenamed r old new type type' →
    MemberNameRenamed r old new .field t.internalName name type name' →
    ValueRenamed (.enumConstant type name) (.enumConstant type' name')
  | noValue {i : UInt16} : old.text i = .ok "V" → new.text i = .ok "V" →
    ValueRenamed (.classLiteral i) (.classLiteral i)
  | classLiteral {i j : UInt16} : old.text i ≠ .ok "V" → DescriptorRenamed r old new i j →
    ValueRenamed (.classLiteral i) (.classLiteral j)
  | nested {use use' : AnnotationUse} : UseRenamed use use' →
    ValueRenamed (.nested use) (.nested use')
  | array {values values' : List ElementValue} : ValuesRenamed values values' →
    ValueRenamed (.array values) (.array values')

/-- Values are renamed one by one. -/
inductive ValuesRenamed : List ElementValue → List ElementValue → Prop
  | nil : ValuesRenamed [] []
  | cons {v v' : ElementValue} {more more' : List ElementValue} :
    ValueRenamed v v' → ValuesRenamed more more' → ValuesRenamed (v :: more) (v' :: more')

end

/-! ## Rows of tables -/

/-- A nested class keeps its slots but for that of its simple name, which is renamed if there is
one. -/
structure InnerClassRenamed (c c' : InnerClass) : Prop where
  rest_eq : c' = { c with innerName := c'.innerName }
  name_absent : c.innerName = 0 → c'.innerName = 0
  name_renamed : c.innerName ≠ 0 → ∃ name simple, old.className c.innerClass = .ok name ∧
    old.text c.innerName = .ok simple ∧
    new.text c'.innerName = .ok (r.table.newSimpleName name simple)

/-- The class around a local class keeps its slot, and the method is renamed if there is one. -/
structure EnclosingRenamed (e e' : EnclosingMethod) : Prop where
  owner_eq : e'.owner = e.owner
  method_absent : e.method = 0 → e'.method = 0
  method_renamed : e.method ≠ 0 → ∃ holder name descriptor name' descriptor',
    old.className e.owner = .ok holder ∧ old.nameAndType e.method = .ok (name, descriptor) ∧
    r.memberName ⟨.method, holder, name, descriptor⟩ = .ok name' ∧
    renameDescriptor r.table.newClassName descriptor = .ok descriptor' ∧
    new.nameAndType e'.method = .ok (name', descriptor')

/-- A local variable keeps its range and its slot. Its type is renamed, and so is its name exactly
if it is a parameter: if it lives from the beginning in the slot of one. -/
structure VariableRenamed (owner method descriptor : String) (slots : List ℕ)
    (type : UInt16 → UInt16 → Prop) (v v' : LocalVariable) : Prop where
  rest_eq : v' = { v with name := v'.name, descriptor := v'.descriptor }
  type_renamed : type v.descriptor v'.descriptor
  name_renamed : v.start = 0 ∧ v.slot.toNat ∈ slots →
    ParameterNameRenamed r old new owner method descriptor v.slot.toNat v.name v'.name
  name_eq : ¬ (v.start = 0 ∧ v.slot.toNat ∈ slots) → v'.name = v.name

/-- Parameters keep their flags. One that has a slot and a name gets its new name. -/
structure ParametersRenamed (owner method descriptor : String) (slots : List ℕ)
    (params params' : List MethodParameter) : Prop where
  length_eq : params'.length = params.length
  access_eq : ∀ (i : ℕ) p p', params[i]? = some p → params'[i]? = some p' → p'.access = p.access
  name_renamed : ∀ (i : ℕ) p p' slot, params[i]? = some p → params'[i]? = some p' →
    slots[i]? = some slot → p.name ≠ 0 →
    ParameterNameRenamed r old new owner method descriptor slot p.name p'.name
  name_eq : ∀ (i : ℕ) p p', params[i]? = some p → params'[i]? = some p' →
    slots[i]? = none ∨ p.name = 0 → p'.name = p.name

/-! ## Attributes -/

/-- An attribute keeps its name, the slot of its name and the length of its body. -/
structure Attribute.Reencoded (a a' : Attribute) : Prop where
  nameIndex_eq : a'.nameIndex = a.nameIndex
  name_eq : a'.name = a.name
  length_eq : a'.info.length = a.info.length

/-- The two tables of local variables in the body of a method are renamed; whatever else is there
stays. -/
inductive CodeAttributeRenamed (owner method descriptor : String) (slots : List ℕ) :
    Attribute → Attribute → Prop
  | localVariables {a a' : Attribute} {rows rows' : List LocalVariable} : a.Reencoded a' →
    a.name = AttributeFormat.localVariables.name →
    AttributeFormat.localVariables.parse old a.info = .ok rows →
    AttributeFormat.localVariables.parse new a'.info = .ok rows' →
    List.Forall₂ (VariableRenamed r old new owner method descriptor slots
      (DescriptorRenamed r old new)) rows rows' →
    CodeAttributeRenamed owner method descriptor slots a a'
  | localVariableTypes {a a' : Attribute} {rows rows' : List LocalVariable} : a.Reencoded a' →
    a.name = AttributeFormat.localVariableTypes.name →
    AttributeFormat.localVariableTypes.parse old a.info = .ok rows →
    AttributeFormat.localVariableTypes.parse new a'.info = .ok rows' →
    List.Forall₂ (VariableRenamed r old new owner method descriptor slots
      (SignatureRenamed r old new .ofField)) rows rows' →
    CodeAttributeRenamed owner method descriptor slots a a'
  | other {a : Attribute} : a.name ≠ AttributeFormat.localVariables.name →
    a.name ≠ AttributeFormat.localVariableTypes.name →
    CodeAttributeRenamed owner method descriptor slots a a

/-- The attributes in a body are renamed if it is that of a method, and else stay. -/
def CodeAttributesRenamed (owner : String) (site : AttributeSite)
    (attributes attributes' : List Attribute) : Prop :=
  match site with
  | .ofMethod method descriptor isStatic =>
    ∃ slots, parameterSlots descriptor isStatic = .ok slots ∧
      List.Forall₂ (CodeAttributeRenamed r old new owner method descriptor slots)
        attributes attributes'
  | _ => attributes' = attributes

/-- Parameters are renamed if they are those of a method, and else stay. -/
def MethodParametersRenamed (owner : String) (site : AttributeSite)
    (params params' : List MethodParameter) : Prop :=
  match site with
  | .ofMethod method descriptor isStatic =>
    ∃ slots, parameterSlots descriptor isStatic = .ok slots ∧
      ParametersRenamed r old new owner method descriptor slots params params'
  | _ => params' = params

/-- The names of the attributes that a renaming looks into. -/
def renamedAttributeNames : List String :=
  signatureName :: AnnotationUse.attributeNames ++ AnnotationUse.parameterAttributeNames ++
    [AttributeFormat.annotationDefault.name, AttributeFormat.code.name,
      AttributeFormat.methodParameters.name, AttributeFormat.recordComponents.name,
      AttributeFormat.innerClasses.name, AttributeFormat.enclosingMethod.name]

mutual

/-- What an attribute at a site becomes. Attributes of other names stay as they are, byte for
byte. -/
inductive AttributeRenamed (owner : String) : AttributeSite → Attribute → Attribute → Prop
  | signature {site : AttributeSite} {a a' : Attribute} {i j : UInt16} : a.Reencoded a' →
    a.name = signatureName → a.index = .ok i → a'.index = .ok j →
    SignatureRenamed r old new site.signatureKind i j → AttributeRenamed owner site a a'
  | annotations {site : AttributeSite} {a a' : Attribute} {uses uses' : List AnnotationUse} :
    a.Reencoded a' → a.name ∈ AnnotationUse.attributeNames →
    AnnotationUse.parse a.info = .ok uses → AnnotationUse.parse a'.info = .ok uses' →
    List.Forall₂ (UseRenamed r old new) uses uses' → AttributeRenamed owner site a a'
  | parameterAnnotations {site : AttributeSite} {a a' : Attribute}
    {params params' : List (List AnnotationUse)} :
    a.Reencoded a' → a.name ∈ AnnotationUse.parameterAttributeNames →
    AnnotationUse.parseForParameters a.info = .ok params →
    AnnotationUse.parseForParameters a'.info = .ok params' →
    List.Forall₂ (List.Forall₂ (UseRenamed r old new)) params params' →
    AttributeRenamed owner site a a'
  | annotationDefault {site : AttributeSite} {a a' : Attribute} {v v' : ElementValue} :
    a.Reencoded a' → a.name = AttributeFormat.annotationDefault.name →
    AttributeFormat.annotationDefault.parse old a.info = .ok v →
    AttributeFormat.annotationDefault.parse new a'.info = .ok v' →
    ValueRenamed r old new v v' → AttributeRenamed owner site a a'
  | code {site : AttributeSite} {a a' : Attribute} {body body' : CodeBody} :
    a.Reencoded a' → a.name = AttributeFormat.code.name →
    AttributeFormat.code.parse old a.info = .ok body →
    AttributeFormat.code.parse new a'.info = .ok body' →
    body' = { body with attributes := body'.attributes } →
    CodeAttributesRenamed r old new owner site body.attributes body'.attributes →
    AttributeRenamed owner site a a'
  | methodParameters {site : AttributeSite} {a a' : Attribute}
    {params params' : List MethodParameter} :
    a.Reencoded a' → a.name = AttributeFormat.methodParameters.name →
    AttributeFormat.methodParameters.parse old a.info = .ok params →
    AttributeFormat.methodParameters.parse new a'.info = .ok params' →
    MethodParametersRenamed r old new owner site params params' →
    AttributeRenamed owner site a a'
  | recordComponents {site : AttributeSite} {a a' : Attribute} {rows rows' : List RecordComponent} :
    a.Reencoded a' → a.name = AttributeFormat.recordComponents.name →
    AttributeFormat.recordComponents.parse old a.info = .ok rows →
    AttributeFormat.recordComponents.parse new a'.info = .ok rows' →
    List.Forall₂ (ComponentRenamed owner) rows rows' →
    AttributeRenamed owner site a a'
  | innerClasses {site : AttributeSite} {a a' : Attribute} {rows rows' : List InnerClass} :
    a.Reencoded a' → a.name = AttributeFormat.innerClasses.name →
    AttributeFormat.innerClasses.parse old a.info = .ok rows →
    AttributeFormat.innerClasses.parse new a'.info = .ok rows' →
    List.Forall₂ (InnerClassRenamed r old new) rows rows' → AttributeRenamed owner site a a'
  | enclosingMethod {site : AttributeSite} {a a' : Attribute} {e e' : EnclosingMethod} :
    a.Reencoded a' → a.name = AttributeFormat.enclosingMethod.name →
    AttributeFormat.enclosingMethod.parse old a.info = .ok e →
    AttributeFormat.enclosingMethod.parse new a'.info = .ok e' →
    EnclosingRenamed r old new e e' → AttributeRenamed owner site a a'
  | other {site : AttributeSite} {a : Attribute} : a.name ∉ renamedAttributeNames →
    AttributeRenamed owner site a a

/-- A component of a record is renamed as a field of the class is. -/
inductive ComponentRenamed (owner : String) : RecordComponent → RecordComponent → Prop
  | mk {c c' : RecordComponent} :
    MemberNameRenamed r old new .field owner c.name c.descriptor c'.name →
    DescriptorRenamed r old new c.descriptor c'.descriptor →
    List.Forall₂ (AttributeRenamed owner .ofComponent) c.attributes c'.attributes →
    ComponentRenamed owner c c'

end

/-! ## Members and the class -/

/-- A member keeps its flags. Its name, its descriptor and its attributes are renamed. -/
structure MemberRenamed (owner : String) (kind : MemberKind)
    (site : String → String → AttributeSite) (m m' : Member) : Prop where
  access_eq : m'.access = m.access
  name_renamed : MemberNameRenamed r old new kind owner m.name m.descriptor m'.name
  descriptor_renamed : DescriptorRenamed r old new m.descriptor m'.descriptor
  attributes_renamed : ∃ name descriptor, old.text m.name = .ok name ∧
    old.text m.descriptor = .ok descriptor ∧
    List.Forall₂ (AttributeRenamed r old new owner (site name descriptor))
      m.attributes m'.attributes

end

/-- What becomes of the parts of a class behind its pool. -/
structure ClassRenamed (r : Remapper) (owner : String) (c c' : ClassFile) : Prop where
  minorVersion_eq : c'.minorVersion = c.minorVersion
  majorVersion_eq : c'.majorVersion = c.majorVersion
  access_eq : c'.access = c.access
  thisClass_eq : c'.thisClass = c.thisClass
  superClass_eq : c'.superClass = c.superClass
  interfaces_eq : c'.interfaces = c.interfaces
  fields_renamed : List.Forall₂
    (MemberRenamed r c.pool c'.pool owner .field fun _ _ => .ofField) c.fields c'.fields
  methods_renamed : List.Forall₂
    (fun m => MemberRenamed r c.pool c'.pool owner .method
      (fun name descriptor => .ofMethod name descriptor (m.access.contains .staticFlag)) m)
    c.methods c'.methods
  attributes_renamed : List.Forall₂ (AttributeRenamed r c.pool c'.pool owner .ofClass)
    c.attributes c'.attributes

end JarRemap
