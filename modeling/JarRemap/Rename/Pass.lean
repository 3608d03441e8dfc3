import JarRemap.Attribute.Annotated
import JarRemap.Attribute.Nesting
import JarRemap.Attribute.Table
import JarRemap.ConstantPool.Edit
import JarRemap.Rename.Remapper

/-!
# Renaming one class

Every old name is read from the pool as it was parsed, and new entries go into the pool as it
becomes. A class entry is redirected in its slot; a reference that changes gets a fresh entry for
its name and descriptor; a changed text is appended. Nothing that an unread attribute refers to
moves or changes its meaning.

The passes ask for the new names of members in an arbitrary monad, so that they can be run on a
`Remapper` alone or on one with a memory. All other names come from the table.
-/

namespace JarRemap

/-- What the passes over one class need: the table, the source of member names, the pool as it was
parsed, and the old name of the class. -/
structure RenamePass (m : Type → Type) where
  table : RenameTable
  memberName : MemberKey → m String
  source : ConstantPool
  owner : String

/-- Where a list of attributes stands, which tells how they are read. -/
inductive AttributeSite where
  | ofClass
  | ofField
  | ofMethod (name descriptor : String) (isStatic : Bool)
  | ofComponent
  deriving DecidableEq, Repr

/-- The grammar of a signature attribute at a site. -/
def AttributeSite.signatureKind : AttributeSite → SignatureKind
  | .ofClass => .ofClass
  | .ofMethod .. => .ofMethod
  | .ofField | .ofComponent => .ofField

/-- The local-variable slots of the parameters of a method. -/
def parameterSlots (descriptor : String) (isStatic : Bool) : Except DescriptorError (List Nat) :=
  (MethodDescriptor.parse descriptor).map (·.paramSlotIndices isStatic)

namespace RenamePass

variable {m : Type → Type} [Monad m] [MonadExceptOf TransformError m]

/-- A computation of the pass: it changes the pool, may ask for members and may fail. -/
abbrev PoolPass (m : Type → Type) := StateT ConstantPool m

/-! ## Steps -/

/-- Reads from the pool as it was parsed. -/
def read {α : Type} (x : Except ClassError α) : PoolPass m α :=
  orFail .classFile x

/-- Edits the pool. -/
def edit {α : Type} (x : PoolEdit α) : PoolPass m α := fun pool =>
  match x pool with
  | (.ok a, pool) => pure (a, pool)
  | (.error e, _) => throw (TransformError.classFile e)

variable (r : RenamePass m)

/-- The new name of a member. -/
def newMemberName (kind : MemberKind) (owner name descriptor : String) : PoolPass m String :=
  r.memberName { kind, owner, name, descriptor }

/-- The new form of a descriptor. -/
def newDescriptor (descriptor : String) : PoolPass m String :=
  orFail .descriptor (renameDescriptor r.table.newClassName descriptor)

/-- The slot of a text that takes the place of the one in `index`, which is `index` itself if the
text stays. -/
def replaceText (index : UInt16) (new : String) : PoolPass m UInt16 := do
  let old ← read (r.source.text index)
  if old = new then return index
  edit (PoolEdit.putText new)

/-- The slot of the new form of the descriptor in a slot. -/
def replaceDescriptor (index : UInt16) : PoolPass m UInt16 := do
  let old ← read (r.source.text index)
  r.replaceText index (← r.newDescriptor old)

/-- The slot of the new form of the signature in a slot. -/
def replaceSignature (kind : SignatureKind) (index : UInt16) : PoolPass m UInt16 := do
  let old ← read (r.source.text index)
  let new ← orFail .signature (renameSignature r.table.newClassName kind old)
  r.replaceText index new

/-- The slot for a new name and the new form of the descriptor beside the old one, if either
changes. -/
def retarget (nameAndType : UInt16) (newName : String) : PoolPass m (Option UInt16) := do
  let (name, descriptor) ← read (r.source.nameAndType nameAndType)
  let new ← r.newDescriptor descriptor
  if name = newName && descriptor = new then return none
  return some (← edit (PoolEdit.putNameAndType newName new))

/-! ## The pool -/

/-- The class whose call sites implement a functional interface. -/
def lambdaFactory : String := "java/lang/invoke/LambdaMetafactory"

/-- The methods of `lambdaFactory` that link these call sites. -/
def lambdaLinkers : List String := ["metafactory", "altMetafactory"]

/-- The new name of the method that a call site implements, if a lambda factory links it. The
interface is what the call site returns, and the first argument of the bootstrap method is the
erased type of the method. -/
def lambdaName (bootstraps : List BootstrapMethod) (bootstrap : UInt16)
    (name descriptor : String) : PoolPass m (Option String) := do
  let some linker := bootstraps[bootstrap.toNat]? | return none
  let .methodHandle _ reference ← read (r.source.get linker.method) | return none
  let factory ← read (r.source.memberReference reference)
  if factory.owner ≠ lambdaFactory || !lambdaLinkers.contains factory.name then return none
  let some first := linker.arguments.head? | return none
  let .methodType erased ← read (r.source.get first) | return none
  let site ← orFail .descriptor (MethodDescriptor.parse descriptor)
  let some ⟨0, .object interfaceName⟩ := site.ret | return none
  let erased ← read (r.source.text erased)
  return some (← r.newMemberName .method interfaceName name erased)

/-- Redirects the reference in a slot to the new name of its member. -/
def renameReference (kind : MemberKind) (build : UInt16 → UInt16 → Constant)
    (index owner nameAndType : UInt16) : PoolPass m Unit := do
  let ownerName ← read (r.source.className owner)
  let (name, descriptor) ← read (r.source.nameAndType nameAndType)
  let newName ← r.newMemberName kind ownerName name descriptor
  match ← r.retarget nameAndType newName with
  | some fresh => edit (PoolEdit.set index (build owner fresh))
  | none => return ()

/-- Renames the entry in a slot. -/
def renameConstant (bootstraps : Option (List BootstrapMethod)) (index : UInt16) :
    Constant → PoolPass m Unit
  | .classEntry name => do
    let old ← read (r.source.text name)
    let new ← orFail .descriptor (r.table.newClassConstant old)
    if new ≠ old then
      let name ← edit (PoolEdit.putText new)
      edit (PoolEdit.set index (.classEntry name))
  | .fieldRef owner nat => r.renameReference .field .fieldRef index owner nat
  | .methodRef owner nat => r.renameReference .method .methodRef index owner nat
  | .interfaceMethodRef owner nat => r.renameReference .method .interfaceMethodRef index owner nat
  | .methodType descriptor => do
    let new ← r.replaceDescriptor descriptor
    if new ≠ descriptor then edit (PoolEdit.set index (.methodType new))
  | .invokeDynamic bootstrap nat => do
    let (name, descriptor) ← read (r.source.nameAndType nat)
    let newName ←
      match bootstraps with
      | some bootstraps => r.lambdaName bootstraps bootstrap name descriptor
      | none => pure none
    match ← r.retarget nat (newName.getD name) with
    | some fresh => edit (PoolEdit.set index (.invokeDynamic bootstrap fresh))
    | none => return ()
  | .dynamic bootstrap nat => do
    let (name, _) ← read (r.source.nameAndType nat)
    match ← r.retarget nat name with
    | some fresh => edit (PoolEdit.set index (.dynamic bootstrap fresh))
    | none => return ()
  | _ => return ()

/-- Renames the entries of the pool in order. -/
def renamePool (attributes : List Attribute) : PoolPass m Unit := do
  let bootstraps ← read (AttributeFormat.bootstrapMethods.parseAmong r.source attributes)
  r.source.toList.forM fun (index, c) => r.renameConstant bootstraps index c

/-! ## Annotations -/

mutual

/-- Renames an annotation. -/
def renameUse : AnnotationUse → PoolPass m AnnotationUse
  | .mk type elements => do
    let type ← r.replaceDescriptor type
    let elements ← renamePairs elements
    return .mk type elements

/-- Renames the values of named elements. -/
def renamePairs : List ElementPair → PoolPass m (List ElementPair)
  | [] => return []
  | .mk name value :: more => do
    let value ← renameValue value
    let more ← renamePairs more
    return .mk name value :: more

/-- Renames the value of an element. The class literal of no value stays. -/
def renameValue : ElementValue → PoolPass m ElementValue
  | .constant tag value => return .constant tag value
  | .enumConstant typeName constantName => do
    let descriptor ← read (r.source.text typeName)
    let name ← read (r.source.text constantName)
    let type ← orFail .descriptor (FieldType.parse descriptor)
    let newName ← r.newMemberName .field type.internalName name descriptor
    let constantName ← r.replaceText constantName newName
    let typeName ← r.replaceDescriptor typeName
    return .enumConstant typeName constantName
  | .classLiteral descriptor => do
    let old ← read (r.source.text descriptor)
    if old = "V" then return .classLiteral descriptor
    return .classLiteral (← r.replaceDescriptor descriptor)
  | .nested use => return .nested (← renameUse use)
  | .array values => return .array (← renameValues values)

/-- Renames values. -/
def renameValues : List ElementValue → PoolPass m (List ElementValue)
  | [] => return []
  | v :: more => do
    let v ← renameValue v
    let more ← renameValues more
    return v :: more

end

/-! ## Parameters and local variables -/

/-- The slot of the new name of the parameter in a local-variable slot of a method. -/
def replaceParameterName (method descriptor : String) (slot : Nat) (name : UInt16) :
    PoolPass m UInt16 := do
  let old ← read (r.source.text name)
  r.replaceText name (r.table.newParameterName r.owner method descriptor slot old)

/-- Renames a local variable of a method. It is a parameter if it lives from the beginning in the
slot of one; then its name is mapped. What its type field holds is replaced by `replaceType`. -/
def renameVariable (method descriptor : String) (slots : List Nat)
    (replaceType : UInt16 → PoolPass m UInt16) (v : LocalVariable) : PoolPass m LocalVariable := do
  let name ←
    if v.start = 0 && slots.contains v.slot.toNat then
      r.replaceParameterName method descriptor v.slot.toNat v.name
    else pure v.name
  let type ← replaceType v.descriptor
  return { v with name, descriptor := type }

/-- Renames a local-variable table of a method in the given format. -/
def renameVariables (method descriptor : String) (slots : List Nat)
    (format : AttributeFormat (List LocalVariable)) (replaceType : UInt16 → PoolPass m UInt16)
    (a : Attribute) : PoolPass m Attribute := do
  let rows ← read (format.parse r.source a.info)
  let rows ← rows.mapM (r.renameVariable method descriptor slots replaceType)
  return { a with info := format.encode rows }

/-- Renames an attribute in the body of a method. -/
def renameCodeAttribute (method descriptor : String) (slots : List Nat) (a : Attribute) :
    PoolPass m Attribute :=
  if a.name = AttributeFormat.localVariables.name then
    r.renameVariables method descriptor slots .localVariables r.replaceDescriptor a
  else if a.name = AttributeFormat.localVariableTypes.name then
    r.renameVariables method descriptor slots .localVariableTypes (r.replaceSignature .ofField) a
  else return a

/-- Renames the attributes in a body. Only that of a method has parameters. -/
def renameCodeAttributes (site : AttributeSite) (attributes : List Attribute) :
    PoolPass m (List Attribute) :=
  match site with
  | .ofMethod method descriptor isStatic => do
    let slots ← orFail .descriptor (parameterSlots descriptor isStatic)
    attributes.mapM (r.renameCodeAttribute method descriptor slots)
  | _ => return attributes

/-- Renames the names of parameters, whose slots are given in order. Parameters without a slot and
those without a name stay. -/
def renameParameters (method descriptor : String) :
    List MethodParameter → List Nat → PoolPass m (List MethodParameter)
  | [], _ => return []
  | params, [] => return params
  | p :: params, slot :: slots => do
    let name ←
      if p.name = 0 then pure p.name else r.replaceParameterName method descriptor slot p.name
    let params ← renameParameters method descriptor params slots
    return { p with name } :: params

/-- Renames the parameters at a site. Only methods have parameters. -/
def renameMethodParameters (site : AttributeSite) (params : List MethodParameter) :
    PoolPass m (List MethodParameter) :=
  match site with
  | .ofMethod method descriptor isStatic => do
    let slots ← orFail .descriptor (parameterSlots descriptor isStatic)
    r.renameParameters method descriptor params slots
  | _ => return params

/-! ## Attributes -/

/-- Renames the simple name of a nested class, if it has one. -/
def renameInnerClass (c : InnerClass) : PoolPass m InnerClass := do
  if c.innerName = 0 then return c
  let name ← read (r.source.className c.innerClass)
  let simple ← read (r.source.text c.innerName)
  let innerName ← r.replaceText c.innerName (r.table.newSimpleName name simple)
  return { c with innerName }

/-- Redirects the enclosing method, if there is one. -/
def renameEnclosing (e : EnclosingMethod) : PoolPass m EnclosingMethod := do
  if e.method = 0 then return e
  let owner ← read (r.source.className e.owner)
  let (name, descriptor) ← read (r.source.nameAndType e.method)
  let newName ← r.newMemberName .method owner name descriptor
  let fresh ← r.retarget e.method newName
  return { e with method := fresh.getD e.method }

/-- Renames a component of a record, whose attributes are renamed by `nested`. -/
def renameComponent (nested : Attribute → PoolPass m Attribute) (c : RecordComponent) :
    PoolPass m RecordComponent := do
  let oldName ← read (r.source.text c.name)
  let oldDescriptor ← read (r.source.text c.descriptor)
  let newName ← r.newMemberName .field r.owner oldName oldDescriptor
  let name ← r.replaceText c.name newName
  let descriptor ← r.replaceDescriptor c.descriptor
  let attributes ← c.attributes.mapM nested
  return { name, descriptor, attributes }

/-- Reads a body, renames it, and writes it again. -/
def renameBody {α : Type} (format : AttributeFormat α) (rename : α → PoolPass m α) (info : Bytes) :
    PoolPass m Bytes := do
  let body ← read (format.parse r.source info)
  return format.encode (← rename body)

/-- The new body of an attribute. The attributes of record components are renamed by `nested`. -/
def renameInfo (nested : Attribute → PoolPass m Attribute) (site : AttributeSite) (a : Attribute) :
    PoolPass m Bytes :=
  if a.name = signatureName then do
    let index ← read a.index
    return Bytes.ofUInt16 (← r.replaceSignature site.signatureKind index)
  else if AnnotationUse.attributeNames.contains a.name then do
    let uses ← read (AnnotationUse.parse a.info)
    return AnnotationUse.encodeList (← uses.mapM r.renameUse)
  else if AnnotationUse.parameterAttributeNames.contains a.name then do
    let params ← read (AnnotationUse.parseForParameters a.info)
    return AnnotationUse.encodeForParameters (← params.mapM (·.mapM r.renameUse))
  else if a.name = AttributeFormat.annotationDefault.name then
    r.renameBody .annotationDefault r.renameValue a.info
  else if a.name = AttributeFormat.code.name then
    r.renameBody .code
      (fun body => do
        let attributes ← r.renameCodeAttributes site body.attributes
        return { body with attributes })
      a.info
  else if a.name = AttributeFormat.methodParameters.name then
    r.renameBody .methodParameters (r.renameMethodParameters site) a.info
  else if a.name = AttributeFormat.recordComponents.name then
    r.renameBody .recordComponents (·.mapM (r.renameComponent nested)) a.info
  else if a.name = AttributeFormat.innerClasses.name then
    r.renameBody .innerClasses (·.mapM r.renameInnerClass) a.info
  else if a.name = AttributeFormat.enclosingMethod.name then
    r.renameBody .enclosingMethod r.renameEnclosing a.info
  else return a.info

/-- Renames an attribute with records nested no deeper than the bound. The length of the body is
enough, for the body of a record is longer than those of the attributes in it. -/
def renameAttributeWithin : Nat → AttributeSite → Attribute → PoolPass m Attribute
  | 0, site, a => do
    let info ← r.renameInfo pure site a
    return { a with info }
  | depth + 1, site, a => do
    let info ← r.renameInfo (renameAttributeWithin depth .ofComponent) site a
    return { a with info }

/-- Renames an attribute. -/
def renameAttribute (site : AttributeSite) (a : Attribute) : PoolPass m Attribute :=
  r.renameAttributeWithin a.info.length site a

/-! ## Members and the class -/

/-- Renames a member of the class. -/
def renameMember (kind : MemberKind) (site : String → String → AttributeSite) (member : Member) :
    PoolPass m Member := do
  let oldName ← read (r.source.text member.name)
  let oldDescriptor ← read (r.source.text member.descriptor)
  let newName ← r.newMemberName kind r.owner oldName oldDescriptor
  let name ← r.replaceText member.name newName
  let descriptor ← r.replaceDescriptor member.descriptor
  let attributes ← member.attributes.mapM (r.renameAttribute (site oldName oldDescriptor))
  return { member with name, descriptor, attributes }

/-- Renames a field of the class. -/
def renameField (field : Member) : PoolPass m Member :=
  r.renameMember .field (fun _ _ => .ofField) field

/-- Renames a method of the class. -/
def renameMethod (method : Member) : PoolPass m Member :=
  r.renameMember .method
    (fun name descriptor => .ofMethod name descriptor (method.access.contains .staticFlag)) method

/-- Renames a class: its pool, its fields, its methods and its attributes, in this order. -/
def renameClass (c : ClassFile) : PoolPass m ClassFile := do
  r.renamePool c.attributes
  let fields ← c.fields.mapM r.renameField
  let methods ← c.methods.mapM r.renameMethod
  let attributes ← c.attributes.mapM (r.renameAttribute .ofClass)
  return { c with fields, methods, attributes }

end RenamePass

/-- The class with its new names. Members are named by `memberName`. -/
def ClassFile.rename {m : Type → Type} [Monad m] [MonadExceptOf TransformError m]
    (table : RenameTable) (memberName : MemberKey → m String) (owner : String) (c : ClassFile) :
    m ClassFile := do
  let r : RenamePass m := { table, memberName, source := c.pool, owner }
  let (c, pool) ← (r.renameClass c).run c.pool
  return { c with pool }

end JarRemap
