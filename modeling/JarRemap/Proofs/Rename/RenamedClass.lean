import JarRemap.Proofs.Rename.ClassPass

/-!
# A renamed class

What each slot of the old pool resolves to in the pool of the renamed class, and what becomes of its
members and attributes. Kinds and slots stay, so that nothing which is not looked into, such as the
instructions of a method, has to change.
-/

namespace JarRemap

open ConstantPool RenamePass

/-- A number for the kind of an entry. -/
def Constant.kindCode (k : Constant) : ℕ :=
  k.code.headD 0

/-- The kind of the members that an entry refers to, if it does refer to one. -/
def Constant.memberKind? : Constant → Option MemberKind
  | .fieldRef _ _ => some .field
  | .methodRef _ _ | .interfaceMethodRef _ _ => some .method
  | _ => none

/-- What becomes of the pool of a class with these attributes. -/
structure PoolRenamed (r : Remapper) (attributes : List Attribute) (old new : ConstantPool) :
    Prop where
  /-- Every slot that holds an entry still holds one, of the same kind. -/
  kind_kept : ∀ i k, old.entry? i = some k →
    ∃ k', new.entry? i = some k' ∧ k'.kindCode = k.kindCode
  /-- A class is the new form of the class or array that it was. -/
  class_renamed : ∀ i name, old.entry? i = some (.classEntry name) →
    ∃ s s', old.className i = .ok s ∧ r.table.newClassConstant s = .ok s' ∧
      new.className i = .ok s'
  /-- A reference is to the member that it was to, by its new names. -/
  reference_renamed : ∀ i k kind, old.entry? i = some k → k.memberKind? = some kind →
    ∃ m owner name descriptor, old.memberReference i = .ok m ∧
      r.table.newClassConstant m.owner = .ok owner ∧
      r.memberName ⟨kind, m.owner, m.name, m.descriptor⟩ = .ok name ∧
      renameDescriptor r.table.newClassName m.descriptor = .ok descriptor ∧
      new.memberReference i = .ok ⟨owner, name, descriptor⟩
  methodType_renamed : ∀ i d, old.entry? i = some (.methodType d) →
    ∃ d', new.entry? i = some (.methodType d') ∧ DescriptorRenamed r old new d d'
  dynamic_renamed : ∀ i bootstrap nat, old.entry? i = some (.dynamic bootstrap nat) →
    ∃ nat' name d d', new.entry? i = some (.dynamic bootstrap nat') ∧
      old.nameAndType nat = .ok (name, d) ∧ renameDescriptor r.table.newClassName d = .ok d' ∧
      new.nameAndType nat' = .ok (name, d')
  /-- A call site that a lambda factory links has the new name of the method that it implements. -/
  invokeDynamic_renamed : ∀ i bootstrap nat, old.entry? i = some (.invokeDynamic bootstrap nat) →
    ∃ nat' name name' d d', new.entry? i = some (.invokeDynamic bootstrap nat') ∧
      old.nameAndType nat = .ok (name, d) ∧ SiteNamed r old attributes bootstrap name d name' ∧
      renameDescriptor r.table.newClassName d = .ok d' ∧ new.nameAndType nat' = .ok (name', d')
  /-- Every other entry is as it was. -/
  kept : ∀ i k, old.entry? i = some k → k.IsKept → new.entry? i = some k
  /-- What is new stands behind the old pool and is a text or a name with a descriptor. -/
  added : ∀ i k, old.entry? i = none → new.entry? i = some k →
    old.size ≤ i.toNat ∧ k.IsAnchor

variable {r : Remapper} {attributes : List Attribute} {old new : ConstantPool}

theorem EntryRenamed.kindCode_eq {k k' : Constant} (h : EntryRenamed r old new attributes k k') :
    k'.kindCode = k.kindCode := by
  cases h <;> rfl

theorem Constant.IsKept.not_reference {k : Constant} (h : k.IsKept) : k.memberKind? = none := by
  cases k <;> first | rfl | cases h

namespace PoolTurned

theorem kept (h : PoolTurned r attributes old new new) {i : UInt16} {k : Constant}
    (hk : old.entry? i = some k) (hkept : k.IsKept) : new.entry? i = some k := by
  obtain ⟨k', hk', hrenamed⟩ := h.renamed i k hk
  cases hrenamed with
  | kept => exact hk'
  | _ => cases hkept

/-- A reference keeps its slot for the owner, and so is to the renamed owner. -/
theorem memberReference (h : PoolTurned r attributes old new new) {kind : MemberKind}
    {i owner nat nat' : UInt16} {k k' : Constant} (hk : old.entry? i = some k)
    (hk' : new.entry? i = some k') (href : k.reference? = some (owner, nat))
    (href' : k'.reference? = some (owner, nat'))
    (hrenamed : ReferenceRenamed r old new kind owner nat nat') :
    ∃ m owner name descriptor, old.memberReference i = .ok m ∧
      r.table.newClassConstant m.owner = .ok owner ∧
      r.memberName ⟨kind, m.owner, m.name, m.descriptor⟩ = .ok name ∧
      renameDescriptor r.table.newClassName m.descriptor = .ok descriptor ∧
      new.memberReference i = .ok ⟨owner, name, descriptor⟩ := by
  obtain ⟨o, n, d, n', d', ho, hnat, hn', hd', hnat'⟩ := hrenamed
  obtain ⟨o', ho', hnew⟩ := h.className ho
  exact ⟨⟨o, n, d⟩, o', n', d', memberReference_ok_iff.2 ⟨k, owner, nat, hk, href, ho, hnat⟩, ho',
    hn', hd', memberReference_ok_iff.2 ⟨k', owner, nat', hk', href', hnew, hnat'⟩⟩

theorem poolRenamed (h : PoolTurned r attributes old new new) :
    PoolRenamed r attributes old new := by
  constructor
  case kind_kept =>
    intro i k hk
    obtain ⟨k', hk', hrenamed⟩ := h.renamed i k hk
    exact ⟨k', hk', hrenamed.kindCode_eq⟩
  case class_renamed =>
    intro i name hk
    obtain ⟨k', hk', hrenamed⟩ := h.renamed i _ hk
    cases hrenamed with
    | classEntry hold hnew hfinal =>
      exact ⟨_, _, className_ok_iff.2 ⟨_, hk, hold⟩, hnew, className_ok_iff.2 ⟨_, hk', hfinal⟩⟩
    | kept hkept => cases hkept
  case reference_renamed =>
    intro i k kind hk hkind
    obtain ⟨k', hk', hrenamed⟩ := h.renamed i k hk
    cases hrenamed with
    | fieldRef href =>
      cases hkind
      exact h.memberReference hk hk' rfl rfl href
    | methodRef href =>
      cases hkind
      exact h.memberReference hk hk' rfl rfl href
    | interfaceMethodRef href =>
      cases hkind
      exact h.memberReference hk hk' rfl rfl href
    | kept hkept =>
      rw [hkept.not_reference] at hkind
      cases hkind
    | _ => cases hkind
  case methodType_renamed =>
    intro i d hk
    obtain ⟨k', hk', hrenamed⟩ := h.renamed i _ hk
    cases hrenamed with
    | methodType hd => exact ⟨_, hk', hd⟩
    | kept hkept => cases hkept
  case dynamic_renamed =>
    intro i bootstrap nat hk
    obtain ⟨k', hk', hrenamed⟩ := h.renamed i _ hk
    cases hrenamed with
    | dynamic hnat hd hnat' => exact ⟨_, _, _, _, hk', hnat, hd, hnat'⟩
    | kept hkept => cases hkept
  case invokeDynamic_renamed =>
    intro i bootstrap nat hk
    obtain ⟨k', hk', hrenamed⟩ := h.renamed i _ hk
    cases hrenamed with
    | invokeDynamic hnat hsite hd hnat' => exact ⟨_, _, _, _, _, hk', hnat, hsite, hd, hnat'⟩
    | kept hkept => cases hkept
  case kept => exact fun i k hk hkept => h.kept hk hkept
  case added => exact h.added

end PoolTurned

namespace Renaming

/-- If a class is renamed, at any point of a renaming, then every slot of its pool that holds an
entry holds one of the same kind that resolves to the new names of what it resolved to, whichever
names the table swaps or chains; entries without names are as they were; and nothing but texts and
names with descriptors is added. The class that is written is read back with this pool. -/
theorem renamed_pool_resolves (r : Remapper) {s s' : RenamingState} {e e' : ClassEntry}
    (hs : Reachable r s) (h : processClass r e s = (.ok e', s')) :
    ∃ c c', ClassFile.parse e.data = .ok c ∧ e'.data = c'.encode ∧
      (∃ parsed, ClassFile.parse e'.data = .ok parsed ∧ parsed.Same c') ∧
      PoolRenamed r c.attributes c.pool c'.pool := by
  obtain ⟨owner, c, c', hbecomes⟩ := hs.becomes h
  exact ⟨c, c', hbecomes.parse_eq, hbecomes.data_eq, hbecomes.parse_renamed,
    hbecomes.pool_turned.poolRenamed⟩

/-- The body of a method of the class `A` with a parameter. -/
def swappedBody : CodeBody where
  maxStack := 0
  maxLocals := 2
  code := [0xb1]
  handlers := []
  attributes :=
    [{ nameIndex := 14, name := "LocalVariableTable",
       info := AttributeFormat.localVariables.encode [⟨0, 1, 15, 16, 0⟩, ⟨0, 1, 3, 16, 1⟩] }]

/-- A class `A` over the class `B`, which refers to its own members. -/
def swappedClass : ClassFile where
  minorVersion := 0
  majorVersion := 61
  pool := .ofEntries
    [.utf8 "A", .classEntry 1, .utf8 "x", .utf8 "I", .nameAndType 3 4, .fieldRef 2 5, .utf8 "m",
     .utf8 "(LA;)V", .nameAndType 7 8, .methodRef 2 9, .methodType 8, .utf8 "B", .classEntry 12,
     .utf8 "LocalVariableTable", .utf8 "this", .utf8 "LA;", .utf8 "Code"]
  access := ⟨0x21⟩
  thisClass := 2
  superClass := 13
  interfaces := []
  fields := [⟨⟨0⟩, 3, 4, []⟩]
  methods := [⟨⟨1⟩, 7, 8, [⟨17, "Code", AttributeFormat.code.encode swappedBody⟩]⟩]
  attributes := []

/-- The class file of `A` in an archive. -/
def swappedEntry : ClassEntry :=
  ⟨"A", swappedClass.encode, .stable, none⟩

/-- A table that swaps `A` and `B` and renames what `A` declares, on an archive with `A`. -/
def swappingRemapper : Remapper where
  table := ⟨[⟨"A", "B", [⟨"x", "y", none⟩], [⟨"m", "(LA;)V", "n", [⟨1, "a", "b"⟩]⟩]⟩,
    ⟨"B", "A", [], []⟩]⟩
  classPath := ⟨[Entry.classSource [.ofClass swappedEntry]]⟩

theorem processClass_swapped :
    ∃ e' s', processClass swappingRemapper swappedEntry .start = (.ok e', s') := by
  have hok : (processClass swappingRemapper swappedEntry .start).1.toOption.isSome = true := by
    decide +kernel
  rcases hrun : processClass swappingRemapper swappedEntry .start with ⟨e | e', s'⟩
  · rw [hrun] at hok
    cases hok
  · exact ⟨e', s', rfl⟩

theorem renamed_pool_resolves_swapped :
    ∃ e' s', processClass swappingRemapper swappedEntry .start = (.ok e', s') ∧
    ∃ c c', ClassFile.parse swappedEntry.data = .ok c ∧ e'.data = c'.encode ∧
      (∃ parsed, ClassFile.parse e'.data = .ok parsed ∧ parsed.Same c') ∧
      PoolRenamed swappingRemapper c.attributes c.pool c'.pool := by
  obtain ⟨e', s', h⟩ := processClass_swapped
  exact ⟨e', s', h, renamed_pool_resolves swappingRemapper .start h⟩

/-- If a class is renamed, at any point of a renaming, then its versions, its flags and the slots of
its own name and of its supertypes stay, and so do its members and attributes in their order, with
their flags and the names of the attributes. Members, signatures, annotations, local variables,
parameters, record components, nested classes and the enclosing method resolve to the new names of
what they resolved to, and attributes of other names stay byte for byte. -/
theorem renamed_class_resolves (r : Remapper) {s s' : RenamingState} {e e' : ClassEntry}
    (hs : Reachable r s) (h : processClass r e s = (.ok e', s')) :
    ∃ owner c c', ClassFile.parse e.data = .ok c ∧ c.name = .ok owner ∧ e'.data = c'.encode ∧
      (∃ parsed, ClassFile.parse e'.data = .ok parsed ∧ parsed.Same c') ∧
      ClassRenamed r owner c c' := by
  obtain ⟨owner, c, c', hbecomes⟩ := hs.becomes h
  exact ⟨owner, c, c', hbecomes.parse_eq, hbecomes.name_eq, hbecomes.data_eq,
    hbecomes.parse_renamed, hbecomes.class_renamed⟩

theorem renamed_class_resolves_swapped :
    ∃ e' s', processClass swappingRemapper swappedEntry .start = (.ok e', s') ∧
    ∃ owner c c', ClassFile.parse swappedEntry.data = .ok c ∧ c.name = .ok owner ∧
      e'.data = c'.encode ∧
      (∃ parsed, ClassFile.parse e'.data = .ok parsed ∧ parsed.Same c') ∧
      ClassRenamed swappingRemapper owner c c' := by
  obtain ⟨e', s', h⟩ := processClass_swapped
  exact ⟨e', s', h, renamed_class_resolves swappingRemapper .start h⟩

end Renaming

end JarRemap
