import JarRemap.Proofs.Rename.ClassPass

/-!
# The shape of a renamed class

What the hierarchy sees of a renamed class: its supertypes and what it declares have their new
names, in the old order.
-/

namespace JarRemap

open ConstantPool

/-- What a class declares of a kind. -/
def ClassShape.members (s : ClassShape) : MemberKind → List MemberShape
  | .field => s.fields
  | .method => s.methods

theorem ClassShape.declared?_eq (s : ClassShape) (k : MemberKey) : s.declared? k =
    (s.members k.kind).find? fun m => m.name == k.name && m.descriptor == k.descriptor := by
  obtain ⟨_ | _, _, _, _⟩ := k <;> rfl

/-- A declared member keeps its flags and gets its new name and descriptor. -/
structure DeclaredRenamed (r : Remapper) (kind : MemberKind) (owner : String)
    (m m' : MemberShape) : Prop where
  access_eq : m'.access = m.access
  name_renamed : r.memberName ⟨kind, owner, m.name, m.descriptor⟩ = .ok m'.name
  descriptor_renamed : renameDescriptor r.table.newClassName m.descriptor = .ok m'.descriptor

/-- What becomes of the shape of a class. -/
structure ShapeRenamed (r : Remapper) (s s' : ClassShape) : Prop where
  name_renamed : r.table.newClassConstant s.name = .ok s'.name
  parents_renamed : List.Forall₂ (fun p p' => r.table.newClassConstant p = .ok p')
    s.parents s'.parents
  members_renamed : ∀ kind,
    List.Forall₂ (DeclaredRenamed r kind s.name) (s.members kind) (s'.members kind)

variable {r : Remapper} {owner : String}

theorem ClassShape.ofClass_ok_iff {c : ClassFile} {s : ClassShape} :
    ClassShape.ofClass c = .ok s ↔ c.name = .ok s.name ∧ c.superName = .ok s.superName ∧
      c.interfaceNames = .ok s.interfaces ∧
      c.fields.mapM (MemberShape.ofMember c.pool) = .ok s.fields ∧
      c.methods.mapM (MemberShape.ofMember c.pool) = .ok s.methods ∧ s.access = c.access := by
  constructor
  · intro h
    obtain ⟨name, hname, h⟩ := except_bind_ok_iff.1 h
    obtain ⟨superName, hsuper, h⟩ := except_bind_ok_iff.1 h
    obtain ⟨interfaces, hinterfaces, h⟩ := except_bind_ok_iff.1 h
    obtain ⟨fields, hfields, h⟩ := except_bind_ok_iff.1 h
    obtain ⟨methods, hmethods, h⟩ := except_bind_ok_iff.1 h
    cases h
    exact ⟨hname, hsuper, hinterfaces, hfields, hmethods, rfl⟩
  · rintro ⟨hname, hsuper, hinterfaces, hfields, hmethods, haccess⟩
    rw [ofClass, hname, hsuper, hinterfaces, hfields, hmethods, ← haccess]
    rfl

/-- The shape of a class does not depend on the directory of its pool. -/
theorem ClassFile.Same.ofClass_eq {c d : ClassFile} (h : c.Same d) :
    ClassShape.ofClass c = ClassShape.ofClass d := by
  obtain ⟨hslots, hrest⟩ := h
  have hclass := className_congr hslots
  have htext := text_congr hslots
  have hmember : MemberShape.ofMember c.pool = MemberShape.ofMember d.pool := by
    funext m
    rw [MemberShape.ofMember, MemberShape.ofMember, htext]
  rw [← hrest, ClassShape.ofClass, ClassShape.ofClass, ClassFile.name, ClassFile.name,
    ClassFile.superName, ClassFile.superName, ClassFile.interfaceNames, ClassFile.interfaceNames,
    hclass, hmember]

/-- The declared members of a class and of the renamed one. -/
theorem MemberRenamed.shapes {old new : ConstantPool} {kind : MemberKind}
    {site : Member → String → String → AttributeSite} {members members' : List Member}
    (h : List.Forall₂ (fun m => MemberRenamed r old new owner kind (site m) m) members members') :
    ∃ shapes shapes', members.mapM (MemberShape.ofMember old) = .ok shapes ∧
      members'.mapM (MemberShape.ofMember new) = .ok shapes' ∧
      List.Forall₂ (DeclaredRenamed r kind owner) shapes shapes' := by
  induction h with
  | nil => exact ⟨[], [], rfl, rfl, .nil⟩
  | cons hm _ ih =>
    obtain ⟨shapes, shapes', hshapes, hshapes', hall⟩ := ih
    obtain ⟨n, d, n', hn, hd, hn', hnew⟩ := hm.name_renamed
    obtain ⟨d₁, d', hd₁, hd', hdnew⟩ := hm.descriptor_renamed
    cases hd.symm.trans hd₁
    refine ⟨⟨n, d, _⟩ :: shapes, ⟨n', d', _⟩ :: shapes', ?_, ?_,
      .cons ⟨hm.access_eq, hn', hd'⟩ hall⟩
    · rw [List.mapM_cons, MemberShape.ofMember, hn, hd, hshapes]
      rfl
    · rw [List.mapM_cons, MemberShape.ofMember, hnew, hdnew, hshapes']
      rfl

/-- The supertypes of a class and of the renamed one. -/
theorem ClassRenamed.parents {c c' : ClassFile} (h : ClassRenamed r owner c c')
    (hpool : PoolTurned r c.attributes c.pool c'.pool c'.pool) (hnames : c.checkNames = .ok ()) :
    ∃ super super' interfaces interfaces', c.superName = .ok super ∧ c'.superName = .ok super' ∧
      c.interfaceNames = .ok interfaces ∧ c'.interfaceNames = .ok interfaces' ∧
      List.Forall₂ (fun p p' => r.table.newClassConstant p = .ok p')
        (super.toList ++ interfaces) (super'.toList ++ interfaces') := by
  obtain ⟨-, hsuper, hinterfaces⟩ := ClassFile.checkNames_ok_iff.1 hnames
  -- Each name is one that was checked when the class was read, so it has a new form.
  obtain ⟨super, super', hs, hs', hsupers⟩ : ∃ super super', c.superName = .ok super ∧
      c'.superName = .ok super' ∧
      List.Forall₂ (fun p p' => r.table.newClassConstant p = .ok p')
        super.toList super'.toList := by
    rw [ClassFile.superName, ClassFile.superName, h.superClass_eq]
    by_cases hzero : c.superClass = 0
    · rw [if_pos hzero, if_pos hzero]
      exact ⟨none, none, rfl, rfl, .nil⟩
    · obtain ⟨s, hs⟩ := hsuper.resolve_left hzero
      obtain ⟨s', hs', hnew⟩ := hpool.className hs
      rw [if_neg hzero, if_neg hzero, hs, hnew]
      exact ⟨some s, some s', rfl, rfl, .cons hs' .nil⟩
  obtain ⟨interfaces, interfaces', hi, hi', hall⟩ : ∃ interfaces interfaces',
      c.interfaceNames = .ok interfaces ∧ c'.interfaceNames = .ok interfaces' ∧
      List.Forall₂ (fun p p' => r.table.newClassConstant p = .ok p') interfaces interfaces' := by
    rw [ClassFile.interfaceNames, ClassFile.interfaceNames, h.interfaces_eq]
    generalize c.interfaces = slots at hinterfaces
    induction slots with
    | nil => exact ⟨[], [], rfl, rfl, .nil⟩
    | cons i slots ih =>
      rw [List.forall_mem_cons] at hinterfaces
      obtain ⟨rest, rest', hrest, hrest', hall⟩ := ih hinterfaces.2
      obtain ⟨s, hs⟩ := hinterfaces.1
      obtain ⟨s', hs', hnew⟩ := hpool.className hs
      refine ⟨s :: rest, s' :: rest', ?_, ?_, .cons hs' hall⟩
      · rw [List.mapM_cons, hs, hrest]
        rfl
      · rw [List.mapM_cons, hnew, hrest']
        rfl
  exact ⟨super, super', interfaces, interfaces', hs, hs', hi, hi', List.rel_append hsupers hall⟩

/-- The shapes that the hierarchy sees before and after a class is renamed. -/
theorem ClassEntry.Becomes.shape {e e' : ClassEntry} {c c' : ClassFile}
    (h : ClassEntry.Becomes r e e' owner c c') :
    ∃ s s', ClassShape.parse e.data = .ok s ∧ ClassShape.parse e'.data = .ok s' ∧
      s.name = owner ∧ ShapeRenamed r s s' := by
  obtain ⟨parsed, hparsed, hsame⟩ := h.parse_renamed
  have hnames := (ClassFile.parse_ok_iff.1 h.parse_eq).2.1
  obtain ⟨owner', howner', hname'⟩ := h.pool_turned.className h.name_eq
  obtain ⟨super, super', interfaces, interfaces', hsuper, hsuper', hinterfaces, hinterfaces',
    hparents⟩ := h.class_renamed.parents h.pool_turned hnames
  obtain ⟨fields, fields', hfields, hfields', hfieldsRenamed⟩ :=
    MemberRenamed.shapes h.class_renamed.fields_renamed
  obtain ⟨methods, methods', hmethods, hmethods', hmethodsRenamed⟩ :=
    MemberRenamed.shapes h.class_renamed.methods_renamed
  -- What is written of the renamed class is read back as it stands, but for the directory of its
  -- pool, and that is not seen here.
  refine ⟨⟨owner, c.access, super, interfaces, fields, methods⟩,
    ⟨owner', c'.access, super', interfaces', fields', methods'⟩, ?_, ?_, rfl, howner', hparents, ?_⟩
  · rw [ClassShape.parse, h.parse_eq]
    exact ClassShape.ofClass_ok_iff.2 ⟨h.name_eq, hsuper, hinterfaces, hfields, hmethods, rfl⟩
  · rw [ClassShape.parse, hparsed]
    refine hsame.ofClass_eq.trans (ClassShape.ofClass_ok_iff.2
      ⟨?_, hsuper', hinterfaces', hfields', hmethods', rfl⟩)
    rw [ClassFile.name, h.class_renamed.thisClass_eq]
    exact hname'
  · rintro (_ | _)
    · exact hfieldsRenamed
    · exact hmethodsRenamed

end JarRemap
