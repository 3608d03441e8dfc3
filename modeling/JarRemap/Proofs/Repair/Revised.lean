import JarRemap.Proofs.Rename.ClassPass
import JarRemap.Proofs.Repair.Attribute

/-!
# Classes that are revised

Whatever a repair makes of a class, the head stays, members keep their names and the sizes of their
attributes, and attributes of the class come in only under certain names. Such a class can be
written and read again if there is room for these (`ClassFile.Revised.parse_encode`).
-/

namespace JarRemap

open ConstantPool

/-! ## Members -/

/-- The member keeps its name, its descriptor and, up to their contents, its attributes. -/
structure Member.Revised (m m' : Member) : Prop where
  name_eq : m'.name = m.name
  descriptor_eq : m'.descriptor = m.descriptor
  attributes : List.Forall₂ Attribute.Reencoded m.attributes m'.attributes

namespace Member

variable {m m' m'' : Member} {members members' : List Member} {pool pool' : ConstantPool}

protected theorem Revised.refl (m : Member) : m.Revised m :=
  ⟨rfl, rfl, List.forall₂_same.2 fun _ _ => ⟨rfl, rfl, rfl⟩⟩

protected theorem Revised.trans (h : m.Revised m') (h' : m'.Revised m'') : m.Revised m'' := by
  refine ⟨h'.name_eq.trans h.name_eq, h'.descriptor_eq.trans h.descriptor_eq, ?_⟩
  refine forall₂_trans (fun hab hbc => ?_) h.attributes h'.attributes
  exact ⟨hbc.nameIndex_eq.trans hab.nameIndex_eq, hbc.name_eq.trans hab.name_eq,
    hbc.length_eq.trans hab.length_eq⟩

theorem Revised.length_encode_eq (h : m.Revised m') : m'.encode.length = m.encode.length := by
  simp only [encode, List.length_append, Bytes.length_ofUInt16,
    Attribute.length_encodeAll_eq h.attributes]

theorem length_encodeAll_eq (h : List.Forall₂ Revised members members') :
    (encodeAll members').length = (encodeAll members).length := by
  rw [encodeAll, encodeAll, List.length_append, List.length_append,
    length_flatMap_eq (fun _ _ h => h.length_encode_eq) h]
  rfl

theorem AllFit.revised (hfits : AllFit pool members) (hkeeps : pool.Keeps pool')
    (h : List.Forall₂ Revised members members') : AllFit pool' members' := by
  refine ⟨h.length_eq ▸ hfits.length_lt, forall_of_forall₂ (fun m m' hm hfits => ?_) h hfits.fits⟩
  obtain ⟨s, hs⟩ := hfits.name_ok
  obtain ⟨t, ht⟩ := hfits.descriptor_ok
  refine ⟨⟨s, ?_⟩, ⟨t, ?_⟩, hfits.attributes_fit.reencode hkeeps.carries hm.attributes⟩
  · rw [hm.name_eq]
    exact hkeeps.text hs
  · rw [hm.descriptor_eq]
    exact hkeeps.text ht

end Member

/-! ## Attributes that may be added -/

/-- How many of the names no attribute has. -/
def missing (names : List String) (attributes : List Attribute) : ℕ :=
  names.countP fun name => (findAttribute? name attributes).isNone

/-- Setting an attribute with one of the names adds no more attributes than it uses up names. -/
theorem length_add_missing_setAttribute_le {names : List String} {a : Attribute}
    {attributes : List Attribute} (hname : a.name ∈ names) :
    (setAttribute a attributes).length + missing names (setAttribute a attributes) ≤
      attributes.length + missing names attributes := by
  have hmono (names : List String) :
      missing names (setAttribute a attributes) ≤ missing names attributes := by
    refine List.countP_mono_left fun name _ hnone => ?_
    by_cases hsame : name = a.name
    · rw [hsame, findAttribute?_setAttribute_self] at hnone
      cases hnone
    · rwa [findAttribute?_setAttribute_of_ne hsame] at hnone
  rcases hfind : findAttribute? a.name attributes with _ | b
  · -- The name itself is missing before, and not afterwards.
    obtain ⟨before, after, rfl⟩ := List.append_of_mem hname
    have hlength : (setAttribute a attributes).length = attributes.length + 1 := by
      rw [setAttribute_of_missing hfind, List.length_append, List.length_singleton]
    have hbefore := hmono before
    have hafter := hmono after
    have hfound : (findAttribute? a.name (setAttribute a attributes)).isNone = false := by
      rw [findAttribute?_setAttribute_self]
      rfl
    unfold missing at hbefore hafter ⊢
    rw [List.countP_append, List.countP_append, List.countP_cons, List.countP_cons, hfind, hfound]
    simp only [Option.isNone_none, if_true, Bool.false_eq_true, if_false]
    omega
  · obtain ⟨before, after, hattributes, hset⟩ := setAttribute_of_found hfind
    have hlength : (setAttribute a attributes).length = attributes.length := by
      rw [hset, hattributes, List.length_append, List.length_append, List.length_cons,
        List.length_cons]
    exact hlength ▸ Nat.add_le_add_left (hmono names) _

/-! ## Classes -/

namespace ClassFile

/-- Components are no larger than the fields. If they may be added, their size can be written. -/
def FieldsFit (names : List String) (c : ClassFile) : Prop :=
  AttributeFormat.recordComponents.name ∈ names →
    (Member.encodeAll c.fields).length < 4294967296

instance (names : List String) (c : ClassFile) : Decidable (c.FieldsFit names) :=
  inferInstanceAs (Decidable (_ → _))

/-- The class has become one with more pool, with members that are as large as they were and with
attributes that may be new under these names. -/
structure Revised (names : List String) (c c' : ClassFile) : Prop where
  eq_withParts : c' = c.withParts c'.pool c'.fields c'.methods c'.attributes
  grows : c.pool.Grows anyConstant c'.pool
  fields : List.Forall₂ Member.Revised c.fields c'.fields
  methods : List.Forall₂ Member.Revised c.methods c'.methods
  attributes : ∀ a ∈ c'.attributes, a ∈ c.attributes ∨
    a.Named c'.pool ∧ (c.FieldsFit names → a.info.length < 4294967296)
  length_le : c'.attributes.length + missing names c'.attributes ≤
    c.attributes.length + missing names c.attributes

/-- The counts of the class leave room for an attribute under each of these names. -/
structure HasRoom (names : List String) (c : ClassFile) : Prop where
  attributes_le : c.attributes.length + missing names c.attributes ≤ 65535
  fields_fit : c.FieldsFit names

instance (names : List String) (c : ClassFile) : Decidable (c.HasRoom names) :=
  decidable_of_iff (c.attributes.length + missing names c.attributes ≤ 65535 ∧ c.FieldsFit names)
    ⟨fun ⟨hattributes, hfields⟩ => ⟨hattributes, hfields⟩,
      fun h => ⟨h.attributes_le, h.fields_fit⟩⟩

theorem superName_congr {c c' : ClassFile} (hkeeps : c.pool.Keeps c'.pool)
    (hsuper : c'.superClass = c.superClass) {superName : Option String}
    (h : c.superName = .ok superName) : c'.superName = .ok superName := by
  unfold ClassFile.superName at h ⊢
  rw [hsuper]
  by_cases hzero : c.superClass = 0
  · rw [if_pos hzero] at h ⊢
    exact h
  · rw [if_neg hzero] at h ⊢
    rcases hname : c.pool.className c.superClass with e | name
    · rw [hname] at h
      cases h
    · rw [hname] at h
      rw [hkeeps.className hname]
      exact h

namespace Revised

variable {names : List String} {c c' c'' : ClassFile}

protected theorem refl (names : List String) (hvalid : c.pool.Valid) : c.Revised names c :=
  ⟨rfl, .refl hvalid, List.forall₂_same.2 fun m _ => .refl m,
    List.forall₂_same.2 fun m _ => .refl m, fun _ ha => .inl ha, le_rfl⟩

theorem fieldsFit (h : c.Revised names c') (hfit : c.FieldsFit names) : c'.FieldsFit names := by
  unfold FieldsFit
  rwa [Member.length_encodeAll_eq h.fields]

protected theorem trans (h : c.Revised names c') (h' : c'.Revised names c'') :
    c.Revised names c'' := by
  refine ⟨?_, h.grows.trans h'.grows, ?_, ?_, fun a ha => ?_, h'.length_le.trans h.length_le⟩
  · refine h'.eq_withParts.trans ?_
    rw [h.eq_withParts]
    rfl
  · exact forall₂_trans (fun hab hbc => hab.trans hbc) h.fields h'.fields
  · exact forall₂_trans (fun hab hbc => hab.trans hbc) h.methods h'.methods
  · rcases h'.attributes a ha with ha | ⟨hnamed, hlength⟩
    · rcases h.attributes a ha with ha | ⟨hnamed, hlength⟩
      · exact .inl ha
      · exact .inr ⟨hnamed.grow h'.grows, hlength⟩
    · exact .inr ⟨hnamed, fun hfit => hlength (h.fieldsFit hfit)⟩

theorem keeps (h : c.Revised names c') : c.pool.Keeps c'.pool :=
  h.grows.kept

theorem thisClass_eq (h : c.Revised names c') : c'.thisClass = c.thisClass := by
  rw [h.eq_withParts]
  rfl

theorem superClass_eq (h : c.Revised names c') : c'.superClass = c.superClass := by
  rw [h.eq_withParts]
  rfl

theorem interfaces_eq (h : c.Revised names c') : c'.interfaces = c.interfaces := by
  rw [h.eq_withParts]
  rfl

theorem checkNames (h : c.Revised names c') (hnames : c.checkNames = .ok ()) :
    c'.checkNames = .ok () := by
  have hclass : ∀ {i}, (∃ s, c.pool.className i = .ok s) → ∃ s, c'.pool.className i = .ok s := by
    rintro i ⟨s, hs⟩
    exact ⟨s, h.keeps.className hs⟩
  rw [checkNames_ok_iff] at hnames ⊢
  obtain ⟨hthis, hsuper, hinterfaces⟩ := hnames
  rw [h.thisClass_eq, h.superClass_eq, h.interfaces_eq]
  exact ⟨hclass hthis, hsuper.imp_right hclass, fun i hi => hclass (hinterfaces i hi)⟩

theorem superName_eq (h : c.Revised names c') {superName : Option String}
    (hsuper : c.superName = .ok superName) : c'.superName = .ok superName :=
  superName_congr h.keeps h.superClass_eq hsuper

theorem partsFit (h : c.Revised names c') (hfits : c.Fits) (hfields : c.FieldsFit names) :
    c'.PartsFit := by
  refine ⟨h.interfaces_eq ▸ hfits.interfaces_lt, hfits.fields_fit.revised h.keeps h.fields,
    hfits.methods_fit.revised h.keeps h.methods, fun a ha => ?_⟩
  rcases h.attributes a ha with ha | ⟨hnamed, hlength⟩
  · have hold := hfits.attributes_fit.fits a ha
    exact ⟨h.keeps.text hold.name_eq, hold.length_lt⟩
  · exact ⟨hnamed, hlength hfields⟩

theorem fits (h : c.Revised names c') (hfits : c.Fits) (hroom : c.HasRoom names) : c'.Fits := by
  refine (h.partsFit hfits hroom.fields_fit).fits ?_
  have hlength := h.length_le
  have hroom := hroom.attributes_le
  omega

theorem hasRoom (h : c.Revised names c') (hroom : c.HasRoom names) : c'.HasRoom names :=
  ⟨h.length_le.trans hroom.attributes_le, h.fieldsFit hroom.fields_fit⟩

/-- What is written of a revised class is read back as it stands, if there is room. -/
theorem parse_encode {data : Bytes} (h : c.Revised names c') (hparse : parse data = .ok c)
    (hroom : c.HasRoom names) : ∃ parsed, parse c'.encode = .ok parsed ∧ parsed.Same c' := by
  obtain ⟨hfits, hnames, -⟩ := parse_ok_iff.1 hparse
  obtain ⟨-, hsize⟩ := valid_of_parse hparse
  obtain ⟨entries, hholds, hstorable⟩ := h.grows.valid
  refine ⟨_, parse_encode_of_fits hholds hstorable (h.grows.le_maxSize hsize)
    (h.fits hfits hroom) (h.checkNames hnames), ?_, rfl⟩
  exact Array.toList_inj.1 ((holds_ofEntries entries).trans hholds.symm)

end Revised

theorem Sets.revised {names : List String} {a : Attribute} {c c' : ClassFile} (h : c.Sets a c')
    (hname : a.name ∈ names) (hlength : c.FieldsFit names → a.info.length < 4294967296) :
    c.Revised names c' := by
  refine ⟨?_, h.grows, ?_, ?_, fun b hb => ?_, ?_⟩
  · rw [h.eq]
    rfl
  · rw [h.eq]
    exact List.forall₂_same.2 fun m _ => .refl m
  · rw [h.eq]
    exact List.forall₂_same.2 fun m _ => .refl m
  · rw [h.attributes_eq] at hb
    rcases Workbench.mem_setAttribute hb with rfl | hb
    · exact .inr ⟨h.named, hlength⟩
    · exact .inl hb
  · rw [h.attributes_eq]
    exact length_add_missing_setAttribute_le hname

theorem Sets.revised_of_text {names : List String} {a : Attribute} {c c' : ClassFile}
    (h : c.Sets a c') (hname : a.name ∈ names) {i : UInt16} (hinfo : a.info = Bytes.ofUInt16 i) :
    c.Revised names c' := by
  refine h.revised hname fun _ => ?_
  rw [hinfo, Bytes.length_ofUInt16]
  omega

end ClassFile

end JarRemap
