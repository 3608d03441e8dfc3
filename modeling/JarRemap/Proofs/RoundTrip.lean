import JarRemap.Proofs.Build
import JarRemap.Proofs.SideBySide

/-!
# Reading and writing are inverse

A class that was read is written so that reading it again gives the same class, in no more bytes
than it was read from, and in the very same bytes exactly when its texts waste none. A class that
was built is read back as it stands.

The bytes differ only in texts: everything else is read exactly, and a text is written in its
shortest form.
-/

namespace JarRemap

open ConstantPool

/-! ## Pools that agree -/

/-- Two pools have the same slots. Their directories may differ. -/
theorem ConstantPool.text_congr {pool pool' : ConstantPool} (h : pool.slots = pool'.slots) :
    pool.text = pool'.text := by
  obtain ⟨slots, directory⟩ := pool
  obtain ⟨slots', directory'⟩ := pool'
  obtain rfl : slots = slots' := h
  rfl

theorem ConstantPool.className_congr {pool pool' : ConstantPool} (h : pool.slots = pool'.slots) :
    pool.className = pool'.className := by
  obtain ⟨slots, directory⟩ := pool
  obtain ⟨slots', directory'⟩ := pool'
  obtain rfl : slots = slots' := h
  rfl

namespace ClassFile

/-- Two classes are equal, except perhaps for the directories of their pools. -/
structure Same (c d : ClassFile) : Prop where
  slots_eq : c.pool.slots = d.pool.slots
  rest_eq : { c with pool := d.pool } = d

/-- The names of a class resolve exactly if each of them does. -/
theorem checkNames_ok_iff {c : ClassFile} :
    c.checkNames = .ok () ↔
      (∃ s, c.pool.className c.thisClass = .ok s) ∧
      (c.superClass = 0 ∨ ∃ s, c.pool.className c.superClass = .ok s) ∧
      ∀ i ∈ c.interfaces, ∃ s, c.pool.className i = .ok s := by
  rw [checkNames, name, superName, interfaceNames, ← mapM_ok_iff]
  rcases c.pool.className c.thisClass with e | s
  · simp [bind, Except.bind]
  by_cases hzero : c.superClass = 0
  · rcases c.interfaces.mapM c.pool.className with e | l <;>
      simp [bind, Except.bind, pure, Except.pure, hzero]
  · rcases c.pool.className c.superClass with e | t <;>
      rcases c.interfaces.mapM c.pool.className with e' | l <;>
      simp [bind, Except.bind, pure, Except.pure, hzero, Except.map]

/-- What a class file that is written with its pool gives back when it is read. -/
theorem parse_encode_of_fits {c : ClassFile} {entries : List Constant}
    (hholds : c.pool.Holds entries) (hstorable : ∀ k ∈ entries, k.Storable)
    (hsize : c.pool.size ≤ maxSize) (hfits : c.Fits) (hnames : c.checkNames = .ok ()) :
    parse c.encode = .ok { c with pool := ofEntries entries } := by
  -- The pool that is read may have another directory, but everything resolves alike in both.
  have hslots : c.pool.slots = (ofEntries entries).slots :=
    Array.toList_inj.1 (hholds.trans (holds_ofEntries entries).symm)
  have htext := text_congr hslots
  have hclass := className_congr hslots
  refine parse_ok_iff.2 ⟨?_, ?_, UInt16.ofNat (1 + widths entries), entries, _,
    forall₂_spells_encode hstorable, ?_, rfl, ?_, ?_⟩
  · have hattribute : ∀ {a : Attribute}, a.Fits c.pool → a.Fits (ofEntries entries) :=
      fun h => ⟨htext ▸ h.1, h.2⟩
    have hattributes : ∀ {l}, Attribute.AllFit c.pool l → Attribute.AllFit (ofEntries entries) l :=
      fun h => ⟨h.1, fun a ha => hattribute (h.2 a ha)⟩
    have hmembers : ∀ {l}, Member.AllFit c.pool l → Member.AllFit (ofEntries entries) l :=
      fun h => ⟨h.1, fun m hm =>
        let hm := h.2 m hm
        ⟨htext ▸ hm.1, htext ▸ hm.2, hattributes hm.3⟩⟩
    exact ⟨hfits.1, hmembers hfits.2, hmembers hfits.3, hattributes hfits.4⟩
  · rw [checkNames_ok_iff] at hnames ⊢
    rw [hclass] at hnames
    exact hnames
  · rw [hholds.size_eq, maxSize] at hsize
    rw [Bytes.toNat_ofNat16 (by omega), Nat.add_sub_cancel_left]
    exact fills_widths entries
  · show (ofEntries entries).size ≤ maxSize
    rwa [(holds_ofEntries entries).size_eq, ← hholds.size_eq]
  · rw [encode_eq, hholds.encode_eq, ← List.flatMap_def]
    rfl

/-! ## What was read -/

/-- How many slots the bytes of a class file say that its pool has. -/
def declaredSlots (data : Bytes) : ℕ :=
  (Bytes.toUInt16 (data.getD 8 0) (data.getD 9 0)).toNat

/-- The last slot of the pool, as the bytes count them, is the first half of a wide entry. -/
def EndsInHalf (data : Bytes) (c : ClassFile) : Prop :=
  ∃ k, c.pool.slots[declaredSlots data - 1]? = some (some k) ∧ k.isWide = true

/-- The texts in the pool of a class file, in the bytes in which they are written there. -/
def textsOf (data : Bytes) : List Bytes :=
  Constant.writtenTexts (declaredSlots data - 1) (data.drop 10)

theorem not_checkNames_of_empty {c : ClassFile} (h : c.pool.slots = #[none]) :
    c.checkNames ≠ .ok () := by
  rw [ne_eq, checkNames_ok_iff]
  rintro ⟨⟨s, hs⟩, -⟩
  obtain ⟨name, hname, -⟩ := className_ok_iff.1 hs
  rw [ entry?, h] at hname
  rcases hi : c.thisClass.toNat with _ | i <;> simp [hi] at hname

/-- A class that was read is read again from what is written of it. -/
theorem parse_encode_of_parse {data : Bytes} {c : ClassFile} (h : parse data = .ok c)
    (hhalf : ¬ EndsInHalf data c) :
    parse c.encode = .ok c ∧ c.encode.length ≤ data.length ∧
      (c.encode = data ↔ ∀ text ∈ textsOf data, Constant.IsReproduced text) := by
  obtain ⟨hfits, hnames, count, entries, spelled, hspells, hfills, hpool, hsize, rfl⟩ :=
    parse_ok_iff.1 h
  have hholds : c.pool.Holds entries := hpool ▸ holds_ofEntries entries
  have hdeclared : declaredSlots (c.encodeHead ++
      ((Bytes.ofUInt16 count ++ spelled.flatten) ++ c.encodeTail)) = count.toNat :=
    congrArg UInt16.toNat (Bytes.toUInt16_ofUInt16 count)
  have htexts : textsOf (c.encodeHead ++
      ((Bytes.ofUInt16 count ++ spelled.flatten) ++ c.encodeTail)) =
      Constant.writtenTexts (count.toNat - 1) (spelled.flatten ++ c.encodeTail) := by
    rw [textsOf, hdeclared]
    rfl
  -- The slots are filled exactly, and there are some, for the class has a name.
  have hwidths : 1 + widths entries = count.toNat := by
    rcases hfills.exact_or_cut with hexact | ⟨k, hk, hwide⟩
    · rcases Nat.eq_zero_or_pos count.toNat with hzero | hpos
      · obtain rfl : entries = [] := eq_nil_of_fills_zero (by rwa [hzero] at hfills)
        exact absurd hnames (not_checkNames_of_empty (Array.toList_inj.1 hholds))
      · omega
    · refine absurd ⟨k, ?_, hwide⟩ hhalf
      rw [hdeclared, ← Array.getElem?_toList, hholds]
      rcases hlast : count.toNat - 1 with _ | last
      · obtain rfl : entries = [] := eq_nil_of_fills_zero (hlast ▸ hfills)
        cases hk
      · rwa [hlast, Nat.add_sub_cancel] at hk
  have hencode : c.pool.encode = Bytes.ofUInt16 count ++ entries.flatMap Constant.encode := by
    rw [hholds.encode_eq, hwidths, UInt16.ofNat_toNat]
  obtain ⟨hle, -⟩ := shortens_flatMap_encode hspells
  refine ⟨?_, ?_, ?_⟩
  · rw [parse_encode_of_fits hholds (storable_of_forall₂ hspells) hsize hfits hnames, ← hpool]
  · rw [encode_eq, hencode]
    simp only [List.length_append]
    omega
  · rw [htexts, ← flatMap_encode_eq_iff hspells hfills, encode_eq, hencode,
      List.append_cancel_left_eq, List.append_cancel_right_eq, List.append_cancel_left_eq]

/-! ## What was built -/

/-- The counts and lengths of the class fit their fields. -/
structure CountsFit (c : ClassFile) : Prop where
  interfaces_le : c.interfaces.length ≤ 65535
  fields_le : c.fields.length ≤ 65535
  methods_le : c.methods.length ≤ 65535
  attributes_le : c.attributes.length ≤ 65535
  members_le : ∀ m ∈ c.fields ++ c.methods, m.attributes.length ≤ 65535
  info_lt : ∀ a ∈ c.attributes, a.info.length < 4294967296
  members_info_lt : ∀ m ∈ c.fields ++ c.methods, ∀ a ∈ m.attributes, a.info.length < 4294967296

/-- What stands on a sound workbench can stand in a class file, if its counts fit. -/
theorem fits_of_sound {b : Workbench} (h : b.Sound) (hcounts : b.built.CountsFit) :
    b.built.Fits := by
  have hmember : ∀ m ∈ b.built.fields ++ b.built.methods, m.Named b.built.pool →
      m.Fits b.built.pool := by
    intro m hm hnamed
    refine ⟨hnamed.name_ok, hnamed.descriptor_ok, Nat.lt_succ_of_le (hcounts.members_le m hm), ?_⟩
    intro a ha
    exact ⟨hnamed.attributes_named a ha, hcounts.members_info_lt m hm a ha⟩
  refine ⟨Nat.lt_succ_of_le hcounts.interfaces_le, ⟨Nat.lt_succ_of_le hcounts.fields_le, ?_⟩,
    ⟨Nat.lt_succ_of_le hcounts.methods_le, ?_⟩, ⟨Nat.lt_succ_of_le hcounts.attributes_le, ?_⟩⟩
  · exact fun m hm => hmember m (List.mem_append_left _ hm) (h.fields_named m hm)
  · exact fun m hm => hmember m (List.mem_append_right _ hm) (h.methods_named m hm)
  · exact fun a ha => ⟨h.attributes_named a ha, hcounts.info_lt a ha⟩

/-- A class on a sound workbench is read back as it stands. -/
theorem parse_encode_of_sound {b : Workbench} (h : b.Sound) (hcounts : b.built.CountsFit) :
    ∃ parsed, parse b.built.encode = .ok parsed ∧ parsed.Same b.built := by
  obtain ⟨entries, hholds, hstorable⟩ := h.valid
  have hnames := checkNames_ok_iff.2 ⟨h.this_ok, h.super_ok, h.interfaces_ok⟩
  refine ⟨_, parse_encode_of_fits hholds hstorable h.size_le (fits_of_sound h hcounts) hnames,
    ?_, rfl⟩
  exact Array.toList_inj.1 ((holds_ofEntries entries).trans hholds.symm)

/-! ## Both directions -/

/-- Reading and writing are inverse. What was read is written so that reading it again gives the
same class, never in more bytes, and in the same bytes exactly when each of its texts has a
surrogate without a partner or is written in its shortest form. What was built is read back as it
stands. -/
theorem parse_encode_round_trip :
    (∀ (data : Bytes) (c : ClassFile), parse data = .ok c → ¬ EndsInHalf data c →
      parse c.encode = .ok c ∧ c.encode.length ≤ data.length ∧
      (c.encode = data ↔ ∀ text ∈ textsOf data, Constant.IsReproduced text)) ∧
    (∀ (access : AccessFlags) (name : String) (superName : Option String) (c : ClassFile)
      (steps : List BuildStep), create access name superName = .ok c →
      (∀ s ∈ steps, s.putsText = true) → ((⟨c, []⟩ : Workbench).run steps).built.CountsFit →
      ∃ parsed, parse ((⟨c, []⟩ : Workbench).run steps).built.encode = .ok parsed ∧
        parsed.Same ((⟨c, []⟩ : Workbench).run steps).built) := by
  refine ⟨fun data c h hhalf => parse_encode_of_parse h hhalf, ?_⟩
  intro access name superName c steps hcreate hsteps hcounts
  exact parse_encode_of_sound ((Workbench.sound_create hcreate).run hsteps) hcounts

/-- A class file in which the name `A` takes two bytes. -/
def wastefulFile : Bytes :=
  [0xca, 0xfe, 0xba, 0xbe, 0, 0, 0, 61, 0, 3, 1, 0, 2, 0xc1, 0x81, 7, 0, 1, 0, 0x21, 0, 2, 0, 0,
   0, 0, 0, 0, 0, 0, 0, 0]

/-- The class that is read from it. -/
def wastefulClass : ClassFile :=
  { minorVersion := 0, majorVersion := 61, pool := .ofEntries [.utf8 "A", .classEntry 1],
    access := ⟨0x21⟩, thisClass := 2, superClass := 0, interfaces := [], fields := [],
    methods := [], attributes := [] }

/-- A new class with the same name. -/
def plainClass : ClassFile :=
  { wastefulClass with pool := (ConstantPool.empty.append (.utf8 "A")).append (.classEntry 1) }

/-- Steps that give a class a field and the name of its source. -/
def plainSteps : List BuildStep :=
  [.addField ⟨0x2⟩ "x" "I", .makeTextAttribute "SourceFile" "A.java", .setAttribute 0 .ofClass]

theorem parse_encode_round_trip_sample :
    (parse wastefulClass.encode = .ok wastefulClass ∧
      wastefulClass.encode.length ≤ wastefulFile.length ∧
      (wastefulClass.encode = wastefulFile ↔
        ∀ text ∈ textsOf wastefulFile, Constant.IsReproduced text)) ∧
    ∃ parsed, parse ((⟨plainClass, []⟩ : Workbench).run plainSteps).built.encode = .ok parsed ∧
      parsed.Same ((⟨plainClass, []⟩ : Workbench).run plainSteps).built := by
  have hhalf : ¬ EndsInHalf wastefulFile wastefulClass := by
    rintro ⟨k, hk, hwide⟩
    cases hk
    cases hwide
  have hcounts : ((⟨plainClass, []⟩ : Workbench).run plainSteps).built.CountsFit := by
    constructor <;> decide +kernel
  exact ⟨parse_encode_round_trip.1 wastefulFile wastefulClass rfl hhalf,
    parse_encode_round_trip.2 ⟨0x21⟩ "A" none plainClass plainSteps rfl (by decide) hcounts⟩

end ClassFile

end JarRemap
