import JarRemap.ClassFile.Codec
import JarRemap.Proofs.Codec.Pool

/-!
# Class files in bytes

What stands behind the pool is read exactly: attributes, members and the class itself are spelled in
one way, once their counts and lengths fit their fields and their names resolve (`Fits`). Together
with the pool this says what `ClassFile.parse` accepts (`ClassFile.parse_ok_iff`).
-/

namespace JarRemap

open Reader

/-! ## Attributes -/

namespace Attribute

/-- The attribute can stand in a class file with this pool. -/
structure Fits (pool : ConstantPool) (a : Attribute) : Prop where
  name_eq : pool.text a.nameIndex = .ok a.name
  length_lt : a.info.length < 4294967296

/-- The attributes can stand in a list of attributes. -/
structure AllFit (pool : ConstantPool) (attributes : List Attribute) : Prop where
  length_lt : attributes.length < 65536
  fits : ∀ a ∈ attributes, a.Fits pool

theorem read_exact (pool : ConstantPool) : (Attribute.read pool).Exact encode (Fits pool) := by
  intro a c d
  simp only [Attribute.read, bind_ok_iff (r := u16), u16_exact _ _ _, true_and,
    count32_bytes_ok_iff]
  simp only [bind_ok_iff, lift_ok_iff, pure_ok_iff, encode,
    Cursor.past_append_iff (x := Bytes.ofUInt16 _)]
  constructor
  · rintro ⟨nameIndex, m, hindex, info, n, hlt, hinfo, name, _, ⟨hname, rfl⟩, rfl, rfl⟩
    exact ⟨⟨hname, hlt⟩, m, hindex, hinfo⟩
  · rintro ⟨⟨hname, hlt⟩, m, hindex, hinfo⟩
    exact ⟨_, m, hindex, _, d, hlt, hinfo, _, d, ⟨hname, rfl⟩, rfl, rfl⟩

theorem readAll_exact (pool : ConstantPool) :
    (readAll pool).Exact encodeAll (AllFit pool) :=
  (read_exact pool).rows16.congr (fun _ => rfl) fun _ => ⟨fun h => ⟨h.1, h.2⟩, fun h => ⟨h.1, h.2⟩⟩

end Attribute

/-! ## Members -/

namespace Member

/-- The member can stand in a class file with this pool. -/
structure Fits (pool : ConstantPool) (m : Member) : Prop where
  name_ok : ∃ s, pool.text m.name = .ok s
  descriptor_ok : ∃ s, pool.text m.descriptor = .ok s
  attributes_fit : Attribute.AllFit pool m.attributes

/-- The members can stand in a list of members. -/
structure AllFit (pool : ConstantPool) (members : List Member) : Prop where
  length_lt : members.length < 65536
  fits : ∀ m ∈ members, m.Fits pool

theorem read_exact (pool : ConstantPool) : (Member.read pool).Exact encode (Fits pool) := by
  intro member c d
  simp only [Member.read, bind_ok_iff, u16_exact _ _ _, lift_ok_iff, pure_ok_iff, true_and,
    Attribute.readAll_exact _ _ _ _, encode, Cursor.past_append_iff]
  constructor
  · rintro ⟨access, m, haccess, name, n, hname, descriptor, o, hdescriptor, s, _, ⟨hs, rfl⟩,
      t, _, ⟨ht, rfl⟩, attributes, _, ⟨hfit, hattributes⟩, rfl, rfl⟩
    exact ⟨⟨⟨s, hs⟩, ⟨t, ht⟩, hfit⟩, m, haccess, n, hname, o, hdescriptor, hattributes⟩
  · rintro ⟨⟨⟨s, hs⟩, ⟨t, ht⟩, hfit⟩, m, haccess, n, hname, o, hdescriptor, hattributes⟩
    exact ⟨_, m, haccess, _, n, hname, _, o, hdescriptor, s, o, ⟨hs, rfl⟩, t, o, ⟨ht, rfl⟩, _, d,
      ⟨hfit, hattributes⟩, rfl, rfl⟩

theorem readAll_exact (pool : ConstantPool) :
    (rows16 (Member.read pool)).Exact encodeAll (AllFit pool) :=
  (read_exact pool).rows16.congr (fun _ => rfl) fun _ => ⟨fun h => ⟨h.1, h.2⟩, fun h => ⟨h.1, h.2⟩⟩

end Member

/-! ## Classes -/

namespace ClassFile

/-- The parts behind the pool can stand in a class file. -/
structure Fits (c : ClassFile) : Prop where
  interfaces_lt : c.interfaces.length < 65536
  fields_fit : Member.AllFit c.pool c.fields
  methods_fit : Member.AllFit c.pool c.methods
  attributes_fit : Attribute.AllFit c.pool c.attributes

/-- The parts behind the pool can stand in a class file, except that the class may have more
attributes than can be counted. -/
structure PartsFit (c : ClassFile) : Prop where
  interfaces_lt : c.interfaces.length < 65536
  fields_fit : Member.AllFit c.pool c.fields
  methods_fit : Member.AllFit c.pool c.methods
  attribute_fits : ∀ a ∈ c.attributes, a.Fits c.pool

theorem Fits.parts {c : ClassFile} (h : c.Fits) : c.PartsFit :=
  ⟨h.interfaces_lt, h.fields_fit, h.methods_fit, h.attributes_fit.fits⟩

/-- As many attributes as can be counted fit. -/
theorem PartsFit.take {c : ClassFile} (h : c.PartsFit) {n : ℕ} (hn : n < 65536) :
    Fits { c with attributes := c.attributes.take n } := by
  refine ⟨h.interfaces_lt, h.fields_fit, h.methods_fit, ?_, fun a ha => ?_⟩
  · exact (List.length_take_le n c.attributes).trans_lt hn
  · exact h.attribute_fits a (List.mem_of_mem_take ha)

theorem PartsFit.fits {c : ClassFile} (h : c.PartsFit) (hlt : c.attributes.length < 65536) :
    c.Fits :=
  ⟨h.interfaces_lt, h.fields_fit, h.methods_fit, hlt, h.attribute_fits⟩

/-- The bytes in front of the pool. -/
def encodeHead (c : ClassFile) : Bytes :=
  Bytes.ofUInt32 magic ++ (Bytes.ofUInt16 c.minorVersion ++ Bytes.ofUInt16 c.majorVersion)

/-- The bytes behind the pool. -/
def encodeTail (c : ClassFile) : Bytes :=
  Bytes.ofUInt16 c.access.bits ++
    (Bytes.ofUInt16 c.thisClass ++ (Bytes.ofUInt16 c.superClass ++
    ((Bytes.count16 c.interfaces ++ c.interfaces.flatMap Bytes.ofUInt16) ++
    (Member.encodeAll c.fields ++ (Member.encodeAll c.methods ++
    Attribute.encodeAll c.attributes)))))

theorem encode_eq (c : ClassFile) :
    c.encode = c.encodeHead ++ (c.pool.encode ++ c.encodeTail) := by
  simp only [encode, encodeHead, encodeTail, List.append_assoc]

/-- Reading a class file reads its pool between two parts that are spelled in one way. -/
theorem read_ok_iff {f : ClassFile} {c d : Cursor} :
    ClassFile.read c = (.ok f, d) ↔
      f.Fits ∧ ∃ m n, c.Past f.encodeHead m ∧ ConstantPool.read m = (.ok f.pool, n) ∧
        n.Past f.encodeTail d := by
  simp only [ClassFile.read, bind_ok_iff (r := u32), u32_exact _ _ _, true_and, check_ok_iff,
    ne_eq, not_not]
  simp only [bind_ok_iff, u16_exact _ _ _, pure_ok_iff, true_and, u16_exact.rows16 _ _ _,
    Member.readAll_exact _ _ _ _, Attribute.readAll_exact _ _ _ _, encodeHead, encodeTail,
    Cursor.past_append_iff (x := Bytes.ofUInt32 _), Cursor.past_append_iff (x := Bytes.ofUInt16 _),
    Cursor.past_append_iff (x := Bytes.count16 _ ++ _),
    Cursor.past_append_iff (x := Member.encodeAll _)]
  constructor
  · rintro ⟨_, m, hmagic, rfl, minor, n, hminor, major, o, hmajor, pool, p, hpool, access, q,
      haccess, this, r, hthis, super, s, hsuper, interfaces, t, ⟨⟨hlt, -⟩, hinterfaces⟩, fields, u,
      ⟨hfieldsFit, hfields⟩, methods, v, ⟨hmethodsFit, hmethods⟩, attributes, _,
      ⟨hattributesFit, hattributes⟩, rfl, rfl⟩
    exact ⟨⟨hlt, hfieldsFit, hmethodsFit, hattributesFit⟩, o, p, ⟨m, hmagic, n, hminor, hmajor⟩,
      hpool, q, haccess, r, hthis, s, hsuper, t, hinterfaces, u, hfields, v, hmethods, hattributes⟩
  · rintro ⟨⟨hlt, hfieldsFit, hmethodsFit, hattributesFit⟩, o, p, ⟨m, hmagic, n, hminor, hmajor⟩,
      hpool, q, haccess, r, hthis, s, hsuper, t, hinterfaces, u, hfields, v, hmethods, hattributes⟩
    exact ⟨_, m, hmagic, rfl, _, n, hminor, _, o, hmajor, _, p, hpool, _, q, haccess, _, r, hthis,
      _, s, hsuper, _, t, ⟨⟨hlt, fun _ _ => trivial⟩, hinterfaces⟩, _, u, ⟨hfieldsFit, hfields⟩, _,
      v, ⟨hmethodsFit, hmethods⟩, _, d, ⟨hattributesFit, hattributes⟩, rfl, rfl⟩

theorem parse_ok_iff_read {data : Bytes} {f : ClassFile} :
    parse data = .ok f ↔
      (∃ d, ClassFile.read ⟨0, data⟩ = (.ok f, d) ∧ d.rest = []) ∧ f.checkNames = .ok () := by
  have hrun : ClassFile.read.runOn data = ClassFile.read ⟨0, data⟩ := rfl
  rw [parse, hrun]
  rcases ClassFile.read ⟨0, data⟩ with ⟨e | g, d⟩
  · constructor
    · rintro ⟨⟩
    · rintro ⟨⟨_, ⟨⟩, -⟩, -⟩
  · have hparse : (do
          if !d.rest.isEmpty then throw (.badAttribute "trailing class data")
          g.checkNames
          return g : Except ClassError ClassFile) = .ok f ↔
        d.rest = [] ∧ g.checkNames = .ok () ∧ g = f := by
      rcases hrest : d.rest with _ | ⟨b, rest⟩
      · rcases g.checkNames with e | ⟨⟩ <;> simp
      · refine ⟨fun h => ?_, fun ⟨h, _⟩ => ?_⟩ <;> cases h
    rw [hparse]
    constructor
    · rintro ⟨hrest, hnames, rfl⟩
      exact ⟨⟨d, rfl, hrest⟩, hnames⟩
    · rintro ⟨⟨_, ⟨⟩, hrest⟩, hnames⟩
      exact ⟨hrest, hnames, rfl⟩

/-- What `ClassFile.parse` accepts: the head, a pool, the tail and nothing more, where everything
fits and the names of the class resolve. -/
theorem parse_ok_iff {data : Bytes} {f : ClassFile} :
    parse data = .ok f ↔
      f.Fits ∧ f.checkNames = .ok () ∧
      ∃ count entries spelled, List.Forall₂ Constant.Spells entries spelled ∧
        ConstantPool.Fills entries (count.toNat - 1) ∧ f.pool = .ofEntries entries ∧
        f.pool.size ≤ ConstantPool.maxSize ∧
        data = f.encodeHead ++ ((Bytes.ofUInt16 count ++ spelled.flatten) ++ f.encodeTail) := by
  rw [parse_ok_iff_read]
  simp only [read_ok_iff, ConstantPool.read_ok_iff]
  constructor
  · rintro ⟨⟨d, ⟨hfits, m, n, hhead, ⟨count, entries, spelled, hspells, hfills, hpool, hsize,
      hpast⟩, htail⟩, hrest⟩, hnames⟩
    refine ⟨hfits, hnames, count, entries, spelled, hspells, hfills, hpool, hsize, ?_⟩
    refine (Cursor.past_all_iff.1 ⟨?_, hrest⟩).1
    exact Cursor.past_append_iff.2 ⟨m, hhead, Cursor.past_append_iff.2 ⟨n, hpast, htail⟩⟩
  · rintro ⟨hfits, hnames, count, entries, spelled, hspells, hfills, hpool, hsize, hdata⟩
    obtain ⟨hall, hrest⟩ := Cursor.past_all_iff.2 ⟨hdata, rfl⟩
    obtain ⟨m, hhead, hall⟩ := Cursor.past_append_iff.1 hall
    obtain ⟨n, hpast, htail⟩ := Cursor.past_append_iff.1 hall
    exact ⟨⟨_, ⟨hfits, m, n, hhead, ⟨count, entries, spelled, hspells, hfills, hpool, hsize, hpast⟩,
      htail⟩, hrest⟩, hnames⟩

/-- Nothing may follow a class file. -/
theorem parse_append {data more : Bytes} {f : ClassFile} (h : parse data = .ok f)
    (hmore : more ≠ []) : parse (data ++ more) = .error (.badAttribute "trailing class data") := by
  obtain ⟨hfits, -, count, entries, spelled, hspells, hfills, hpool, hsize, hdata⟩ :=
    parse_ok_iff.1 h
  have hpast : (⟨0, data ++ more⟩ : Cursor).Past data ⟨data.length, more⟩ := ⟨rfl, by simp⟩
  have hread : ClassFile.read.runOn (data ++ more) = (.ok f, ⟨data.length, more⟩) := by
    rw [hdata] at hpast
    obtain ⟨m, hhead, hall⟩ := Cursor.past_append_iff.1 hpast
    obtain ⟨n, hpoolPast, htail⟩ := Cursor.past_append_iff.1 hall
    rw [hdata]
    exact read_ok_iff.2 ⟨hfits, m, n, hhead, ConstantPool.read_ok_iff.2
      ⟨count, entries, spelled, hspells, hfills, hpool, hsize, hpoolPast⟩, htail⟩
  rw [parse, hread]
  obtain ⟨b, rest, rfl⟩ := List.exists_cons_of_ne_nil hmore
  rfl

end ClassFile

end JarRemap
