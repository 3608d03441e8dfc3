import JarRemap.Proofs.Rename.RenamedArchive
import JarRemap.Proofs.Repair.Once

/-!
# Classes that the stages write

A stage hands a class on as it got it, or writes what it has made of it. The entry keeps its time
and its release then, and its name is that of the class in it. What is written is read back, unless
a repair has given the class more attributes than can be counted: the pool and the texts are checked
when they grow, but no stage checks this count, and what is written then is refused by whoever reads
it (`Chain.classes_written`, `Repair.source_uncounted`).
-/

namespace JarRemap

open ConstantPool

/-! ## Counts of attributes -/

namespace ClassFile

/-- Of more attributes than can be counted, the last ones are behind what the count says. -/
theorem encode_eq_take (c : ClassFile) {n : ℕ} (hn : n = c.attributes.length % 65536) :
    c.encode = { c with attributes := c.attributes.take n }.encode ++
      (c.attributes.drop n).flatMap Attribute.encode := by
  have hle : n ≤ c.attributes.length := hn ▸ Nat.mod_le _ _
  have hcount : Bytes.count16 (c.attributes.take n) = Bytes.count16 c.attributes := by
    rw [Bytes.count16, Bytes.count16, List.length_take_of_le hle, hn]
    exact congrArg Bytes.ofUInt16 (UInt16.ofNat_mod_size)
  have hall : Attribute.encodeAll c.attributes =
      Attribute.encodeAll (c.attributes.take n) ++
        (c.attributes.drop n).flatMap Attribute.encode := by
    rw [Attribute.encodeAll, Attribute.encodeAll, hcount, List.append_assoc, ← List.flatMap_append,
      List.take_append_drop]
  unfold encode
  rw [hall]
  simp only [List.append_assoc]

/-- Of a class whose parts fit, only the count of its attributes decides whether what is written is
read back. -/
theorem PartsFit.parse_encode {c : ClassFile} (h : c.PartsFit) (hvalid : c.pool.Valid)
    (hsize : c.pool.size ≤ maxSize) (hnames : c.checkNames = .ok ()) :
    (c.attributes.length < 65536 → ∃ parsed, parse c.encode = .ok parsed ∧ parsed.Same c) ∧
    (65536 ≤ c.attributes.length →
      parse c.encode = .error (.badAttribute "trailing class data")) := by
  obtain ⟨entries, hholds, hstorable⟩ := hvalid
  constructor
  · intro hlt
    refine ⟨_, parse_encode_of_fits hholds hstorable hsize (h.fits hlt) hnames, ?_, rfl⟩
    exact Array.toList_inj.1 ((holds_ofEntries entries).trans hholds.symm)
  · intro hle
    have hlt : c.attributes.length % 65536 < 65536 := Nat.mod_lt _ (by decide)
    have hcounted := parse_encode_of_fits (c := { c with
      attributes := c.attributes.take (c.attributes.length % 65536) }) hholds hstorable hsize
      (h.take hlt) hnames
    rw [encode_eq_take c rfl]
    refine parse_append hcounted fun hnil => ?_
    have hdrop : 0 < (c.attributes.drop (c.attributes.length % 65536)).length := by
      rw [List.length_drop]
      omega
    obtain ⟨a, rest, hcons⟩ := List.exists_cons_of_length_pos hdrop
    have hlength := congrArg List.length hnil
    rw [hcons, List.flatMap_cons, Attribute.encode, List.length_append, List.length_append,
      Bytes.length_ofUInt16] at hlength
    simp at hlength

/-- The fields are no longer than the file they are read from. -/
theorem length_fields_lt {data : Bytes} {c : ClassFile} (h : parse data = .ok c) {n : ℕ}
    (hn : data.length < n) : (Member.encodeAll c.fields).length < n := by
  obtain ⟨-, -, count, entries, spelled, -, -, -, -, rfl⟩ := parse_ok_iff.1 h
  simp only [encodeTail, List.length_append] at hn
  omega

end ClassFile

/-! ## Classes that grow -/

theorem missing_eq_of_reencoded {attributes attributes' : List Attribute}
    (h : List.Forall₂ Attribute.Reencoded attributes attributes') (names : List String) :
    missing names attributes' = missing names attributes := by
  have hfind (name : String) :
      (findAttribute? name attributes').isNone = (findAttribute? name attributes).isNone := by
    induction h with
    | nil => rfl
    | cons ha _ ih =>
      rw [findAttribute?, findAttribute?, List.find?_cons, List.find?_cons, ha.name_eq]
      split
      · rfl
      · exact ih
  unfold missing
  simp only [hfind]

namespace ClassFile

/-- The fields take up as many bytes, and there are no more attributes than there were and would be
under those of the names that had none. -/
structure Grows (names : List String) (c c' : ClassFile) : Prop where
  fields_eq : (Member.encodeAll c'.fields).length = (Member.encodeAll c.fields).length
  length_le : c'.attributes.length + missing names c'.attributes ≤
    c.attributes.length + missing names c.attributes

namespace Grows

variable {names : List String} {c c' c'' : ClassFile}

protected theorem refl (names : List String) (c : ClassFile) : c.Grows names c :=
  ⟨rfl, le_rfl⟩

protected theorem trans (h : c.Grows names c') (h' : c'.Grows names c'') : c.Grows names c'' :=
  ⟨h'.fields_eq.trans h.fields_eq, h'.length_le.trans h.length_le⟩

theorem of_same (h : c'.Same c) : c.Grows names c' := by
  refine ⟨?_, ?_⟩
  · rw [← h.rest_eq]
  · rw [← h.rest_eq]

theorem of_revised (h : c.Revised names c') : c.Grows names c' :=
  ⟨Member.length_encodeAll_eq h.fields, h.length_le⟩

theorem of_renamed {r : Remapper} {owner : String} (h : ClassRenamed r owner c c') :
    c.Grows names c' := by
  have hattributes := h.attributes_renamed.imp fun _ _ ha => ha.reencoded
  refine ⟨?_, ?_⟩
  · rw [Member.encodeAll, Member.encodeAll, List.length_append, List.length_append,
      length_flatMap_eq (fun m m' hm => ?_) h.fields_renamed]
    · rfl
    · obtain ⟨_, _, -, -, hm⟩ := hm.attributes_renamed
      simp only [Member.encode, List.length_append, Bytes.length_ofUInt16,
        Attribute.length_encodeAll_eq (hm.imp fun _ _ ha => ha.reencoded)]
  · rw [missing_eq_of_reencoded hattributes, hattributes.length_eq]

end Grows

end ClassFile

/-! ## Entries -/

/-- The entry holds this class, by its name. It is read back unless it has more attributes than can
be counted. -/
structure ClassEntry.Holds (e : ClassEntry) (c : ClassFile) : Prop where
  data_eq : e.data = c.encode
  name_eq : c.name = .ok e.name
  counted : c.attributes.length < 65536 →
    ∃ parsed, ClassFile.parse e.data = .ok parsed ∧ parsed.Same c ∧ parsed.name = .ok e.name
  uncounted : 65536 ≤ c.attributes.length →
    ClassFile.parse e.data = .error (.badAttribute "trailing class data")

theorem ClassEntry.Holds.of_fits {e : ClassEntry} {c : ClassFile} (hdata : e.data = c.encode)
    (hname : c.name = .ok e.name) (hfits : c.PartsFit) (hvalid : c.pool.Valid)
    (hsize : c.pool.size ≤ maxSize) (hnames : c.checkNames = .ok ()) : e.Holds c := by
  obtain ⟨hcounted, huncounted⟩ := hfits.parse_encode hvalid hsize hnames
  refine ⟨hdata, hname, fun hlt => ?_, hdata ▸ huncounted⟩
  obtain ⟨parsed, hparsed, hsame⟩ := hcounted hlt
  refine ⟨parsed, hdata ▸ hparsed, hsame, ?_⟩
  rw [ClassFile.name, ConstantPool.className_congr hsame.slots_eq, ← hname, ClassFile.name,
    ← hsame.rest_eq]

/-- The entry `e` with the class `c` has become `e'`: it is as it was, or what has been written
holds a class that has grown from it. -/
structure ClassEntry.Processed (names : List String) (e : ClassEntry) (c : ClassFile)
    (e' : ClassEntry) : Prop where
  time_eq : e'.time = e.time
  version_eq : e'.version = e.version
  same_or_holds : e' = e ∨ ∃ c', c.Grows names c' ∧ e'.Holds c'

namespace ClassEntry.Processed

variable {names : List String} {e e' : ClassEntry} {c c' : ClassFile}

protected theorem refl (names : List String) (e : ClassEntry) (c : ClassFile) :
    e.Processed names c e :=
  ⟨rfl, rfl, .inl rfl⟩

/-- The next stage reads a class that has grown from the first one. -/
theorem grows (h : e.Processed names c e') (hparse : ClassFile.parse e.data = .ok c)
    (hparse' : ClassFile.parse e'.data = .ok c') : c.Grows names c' := by
  rcases h.same_or_holds with rfl | ⟨written, hgrows, hholds⟩
  · cases hparse.symm.trans hparse'
    exact .refl names c
  · rcases Nat.lt_or_ge written.attributes.length 65536 with hlt | hge
    · obtain ⟨parsed, hparsed, hsame, -⟩ := hholds.counted hlt
      cases hparsed.symm.trans hparse'
      exact hgrows.trans (.of_same hsame)
    · cases (hholds.uncounted hge).symm.trans hparse'

end ClassEntry.Processed

/-! ## Repairs -/

/-- The names of the attributes that the repair may add to any class. -/
def Repair.addableNames : Repair → List String
  | .record parts =>
    (if parts.components then [AttributeFormat.recordComponents.name] else []) ++
      (if parts.signature then [signatureName] else [])
  | .identifiers _ => []
  | .source _ => [sourceFileName]

theorem Repair.addedNames_subset (r : Repair) (c : ClassFile) :
    r.addedNames c ⊆ r.addableNames := by
  intro name hname
  cases r with
  | record parts =>
    rw [addedNames] at hname
    split at hname
    · split at hname
      · exact hname
      · cases hname
    · cases hname
  | identifiers scope => exact hname
  | source naming => exact hname

theorem ClassEntry.Processed.repaired {names : List String} {e e' : ClassEntry} {c : ClassFile}
    (h : e.Processed names c e') (hparse : ClassFile.parse e.data = .ok c)
    (hfields : (Member.encodeAll c.fields).length < 4294967296) {r : Repair}
    (hnames : r.addableNames ⊆ names) {path : ClassPath} {found : Option ClassEntry}
    (hfound : r.repaired? path e' = .ok found) : e.Processed names c (found.getD e') := by
  obtain ⟨c₁, changed, c₂, hparse', happly, hcases⟩ := Repair.repaired?_ok hfound
  obtain ⟨hfits, hcheck, -⟩ := ClassFile.parse_ok_iff.1 hparse'
  obtain ⟨hvalid, hle⟩ := ClassFile.valid_of_parse hparse'
  have hadded : ∀ name ∈ r.addedNames c₁, name ∈ names := fun name hname =>
    hnames (r.addedNames_subset c₁ hname)
  rcases Repair.apply_cases hadded hvalid hle hfits happly with
    ⟨rfl, -, -⟩ | ⟨rfl, -, -, hrevised, -⟩
  · obtain ⟨-, rfl⟩ | ⟨⟨⟩, -⟩ := hcases
    exact h
  · obtain ⟨⟨⟩, -⟩ | ⟨-, name, hname, rfl⟩ := hcases
    have hgrows := h.grows hparse hparse'
    refine ⟨h.time_eq, h.version_eq, .inr ⟨c₂, hgrows.trans (.of_revised hrevised), ?_⟩⟩
    refine .of_fits rfl hname (hrevised.partsFit hfits fun _ => ?_)
      hrevised.grows.valid (hrevised.grows.le_maxSize hle) (hrevised.checkNames hcheck)
    rw [hgrows.fields_eq]
    exact hfields

/-- A class without a source file that has as many attributes as can be counted is given one more,
and then it cannot be read. -/
theorem Repair.source_uncounted {naming : SourceNaming} {path : ClassPath} {e e' : ClassEntry}
    {c : ClassFile} (hparse : ClassFile.parse e.data = .ok c)
    (hfull : c.attributes.length = 65535)
    (hnone : findAttribute? sourceFileName c.attributes = none)
    (h : (Repair.source naming).repaired? path e = .ok (some e')) :
    ClassFile.parse e'.data = .error (.badAttribute "trailing class data") := by
  obtain ⟨hfits, hcheck, -⟩ := ClassFile.parse_ok_iff.1 hparse
  obtain ⟨hvalid, hle⟩ := ClassFile.valid_of_parse hparse
  obtain ⟨_, _, c', hparse', happly, ⟨-, ⟨⟩⟩ | ⟨rfl, name, hname, ⟨⟩⟩⟩ := repaired?_ok h
  cases hparse.symm.trans hparse'
  obtain ⟨⟨⟩, -⟩ | ⟨-, -, -, a, i, hsets, ha, hinfo⟩ := repairSource_cases hvalid hle happly
  have hrevised := hsets.revised_of_text (List.mem_singleton.2 ha) hinfo
  have hfields : c.FieldsFit [sourceFileName] := fun hrecord => absurd hrecord (by decide)
  have hheld : ({ e with name, data := c'.encode } : ClassEntry).Holds c' :=
    .of_fits rfl hname (hrevised.partsFit hfits hfields) hrevised.grows.valid
      (hrevised.grows.le_maxSize hle) (hrevised.checkNames hcheck)
  refine hheld.uncounted ?_
  rw [hsets.attributes_eq, setAttribute_of_missing (ha ▸ hnone), List.length_append, hfull,
    List.length_singleton]

/-! ## The stages -/

namespace Chain

variable {chain : Chain} {e e' : ClassEntry} {log log' : Multiset SharedAccess}

/-- From every good state a renaming comes to what the plain computation comes to. -/
def answered (r : Remapper) : Alike Renaming Plain where
  rel x y := ∀ s before, s.Good r → (x s).2.Good r ∧ (x s).1 = (y before).1
  pure _ _ _ hs := ⟨hs, rfl⟩
  throw _ _ _ hs := ⟨hs, rfl⟩
  bind {α β x y f g} hx hf s before hs := by
    obtain ⟨hs', hsame⟩ := hx s before hs
    rw [bind_stateful, bind_stateful]
    rcases hrun : x s with ⟨e | a, s'⟩ <;> rcases hplain : y before with ⟨e' | a', after⟩ <;>
      rw [hrun] at hs' hsame <;> rw [hplain] at hsame <;> cases hsame
    · exact ⟨hs', rfl⟩
    · exact hf a s' after hs'

theorem answered_memberName (r : Remapper) (k : MemberKey) :
    (answered r).rel (Renaming.memberName r k) (Plain.memberName r k) := by
  intro s before hs
  obtain ⟨hgood, hanswer⟩ := Renaming.memberName_good k hs
  refine ⟨hgood, hanswer.trans ?_⟩
  unfold Plain.memberName
  rcases r.memberName k with cause | name
  · rfl
  · rfl

/-- A class that the chain renames becomes what a renaming makes of it. -/
theorem plainRename_becomes {table : RenameTable} (htable : chain.table = some table)
    (h : chain.plainRename e log = (.ok e', log')) :
    ∃ owner c c', e.Becomes ⟨table, chain.classPath⟩ e' owner c c' := by
  unfold plainRename at h
  rw [htable] at h
  have hplain := Plain.tryCatch_ok h
  have hnote : ∀ line, (answered ⟨table, chain.classPath⟩).rel (Renaming.note line)
      (Plain.leave (.note line)) := fun _ _ _ hs => ⟨hs, rfl⟩
  have hcount : (answered ⟨table, chain.classPath⟩).rel Renaming.count
      (Plain.leave .countRenamed) := fun _ _ hs => ⟨hs, rfl⟩
  obtain ⟨-, hsame⟩ := Alike.renamed (answered_memberName _) table hnote hcount e .start log
    Renaming.Reachable.start.good
  rw [hplain] at hsame
  exact Renaming.Reachable.start.becomes (Prod.ext hsame rfl)

/-- After the renaming the entry holds the renamed class, unless it is as it was. -/
theorem processed_of_plainRename {names : List String} {c : ClassFile}
    (hparse : ClassFile.parse e.data = .ok c)
    (hname : ∀ owner, c.name = .ok owner → Text.beginsWith '[' owner = false)
    (h : chain.plainRename e log = (.ok e', log')) : e.Processed names c e' := by
  rcases htable : chain.table with _ | table
  · unfold plainRename at h
    rw [htable] at h
    obtain rfl : e = e' := Except.ok.inj (congrArg Prod.fst h)
    exact .refl names e c
  · obtain ⟨owner, c₁, c', hbecomes⟩ := plainRename_becomes htable h
    cases hparse.symm.trans hbecomes.parse_eq
    obtain ⟨hfits, hcheck, -⟩ := ClassFile.parse_ok_iff.1 hparse
    obtain ⟨-, hle⟩ := ClassFile.valid_of_parse hparse
    have hrenamed := hbecomes.class_renamed
    have hpool := hbecomes.pool_turned
    obtain rfl := hbecomes.entry_eq
    split
    case isTrue => exact .refl names e c
    case isFalse =>
      refine ⟨rfl, rfl, .inr ⟨c', .of_renamed hrenamed, ?_⟩⟩
      obtain ⟨owner', howner', hnew⟩ := hpool.className hbecomes.name_eq
      rw [RenameTable.newClassConstant_of_class (hname owner hbecomes.name_eq)] at howner'
      cases howner'
      refine ClassEntry.Holds.of_fits rfl ?_ (hrenamed.fits hpool.carries hfits).parts hpool.valid
        (hpool.le_maxSize hle) (hrenamed.checkNames hpool hcheck)
      rw [ClassFile.name, hrenamed.thisClass_eq]
      exact hnew

/-- The names of the attributes that the repairs of the chain may add. -/
def addableNames (chain : Chain) : List String :=
  chain.repairs.flatMap Repair.addableNames

/-- Repair after repair, the entry holds what has been written, unless it is as it was. -/
theorem processed_of_repairs {names : List String} {c : ClassFile} {repairs : List Repair}
    {e₁ : ClassEntry} (h : e.Processed names c e₁) (hparse : ClassFile.parse e.data = .ok c)
    (hfields : (Member.encodeAll c.fields).length < 4294967296)
    (hnames : ∀ r ∈ repairs, r.addableNames ⊆ names)
    (hrun : repairs.foldlM chain.plainRepair e₁ log = (.ok e', log')) :
    e.Processed names c e' := by
  induction repairs generalizing e₁ log with
  | nil =>
    obtain rfl : e₁ = e' := Except.ok.inj (congrArg Prod.fst hrun)
    exact h
  | cons r repairs ih =>
    rw [List.forall_mem_cons] at hnames
    obtain ⟨e₂, between, hfirst, hrest⟩ := bind_stateful_ok_iff.1 hrun
    obtain ⟨found, hfound, rfl⟩ := plainRepair_ok hfirst
    exact ih (h.repaired hparse hfields hnames.1 hfound) hnames.2 hrest

theorem processed_of_plainClass {c : ClassFile} (hparse : ClassFile.parse e.data = .ok c)
    (hname : ∀ owner, c.name = .ok owner → Text.beginsWith '[' owner = false)
    (hfields : (Member.encodeAll c.fields).length < 4294967296)
    (h : chain.plainClass e log = (.ok e', log')) : e.Processed chain.addableNames c e' := by
  obtain ⟨e₁, between, hrename, hrepairs⟩ := bind_stateful_ok_iff.1 h
  refine processed_of_repairs (processed_of_plainRename hparse hname hrename) hparse hfields
    (fun r hr name hadded => ?_) hrepairs
  exact List.mem_flatMap.2 ⟨r, hr, hadded⟩

/-- An entry whose class cannot be read passes only where nothing is done. -/
theorem plainClass_unread {fault : ClassError} (hparse : ClassFile.parse e.data = .error fault)
    (h : chain.plainClass e log = (.ok e', log')) : e' = e := by
  obtain ⟨e₁, between, hrename, hrepairs⟩ := bind_stateful_ok_iff.1 h
  have hfirst : e₁ = e := by
    rcases htable : chain.table with _ | table
    · unfold plainRename at hrename
      rw [htable] at hrename
      exact (Except.ok.inj (congrArg Prod.fst hrename)).symm
    · obtain ⟨owner, c, c', hbecomes⟩ := plainRename_becomes htable hrename
      cases hparse.symm.trans hbecomes.parse_eq
  subst hfirst
  rcases hlist : chain.repairs with _ | ⟨r, rest⟩
  · rw [hlist] at hrepairs
    exact (Except.ok.inj (congrArg Prod.fst hrepairs)).symm
  · rw [hlist] at hrepairs
    obtain ⟨e₂, _, hrepair, -⟩ := bind_stateful_ok_iff.1 hrepairs
    obtain ⟨found, hfound, -⟩ := plainRepair_ok hrepair
    obtain ⟨_, _, _, hread, -⟩ := Repair.repaired?_ok hfound
    cases hparse.symm.trans hread

/-- A class of the result comes from one of the archive. -/
theorem exists_of_class_mem_output {entries output : List Entry} {report : RunReport}
    (h : chain.process entries = .ok (output, report)) (he' : .ofClass e' ∈ output) :
    ∃ e log', .ofClass e ∈ entries ∧ chain.plainClass e 0 = (.ok e', log') := by
  rcases origin_of_mem_output h he' with ⟨entry, hentry, hplain⟩ | ⟨-, r, hresource⟩
  · rcases hrun : chain.plainEntry entry 0 with ⟨outcome, log'⟩
    rw [hrun] at hplain
    obtain rfl : outcome = .ok (some (.ofClass e')) := hplain
    cases entry with
    | manifest r => cases hrun
    | resource r =>
      have hresource : (chain.processResource r).map Entry.resource = some (.ofClass e') :=
        Except.ok.inj (congrArg Prod.fst hrun)
      obtain ⟨_, -, hne⟩ := Option.map_eq_some_iff.1 hresource
      cases hne
    | ofClass e =>
      obtain ⟨c', between, hclass, hdone⟩ := bind_stateful_ok_iff.1 hrun
      cases hdone
      exact ⟨e, _, hentry, hclass⟩
  · cases hresource

/-- Every class of the result comes from one of the archive, and if its bytes have changed, its time
and its release have not, and it holds a class by its name. What has been written is read back
exactly if the attributes of the class can be counted, for which it is enough that there is room for
those that the repairs may add. -/
theorem classes_written (chain : Chain) {entries output : List Entry} {report : RunReport}
    (h : chain.process entries = .ok (output, report)) {e' : ClassEntry}
    (he' : .ofClass e' ∈ output) :
    ∃ e, .ofClass e ∈ entries ∧ (e'.data ≠ e.data → ∃ c, ClassFile.parse e.data = .ok c ∧
      ((∀ owner, c.name = .ok owner → Text.beginsWith '[' owner = false) →
        e.data.length < 4294967296 →
        e'.time = e.time ∧ e'.version = e.version ∧
        (∃ c', c.Grows chain.addableNames c' ∧ e'.Holds c') ∧
        (c.attributes.length + missing chain.addableNames c.attributes < 65536 →
          ∃ parsed, ClassFile.parse e'.data = .ok parsed ∧ parsed.name = .ok e'.name))) := by
  obtain ⟨e, log', he, hrun⟩ := exists_of_class_mem_output h he'
  refine ⟨e, he, fun hchanged => ?_⟩
  rcases hparse : ClassFile.parse e.data with fault | c
  · rw [plainClass_unread hparse hrun] at hchanged
    exact absurd rfl hchanged
  refine ⟨c, rfl, fun hname hlength => ?_⟩
  have hprocessed :=
    processed_of_plainClass hparse hname (ClassFile.length_fields_lt hparse hlength) hrun
  rcases hprocessed.same_or_holds with rfl | ⟨c', hgrows, hholds⟩
  · exact absurd rfl hchanged
  refine ⟨hprocessed.time_eq, hprocessed.version_eq, ⟨c', hgrows, hholds⟩, fun hroom => ?_⟩
  have hle := hgrows.length_le
  obtain ⟨parsed, hparsed, -, hparsedName⟩ := hholds.counted (by omega)
  exact ⟨parsed, hparsed, hparsedName⟩

end Chain

end JarRemap
