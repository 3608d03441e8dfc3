import JarRemap.Proofs.Archive.Path
import JarRemap.Proofs.Run.Accounts
import JarRemap.Proofs.Run.WrittenClass

/-!
# Results with distinct paths

A path tells what its entry is (`Entry.IsPlaced`). So entries can only run into each other as
classes with the same name for the same release, unless their paths are the same from the start. No
stage changes the release of a class, and as long as the classes of an archive are stored under
their own names, a renaming gives them the names of its table and a repair leaves them where they
are (`ClassEntry.IsNamed`). This also holds of a class that a stage passes on because no byte of it
changes: it has been renamed to its old name.

A table that keeps the names of the classes apart thus keeps the paths of all entries apart, and the
result of every run can be stored (`Chain.output_stored`).
-/

namespace JarRemap

open ConstantPool

/-! ## Paths -/

/-- The name is not taken for something else in a path: it is not empty, and not in the directory of
the versioned classes. -/
structure IsPlainName (name : String) : Prop where
  ne_empty : name ≠ ""
  outside : ¬ versionsDirectory.toList <+: name.toList

instance (name : String) : Decidable (IsPlainName name) :=
  decidable_of_iff (name ≠ "" ∧ ¬ versionsDirectory.toList <+: name.toList)
    ⟨fun ⟨hne, houtside⟩ => ⟨hne, houtside⟩, fun h => ⟨h.ne_empty, h.outside⟩⟩

theorem IsPlainName.splitVersion?_eq_none {name : String} (h : IsPlainName name) :
    splitVersion? name = none := by
  by_contra hsome
  obtain ⟨⟨version, rest⟩, hsplit⟩ := Option.ne_none_iff_exists'.1 hsome
  obtain ⟨release, rfl, -⟩ := splitVersion?_eq_some_iff.1 hsplit
  refine h.outside ⟨(release ++ "/" ++ rest).toList, ?_⟩
  simp only [String.toList_append, List.append_assoc]

/-- The path of a class with a plain name tells the name and the release. -/
theorem ClassEntry.splitClassPath?_path {c : ClassEntry} (hname : IsPlainName c.name)
    (hversion : ∀ version, c.version = some version → version < UInt32.size) :
    splitClassPath? c.path = some (c.name, c.version) := by
  obtain ⟨name, data, time, version⟩ := c
  rcases version with _ | version
  · have hstem : Text.beforeEnd? classEnding (name ++ classEnding) = some name :=
      Text.beforeEnd?_eq_some_iff.2 rfl
    show splitClassPath? (name ++ classEnding) = _
    rw [splitClassPath?, hstem, Option.bind_eq_bind, Option.bind_some,
      hname.splitVersion?_eq_none]
    exact if_neg (by simpa using hname.ne_empty)
  · refine splitClassPath?_versioned_iff.2 ⟨toString version, rfl, hname.ne_empty, ?_⟩
    have hdigits : (toString version).toList = Nat.toDigits 10 version := Nat.toList_repr
    rw [hdigits]
    exact Text.unsigned?_toDigits (hversion version rfl)

/-- Classes are stored by their name and their release. -/
theorem ClassEntry.path_congr {c c' : ClassEntry} (hname : c.name = c'.name)
    (hversion : c.version = c'.version) : c.path = c'.path := by
  unfold path
  rw [hname, hversion]

namespace Entry

/-- The entry is the one that its path tells. -/
def IsPlaced (e : Entry) : Prop :=
  Entry.ofPath e.path e.data e.time = e

/-- The name and the release of the class that an entry holds, if it holds one. -/
def place? (e : Entry) : Option (String × Option ℕ) :=
  e.class?.map fun c => (c.name, c.version)

theorem isPlaced_ofPath (path : String) (data : Bytes) (time : Timestamp) :
    (Entry.ofPath path data time).IsPlaced := by
  unfold IsPlaced
  rw [data_ofPath, time_ofPath, ofPath_path]

theorem isPlaced_ofClass {c : ClassEntry} (hname : IsPlainName c.name)
    (hversion : ∀ version, c.version = some version → version < UInt32.size) :
    (Entry.ofClass c).IsPlaced := by
  have hne : c.path ≠ manifestPath := by
    unfold ClassEntry.path
    split
    · exact append_classEnding_ne_manifestPath _
    · exact append_classEnding_ne_manifestPath _
  show Entry.ofPath c.path c.data c.time = .ofClass c
  rw [Entry.ofPath, if_neg hne, ClassEntry.ofPath?,
    ClassEntry.splitClassPath?_path hname hversion]
  rfl

namespace IsPlaced

variable {e e' : Entry}

/-- The path of an entry tells whether it is a class, and which one. -/
theorem splitClassPath?_eq (h : e.IsPlaced) : splitClassPath? e.path = e.place? := by
  rcases ofPath_cases e.path e.data e.time with ⟨hpath, hofPath⟩ | ⟨name, version, -, hsplit,
    hofPath⟩ | ⟨-, hsplit, hofPath⟩
  · have hnone : splitClassPath? manifestPath = none := by decide
    rw [hpath, hnone, ← h, hofPath]
    rfl
  · rw [hsplit, ← h, hofPath]
    rfl
  · rw [hsplit, ← h, hofPath]
    rfl

/-- Entries with the same path are the same class, or none is a class. -/
theorem place?_eq (h : e.IsPlaced) (h' : e'.IsPlaced) (hpath : e.path = e'.path) :
    e.place? = e'.place? := by
  rw [← h.splitClassPath?_eq, hpath, h'.splitClassPath?_eq]

/-- The release of a class can be counted. -/
theorem version_lt {c : ClassEntry} (h : (Entry.ofClass c).IsPlaced) {version : ℕ}
    (hversion : c.version = some version) : version < UInt32.size := by
  have hsplit : splitClassPath? c.path = some (c.name, c.version) := h.splitClassPath?_eq
  rw [hversion] at hsplit
  obtain ⟨_, -, -, hspelled⟩ := splitClassPath?_versioned_iff.1 hsplit
  exact Text.lt_of_unsigned? hspelled

/-- A class has a name. -/
theorem name_ne_empty {c : ClassEntry} (h : (Entry.ofClass c).IsPlaced) : c.name ≠ "" := by
  have hsplit : splitClassPath? c.path = some (c.name, c.version) := h.splitClassPath?_eq
  rcases hversion : c.version with _ | version
  · rw [hversion] at hsplit
    simp only [splitClassPath?, Option.bind_eq_bind, Option.bind_eq_some_iff] at hsplit
    obtain ⟨stem, -, hsplit⟩ := hsplit
    split at hsplit
    case h_1 => cases hsplit
    case h_2 =>
      split at hsplit
      case isTrue => cases hsplit
      case isFalse hne =>
        obtain rfl : stem = c.name := congrArg Prod.fst (Option.some.inj hsplit)
        simpa using hne
  · rw [hversion] at hsplit
    obtain ⟨_, -, hne, -⟩ := splitClassPath?_versioned_iff.1 hsplit
    exact hne

/-- What is at the path of the generated resource is a resource. -/
theorem eq_resource (h : e.IsPlaced) (hpath : e.path = parameterNamesPath) :
    ∃ r : ResourceEntry, e = .resource r ∧ r.path = parameterNamesPath := by
  rcases ofPath_cases e.path e.data e.time with ⟨hmanifest, -⟩ | ⟨name, version, -, hsplit, -⟩ |
    ⟨-, -, hofPath⟩
  · exact absurd (hpath.symm.trans hmanifest) (by decide)
  · have hnone : splitClassPath? parameterNamesPath = none := by decide
    rw [hpath, hnone] at hsplit
    cases hsplit
  · exact ⟨_, h.symm.trans hofPath, hpath⟩

end IsPlaced

end Entry

/-! ## Names that are read back -/

theorem Bytes.ofUInt16_injective : Function.Injective Bytes.ofUInt16 := by
  intro a b h
  obtain ⟨hhigh, hlow⟩ := List.cons.inj h
  rw [← toUInt16_ofUInt16 a, hhigh, (List.cons.inj hlow).1, toUInt16_ofUInt16]

/-- What is read from the bytes of a class has the name of the class, whatever becomes of the parts
behind that. -/
theorem ClassFile.name_of_parse_encode {c parsed : ClassFile} (hvalid : c.pool.Valid)
    (hsize : c.pool.size ≤ maxSize) (h : parse c.encode = .ok parsed) :
    parsed.name = c.name := by
  obtain ⟨entries, hholds, hstorable⟩ := hvalid
  obtain ⟨⟨d, hread, -⟩, -⟩ := parse_ok_iff_read.1 h
  obtain ⟨-, m, n, hhead, hpool, htail⟩ := read_ok_iff.1 hread
  -- What is in front of the pool takes up as many bytes in every class.
  have hlength : c.encodeHead.length = parsed.encodeHead.length := by
    simp only [encodeHead, List.length_append, Bytes.length_ofUInt16, Bytes.length_ofUInt32]
  have hrest := hhead.rest_eq
  rw [encode_eq] at hrest
  have hpast : m.Past c.pool.encode ⟨m.position + c.pool.encode.length, c.encodeTail⟩ :=
    ⟨(List.append_inj_right hrest hlength).symm, rfl⟩
  have hback := hholds.read_encode hstorable hsize hpast
  obtain ⟨hentries, rfl⟩ := Prod.mk.inj (hback.symm.trans hpool)
  have hslots : parsed.pool.slots = c.pool.slots := by
    rw [← Except.ok.inj hentries]
    exact Array.toList_inj.1 ((holds_ofEntries entries).trans hholds.symm)
  have hthis : parsed.thisClass = c.thisClass := by
    have hbytes : c.encodeTail = parsed.encodeTail ++ d.rest := htail.rest_eq
    unfold encodeTail at hbytes
    rw [List.append_assoc, List.append_assoc] at hbytes
    have hbehind := List.append_inj_right hbytes rfl
    exact (Bytes.ofUInt16_injective (List.append_inj_left hbehind rfl)).symm
  unfold name
  rw [className_congr hslots, hthis]

/-! ## Names of classes -/

/-- The names under which the classes of an archive are stored. -/
def classNames (entries : List Entry) : List String :=
  (entries.filterMap Entry.class?).map ClassEntry.name

theorem mem_classNames {entries : List Entry} {c : ClassEntry} (h : .ofClass c ∈ entries) :
    c.name ∈ classNames entries :=
  List.mem_map_of_mem (List.mem_filterMap.2 ⟨_, h, rfl⟩)

theorem exists_of_mem_classNames {entries : List Entry} {name : String}
    (h : name ∈ classNames entries) : ∃ c, .ofClass c ∈ entries ∧ c.name = name := by
  obtain ⟨c, hc, rfl⟩ := List.mem_map.1 h
  obtain ⟨e, he, hclass⟩ := List.mem_filterMap.1 hc
  cases e with
  | ofClass c' =>
    obtain rfl : c' = c := Option.some.inj hclass
    exact ⟨c', he, rfl⟩
  | manifest r => cases hclass
  | resource r => cases hclass

/-- No class that is read from the entry has another name. -/
def ClassEntry.IsNamed (e : ClassEntry) : Prop :=
  ∀ c, ClassFile.parse e.data = .ok c → c.name = .ok e.name

/-- The entry `e'` is for the same release as `e`, and it holds a class by this name. -/
structure ClassEntry.Moved (e : ClassEntry) (name : String) (e' : ClassEntry) : Prop where
  name_eq : e'.name = name
  version_eq : e'.version = e.version
  isNamed : e'.IsNamed

namespace ClassEntry

variable {e e' : ClassEntry}

theorem IsNamed.of_name (h : (ClassFile.parse e.data >>= ClassFile.name) = .ok e.name) :
    e.IsNamed := by
  intro c hc
  rwa [hc] at h

theorem IsNamed.moved (h : e.IsNamed) : e.Moved e.name e :=
  ⟨rfl, rfl, h⟩

/-- A renamed class is stored under its new name, also if none of its bytes has changed: then the
new name is the old one. -/
theorem Becomes.moved {r : Remapper} {owner : String} {c c' : ClassFile}
    (h : e.Becomes r e' owner c c') (hnamed : e.IsNamed)
    (hbracket : Text.beginsWith '[' e.name = false) :
    e.Moved (r.table.newClassName e.name) e' := by
  obtain rfl : owner = e.name := Except.ok.inj (h.name_eq.symm.trans (hnamed c h.parse_eq))
  obtain ⟨-, hle⟩ := ClassFile.valid_of_parse h.parse_eq
  have hnew : c'.name = .ok (r.table.newClassName e.name) := by
    obtain ⟨new, hnew, hname⟩ := h.pool_turned.className h.name_eq
    rw [RenameTable.newClassConstant_of_class hbracket] at hnew
    obtain rfl := Except.ok.inj hnew
    rw [ClassFile.name, h.class_renamed.thisClass_eq]
    exact hname
  have hread : ∀ parsed, ClassFile.parse e'.data = .ok parsed →
      parsed.name = .ok (r.table.newClassName e.name) := by
    intro parsed hparsed
    rw [h.data_eq] at hparsed
    exact (ClassFile.name_of_parse_encode h.pool_turned.valid
      (h.pool_turned.le_maxSize hle) hparsed).trans hnew
  have hentry := h.entry_eq
  by_cases hsame : c'.encode = e.data
  · obtain rfl : e' = e := by rwa [if_pos hsame] at hentry
    have hname : r.table.newClassName e'.name = e'.name :=
      Except.ok.inj ((hread c h.parse_eq).symm.trans h.name_eq)
    rw [hname]
    exact hnamed.moved
  · rw [if_neg hsame] at hentry
    subst hentry
    exact ⟨rfl, rfl, hread⟩

/-- A repaired class stays under its name. -/
theorem IsNamed.repaired (hnamed : e.IsNamed) {r : Repair} {path : ClassPath}
    {found : Option ClassEntry} (h : r.repaired? path e = .ok found) :
    e.Moved e.name (found.getD e) := by
  obtain ⟨c, changed, c', hparse, happly, ⟨-, rfl⟩ | ⟨rfl, name, hname, rfl⟩⟩ :=
    Repair.repaired?_ok h
  · exact hnamed.moved
  obtain ⟨hfits, -⟩ := ClassFile.parse_ok_iff.1 hparse
  obtain ⟨hvalid, hle⟩ := ClassFile.valid_of_parse hparse
  rcases Repair.apply_cases (fun _ => id) hvalid hle hfits happly with
    ⟨⟨⟩, -⟩ | ⟨-, -, -, hrevised, -⟩
  have hkept : c'.name = .ok e.name := by
    unfold ClassFile.name
    rw [hrevised.thisClass_eq]
    exact hrevised.keeps.className (hnamed c hparse)
  obtain rfl : name = e.name := Except.ok.inj (hname.symm.trans hkept)
  refine ⟨rfl, rfl, fun parsed hparsed => ?_⟩
  exact (ClassFile.name_of_parse_encode hrevised.grows.valid
    (hrevised.grows.le_maxSize hle) hparsed).trans hname

end ClassEntry

namespace Chain

variable {chain : Chain} {e e' : ClassEntry} {log log' : Multiset SharedAccess}

/-- The name that a run gives to the class with this name. -/
def newName (chain : Chain) (name : String) : String :=
  match chain.table with
  | none => name
  | some table => table.newClassName name

theorem moved_of_plainRename (hnamed : e.IsNamed) (hbracket : Text.beginsWith '[' e.name = false)
    (h : chain.plainRename e log = (.ok e', log')) : e.Moved (chain.newName e.name) e' := by
  unfold newName
  rcases htable : chain.table with _ | table
  · unfold plainRename at h
    rw [htable] at h
    obtain rfl : e = e' := Except.ok.inj (congrArg Prod.fst h)
    exact hnamed.moved
  · obtain ⟨owner, c, c', hbecomes⟩ := plainRename_becomes htable h
    exact hbecomes.moved hnamed hbracket

theorem moved_of_repairs {repairs : List Repair} (hnamed : e.IsNamed)
    (h : repairs.foldlM chain.plainRepair e log = (.ok e', log')) : e.Moved e.name e' := by
  induction repairs generalizing e log with
  | nil =>
    obtain rfl : e = e' := Except.ok.inj (congrArg Prod.fst h)
    exact hnamed.moved
  | cons r repairs ih =>
    obtain ⟨e₁, between, hfirst, hrest⟩ := bind_stateful_ok_iff.1 h
    obtain ⟨found, hfound, rfl⟩ := plainRepair_ok hfirst
    have hmoved := hnamed.repaired hfound
    obtain ⟨hname, hversion, hagain⟩ := ih hmoved.isNamed hrest
    exact ⟨hname.trans hmoved.name_eq, hversion.trans hmoved.version_eq, hagain⟩

/-- Behind all stages a class is stored under its new name. -/
theorem moved_of_plainClass (hnamed : e.IsNamed) (hbracket : Text.beginsWith '[' e.name = false)
    (h : chain.plainClass e log = (.ok e', log')) : e.Moved (chain.newName e.name) e' := by
  obtain ⟨e₁, between, hrename, hrepairs⟩ := bind_stateful_ok_iff.1 h
  have hmoved := moved_of_plainRename hnamed hbracket hrename
  obtain ⟨hname, hversion, hagain⟩ := moved_of_repairs hmoved.isNamed hrepairs
  exact ⟨hname.trans hmoved.name_eq, hversion.trans hmoved.version_eq, hagain⟩

/-! ## The result of a run -/

variable {entries output : List Entry} {report : RunReport} {lines : List String}

/-- The result of a run is made of the images of classes, of what it keeps, and of a resource that
it only generates with a table. -/
theorem output_of_mayReturn (h : chain.MayReturn entries (.ok (output, report))) :
    (∃ lines, output = (entries.filter fun e => !chain.drops e).map (Entry.mapClass chain.image) ++
      generated lines ∧ (lines ≠ [] → chain.table.isSome)) ∧
    ∀ c, .ofClass c ∈ entries → ∃ log, chain.plainClass c 0 = (.ok (chain.image c), log) := by
  obtain ⟨processed, s, hconclude, houtcomes, htally⟩ := mayReturn_ok h
  refine ⟨⟨_, ?_, fun hlines => ((parameterLines houtcomes htally).ne_nil_iff.1 hlines).1⟩,
    fun c hc => ?_⟩
  · rw [← filterMap_processed houtcomes, ← extras_eq]
    exact congrArg Prod.fst hconclude
  · obtain ⟨made, hentry⟩ := plainEntry_of_outcomes houtcomes _ hc
    obtain ⟨c', between, hclass, -⟩ := bind_stateful_ok_iff.1 hentry
    exact ⟨between, (plainClass_ok hclass).2 ▸ hclass⟩

/-- The entries of an archive are what their paths tell, its classes are stored under their own
names, and the names that a run gives to them are plain and keep them apart. -/
structure KeepsApart (chain : Chain) (entries : List Entry) : Prop where
  isPlaced : ∀ e ∈ entries, e.IsPlaced
  isNamed : ∀ c, .ofClass c ∈ entries → c.IsNamed
  no_bracket : ∀ c, .ofClass c ∈ entries → Text.beginsWith '[' c.name = false
  injOn : Set.InjOn chain.newName {name | name ∈ classNames entries}
  isPlainName : ∀ name ∈ classNames entries, IsPlainName (chain.newName name)

namespace KeepsApart

/-- The images of the entries are where they are looked for. -/
theorem isPlaced_image (h : chain.KeepsApart entries)
    (hmoved : ∀ c, .ofClass c ∈ entries → c.Moved (chain.newName c.name) (chain.image c))
    {e : Entry} (he : e ∈ entries) : (e.mapClass chain.image).IsPlaced := by
  have hplaced := h.isPlaced e he
  cases e with
  | manifest r => exact hplaced
  | resource r => exact hplaced
  | ofClass c =>
    have himage := hmoved c he
    refine Entry.isPlaced_ofClass ?_ fun version hversion => ?_
    · rw [himage.name_eq]
      exact h.isPlainName _ (mem_classNames he)
    · exact hplaced.version_lt (himage.version_eq.symm.trans hversion)

/-- Images with the same path come from entries with the same path. -/
theorem path_eq (h : chain.KeepsApart entries)
    (hmoved : ∀ c, .ofClass c ∈ entries → c.Moved (chain.newName c.name) (chain.image c))
    {e e' : Entry} (he : e ∈ entries) (he' : e' ∈ entries)
    (hpath : (e.mapClass chain.image).path = (e'.mapClass chain.image).path) :
    e.path = e'.path := by
  have hplace := (h.isPlaced_image hmoved he).place?_eq (h.isPlaced_image hmoved he') hpath
  cases e with
  | ofClass c =>
    cases e' with
    | ofClass c' =>
      obtain ⟨hname, hversion⟩ := Prod.mk.inj (Option.some.inj hplace)
      rw [(hmoved c he).name_eq, (hmoved c' he').name_eq] at hname
      rw [(hmoved c he).version_eq, (hmoved c' he').version_eq] at hversion
      exact ClassEntry.path_congr (h.injOn (mem_classNames he) (mem_classNames he') hname) hversion
    | manifest r => cases hplace
    | resource r => cases hplace
  | manifest r =>
    cases e' with
    | ofClass c' => cases hplace
    | manifest r' => exact hpath
    | resource r' => exact hpath
  | resource r =>
    cases e' with
    | ofClass c' => cases hplace
    | manifest r' => exact hpath
    | resource r' => exact hpath

/-- With a table, nothing that is kept is at the path of the generated resource. -/
theorem path_ne_parameterNamesPath (h : chain.KeepsApart entries)
    (hmoved : ∀ c, .ofClass c ∈ entries → c.Moved (chain.newName c.name) (chain.image c))
    (htable : chain.table.isSome) {e : Entry} (he : e ∈ entries) (hkept : chain.drops e = false) :
    (e.mapClass chain.image).path ≠ parameterNamesPath := by
  intro hpath
  obtain ⟨r, hr, hrpath⟩ := (h.isPlaced_image hmoved he).eq_resource hpath
  cases e with
  | ofClass c => cases hr
  | manifest r' => cases hr
  | resource r' =>
    obtain rfl : r' = r := Entry.resource.inj hr
    have hdrops : chain.drops (.resource r') = true := by
      show (chain.table.isSome && r'.path == parameterNamesPath) = true
      rw [htable, hrpath]
      rfl
    rw [hdrops] at hkept
    cases hkept

theorem nodup_output (h : chain.KeepsApart entries) (hpaths : (entries.map Entry.path).Nodup)
    (hreturn : chain.MayReturn entries (.ok (output, report))) :
    (output.map Entry.path).Nodup := by
  obtain ⟨⟨lines, rfl, htable⟩, hclass⟩ := output_of_mayReturn hreturn
  have hmoved : ∀ c, .ofClass c ∈ entries → c.Moved (chain.newName c.name) (chain.image c) := by
    intro c hc
    obtain ⟨log, hrun⟩ := hclass c hc
    exact moved_of_plainClass (h.isNamed c hc) (h.no_bracket c hc) hrun
  rw [List.map_append, List.nodup_append]
  refine ⟨?_, ?_, ?_⟩
  · have hkept : ((entries.filter fun e => !chain.drops e).map Entry.path).Nodup :=
      hpaths.sublist (List.filter_sublist.map _)
    rw [List.map_map]
    refine List.pairwise_map.2 ((List.pairwise_map.1 hkept).imp_of_mem ?_)
    intro e e' he he' hne hpath
    exact hne (h.path_eq hmoved (List.mem_of_mem_filter he) (List.mem_of_mem_filter he') hpath)
  · unfold generated
    split
    · exact List.nodup_nil
    · exact List.nodup_singleton _
  · intro p hp p' hp' hsame
    obtain ⟨image, himage, rfl⟩ := List.mem_map.1 hp
    obtain ⟨e, he, rfl⟩ := List.mem_map.1 himage
    obtain ⟨he, hdrops⟩ := List.mem_filter.1 he
    obtain ⟨extra, hextra, rfl⟩ := List.mem_map.1 hp'
    unfold generated at hextra
    split at hextra
    case isTrue => cases hextra
    case isFalse hlines =>
      obtain rfl := List.mem_singleton.1 hextra
      exact h.path_ne_parameterNamesPath hmoved (htable hlines) he (by simpa using hdrops) hsame

end KeepsApart

/-- A run never makes entries run into each other by itself. Let the entries of an archive be what
their paths tell, with paths that differ, and its classes be stored under their own names, outside
of the directory of versioned classes. If there is a table, let it give different plain names to
them. Then the paths of the result differ, whatever the repairs and the order of the work, and so it
can be stored. -/
theorem output_stored (chain : Chain) (entries output : List Entry) (report : RunReport)
    (hentries : ∀ e ∈ entries, ∃ path data time, e = Entry.ofPath path data time)
    (hpaths : (entries.map Entry.path).Nodup)
    (hclasses : ∀ c, .ofClass c ∈ entries → c.IsNamed ∧ Text.beginsWith '[' c.name = false ∧
      ¬ versionsDirectory.toList <+: c.name.toList)
    (htable : ∀ table, chain.table = some table →
      Set.InjOn table.newClassName {name | name ∈ classNames entries} ∧
      ∀ name ∈ classNames entries, IsPlainName (table.newClassName name))
    (h : chain.MayReturn entries (.ok (output, report))) :
    (output.map Entry.path).Nodup ∧ Jar.ofEntries output = .ok (output.map JarFile.ofEntry) := by
  have hplaced : ∀ e ∈ entries, e.IsPlaced := by
    intro e he
    obtain ⟨path, data, time, rfl⟩ := hentries e he
    exact Entry.isPlaced_ofPath path data time
  have hnew : Set.InjOn chain.newName {name | name ∈ classNames entries} ∧
      ∀ name ∈ classNames entries, IsPlainName (chain.newName name) := by
    unfold newName
    rcases hchosen : chain.table with _ | table
    · refine ⟨fun _ _ _ _ hsame => hsame, fun name hname => ?_⟩
      obtain ⟨c, hc, rfl⟩ := exists_of_mem_classNames hname
      exact ⟨(hplaced _ hc).name_ne_empty, (hclasses c hc).2.2⟩
    · exact htable table hchosen
  have happart : chain.KeepsApart entries := {
    isPlaced := hplaced
    isNamed := fun c hc => (hclasses c hc).1
    no_bracket := fun c hc => (hclasses c hc).2.1
    injOn := hnew.1
    isPlainName := hnew.2 }
  have hnodup := happart.nodup_output hpaths h
  exact ⟨hnodup, Jar.ofEntries_ok_iff.2 ⟨hnodup, rfl⟩⟩

/-- The mixed archive with a class for a single release. -/
def releasedArchive : List Entry :=
  mixedArchive ++
    [.ofClass { name := "R", data := bareRecord, time := .stable, version := some 11 }]

/-- A run that renames and repairs the classes of that archive. -/
def releasedChain : Chain :=
  allRepairs.chainFor ⟨[Entry.classSource releasedArchive]⟩ mixedTable

theorem output_stored_releasedArchive :
    ∃ output report, releasedChain.MayReturn releasedArchive (.ok (output, report)) ∧
      output.map Entry.path = [manifestPath, "S.class", "J.class", "x.txt",
        "META-INF/versions/11/S.class", parameterNamesPath] ∧
      (output.map Entry.path).Nodup ∧
      Jar.ofEntries output = .ok (output.map JarFile.ofEntry) := by
  have hentries : ∀ e ∈ releasedArchive, e = Entry.ofPath e.path e.data e.time := by decide +kernel
  have hpaths : (releasedArchive.map Entry.path).Nodup := by decide +kernel
  have hclasses : ∀ c ∈ releasedArchive.filterMap Entry.class?,
      (ClassFile.parse c.data >>= ClassFile.name) = .ok c.name ∧
        Text.beginsWith '[' c.name = false ∧ ¬ versionsDirectory.toList <+: c.name.toList := by
    decide +kernel
  have hinj : ∀ a ∈ classNames releasedArchive, ∀ b ∈ classNames releasedArchive,
      mixedTable.newClassName a = mixedTable.newClassName b → a = b := by decide +kernel
  have hplain : ∀ name ∈ classNames releasedArchive,
      IsPlainName (mixedTable.newClassName name) := by decide +kernel
  have hout : (releasedChain.process releasedArchive).map
      (fun (output, _) => output.map Entry.path) = .ok [manifestPath, "S.class", "J.class", "x.txt",
        "META-INF/versions/11/S.class", parameterNamesPath] := by
    decide +kernel
  have hreturn := releasedChain.process_mayReturn releasedArchive
  rcases hprocess : releasedChain.process releasedArchive with cause | ⟨output, report⟩
  · rw [hprocess] at hout
    cases hout
  · rw [hprocess] at hout hreturn
    refine ⟨output, report, hreturn, Except.ok.inj hout, ?_⟩
    refine output_stored releasedChain releasedArchive output report
      (fun e he => ⟨e.path, e.data, e.time, hentries e he⟩) hpaths (fun c hc => ?_)
      (fun table htable => ?_) hreturn
    · obtain ⟨hname, hplaced⟩ := hclasses c (List.mem_filterMap.2 ⟨_, hc, rfl⟩)
      exact ⟨.of_name hname, hplaced⟩
    · obtain rfl : mixedTable = table := Option.some.inj htable
      exact ⟨fun a ha b hb => hinj a ha b hb, hplain⟩

end Chain

end JarRemap
