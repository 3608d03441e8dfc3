import JarRemap.Archive.Jar
import JarRemap.Proofs.Text.Number
import JarRemap.Proofs.Text.Split

/-!
# Paths of entries

The path of an entry is taken apart to tell what it is, and put together again to write it. What is
put together is taken apart in the same way, so an entry that is written and read is the same one
(`Entry.ofPath_path`). It is the path that was read unless the release of a versioned class is not
spelled in the way in which numbers are written: with a plus sign, or with needless zeros
(`Entry.path_ofPath_iff`).

So a jar whose entries are left alone is written as it was read exactly if its paths differ and none
of them has such a release (`Jar.ofEntries_toEntry_iff`). With one, an entry moves, and may run into
another.
-/

namespace JarRemap

variable {path name release : String} {version : ℕ}

/-- The path of a class in the directory of a release, however this is spelled. -/
def versionedPath (release name : String) : String :=
  versionsDirectory ++ release ++ "/" ++ name ++ classEnding

/-- The path is that of a versioned class, and the number of its release is oddly spelled. -/
def HasOddRelease (path : String) : Prop :=
  ∃ release name version, path = versionedPath release name ∧ name ≠ "" ∧
    Text.unsigned? UInt32.size release.toList = some version ∧ Text.IsOddlySpelled release

/-! ## Taking paths apart -/

theorem slash_notMem_of_unsigned? {bound : ℕ} {s : List Char}
    (h : Text.unsigned? bound s = some version) : '/' ∉ s := by
  obtain ⟨body, hs, -, hdigits, -⟩ := Text.unsigned?_eq_some_iff.1 h
  intro hmem
  have hbody : '/' ∈ body := by
    rcases hs with rfl | rfl
    · exact hmem
    · exact (List.mem_cons.1 hmem).resolve_left (by decide)
  exact absurd (hdigits '/' hbody) (by decide)

theorem splitVersion?_eq_some_iff {stem : String} :
    splitVersion? stem = some (version, name) ↔
      ∃ release, stem = versionsDirectory ++ release ++ "/" ++ name ∧ name ≠ "" ∧
        Text.unsigned? UInt32.size release.toList = some version := by
  simp only [splitVersion?, Option.bind_eq_bind, Option.bind_eq_some_iff, Prod.exists,
    Text.afterStart?_eq_some_iff, Text.splitFirst?_eq_some_iff]
  constructor
  · rintro ⟨rest, rfl, release, name', ⟨hrest, -⟩, version', hversion, hname⟩
    split at hname
    case isTrue => cases hname
    case isFalse hne =>
      cases hname
      refine ⟨release, ?_, by simpa using hne, hversion⟩
      rw [← String.toList_inj, String.toList_append, hrest]
      simp
  · rintro ⟨release, rfl, hne, hversion⟩
    refine ⟨release ++ "/" ++ name, by simp [String.append_assoc], release, name, ⟨by simp, ?_⟩,
      version, hversion, ?_⟩
    · exact slash_notMem_of_unsigned? hversion
    · rw [if_neg (by simpa using hne)]

/-- What the path of a versioned class is. -/
theorem splitClassPath?_versioned_iff :
    splitClassPath? path = some (name, some version) ↔
      ∃ release, path = versionedPath release name ∧ name ≠ "" ∧
        Text.unsigned? UInt32.size release.toList = some version := by
  simp only [splitClassPath?, Option.bind_eq_bind, Option.bind_eq_some_iff,
    Text.beforeEnd?_eq_some_iff]
  constructor
  · rintro ⟨stem, rfl, h⟩
    split at h
    case h_1 version' name' hsplit =>
      cases h
      obtain ⟨release, rfl, hne, hversion⟩ := splitVersion?_eq_some_iff.1 hsplit
      exact ⟨release, rfl, hne, hversion⟩
    case h_2 => split at h <;> cases h
  · rintro ⟨release, rfl, hne, hversion⟩
    refine ⟨_, rfl, ?_⟩
    rw [splitVersion?_eq_some_iff.2 ⟨release, rfl, hne, hversion⟩]

/-- What the path of a class for all releases is. -/
theorem splitClassPath?_plain {name : String} (h : splitClassPath? path = some (name, none)) :
    path = name ++ classEnding := by
  simp only [splitClassPath?, Option.bind_eq_bind, Option.bind_eq_some_iff,
    Text.beforeEnd?_eq_some_iff] at h
  obtain ⟨stem, rfl, h⟩ := h
  split at h
  case h_1 => cases h
  case h_2 =>
    split at h
    case isTrue => cases h
    case isFalse =>
      cases h
      rfl

theorem append_classEnding_ne_manifestPath (stem : String) :
    stem ++ classEnding ≠ manifestPath := by
  intro h
  have hlast := congrArg (fun s => s.toList.getLast?) h
  simp [classEnding, manifestPath] at hlast

theorem versionedPath_ne_manifestPath (release name : String) :
    versionedPath release name ≠ manifestPath :=
  append_classEnding_ne_manifestPath _

theorem versionedPath_inj {release release' : String}
    (h : versionedPath release name = versionedPath release' name) : release = release' := by
  rw [← String.toList_inj] at h ⊢
  simpa [versionedPath, List.append_assoc] using h

/-! ## Entries -/

namespace Entry

variable {data : Bytes} {time : Timestamp}

/-- What the entry with a path can be. -/
theorem ofPath_cases (path : String) (data : Bytes) (time : Timestamp) :
    (path = manifestPath ∧ Entry.ofPath path data time = .manifest { path, data, time }) ∨
    (∃ name version, path ≠ manifestPath ∧ splitClassPath? path = some (name, version) ∧
      Entry.ofPath path data time = .ofClass { name, data, time, version }) ∨
    (path ≠ manifestPath ∧ splitClassPath? path = none ∧
      Entry.ofPath path data time = .resource { path, data, time }) := by
  by_cases hpath : path = manifestPath
  · exact .inl ⟨hpath, if_pos hpath⟩
  · rw [Entry.ofPath, if_neg hpath, ClassEntry.ofPath?]
    rcases hsplit : splitClassPath? path with _ | ⟨name, version⟩
    · exact .inr (.inr ⟨hpath, rfl, rfl⟩)
    · exact .inr (.inl ⟨name, version, hpath, rfl, rfl⟩)

/-- Classifying an entry keeps its content. -/
theorem data_ofPath (path : String) (data : Bytes) (time : Timestamp) :
    (Entry.ofPath path data time).data = data := by
  rcases ofPath_cases path data time with ⟨-, h⟩ | ⟨_, _, -, -, h⟩ | ⟨-, -, h⟩ <;> rw [h] <;> rfl

/-- Classifying an entry keeps its time. -/
theorem time_ofPath (path : String) (data : Bytes) (time : Timestamp) :
    (Entry.ofPath path data time).time = time := by
  rcases ofPath_cases path data time with ⟨-, h⟩ | ⟨_, _, -, -, h⟩ | ⟨-, -, h⟩ <;> rw [h] <;> rfl

/-- An entry gets the path that it was read under exactly if this has no odd release. -/
theorem path_ofPath_iff :
    (Entry.ofPath path data time).path = path ↔ ¬ HasOddRelease path := by
  have hodd : HasOddRelease path → ∃ release name version, path = versionedPath release name ∧
      splitClassPath? path = some (name, some version) ∧ release ≠ toString version := by
    rintro ⟨release, name, version, rfl, hne, hversion, hspelled⟩
    exact ⟨release, name, version, rfl,
      splitClassPath?_versioned_iff.2 ⟨release, rfl, hne, hversion⟩,
      (Text.isOddlySpelled_iff hversion).1 hspelled⟩
  rcases ofPath_cases path data time with ⟨hpath, h⟩ | ⟨name, version, -, hsplit, h⟩ |
    ⟨-, hsplit, h⟩
  · rw [h]
    refine iff_of_true rfl fun hrelease => ?_
    obtain ⟨release, name, -, rfl, -⟩ := hodd hrelease
    exact versionedPath_ne_manifestPath release name hpath
  · rw [h]
    rcases version with _ | version
    · refine iff_of_true (splitClassPath?_plain hsplit).symm fun hrelease => ?_
      obtain ⟨_, _, _, -, hsplit', -⟩ := hodd hrelease
      cases hsplit.symm.trans hsplit'
    · -- The release is written as a number, so the path stays if it was spelled so.
      show versionedPath (toString version) name = path ↔ _
      obtain ⟨release, rfl, hne, hversion⟩ := splitClassPath?_versioned_iff.1 hsplit
      constructor
      · intro hpath hrelease
        obtain ⟨release', name', version', hpath', hsplit', hspelled⟩ := hodd hrelease
        cases hsplit.symm.trans hsplit'
        exact hspelled (versionedPath_inj (hpath.trans hpath')).symm
      · intro hrelease
        by_contra hpath
        refine hrelease ⟨release, name, version, rfl, hne, hversion, ?_⟩
        exact (Text.isOddlySpelled_iff hversion).2 fun heq => hpath (heq ▸ rfl)
  · rw [h]
    refine iff_of_true rfl fun hrelease => ?_
    obtain ⟨_, _, _, -, hsplit', -⟩ := hodd hrelease
    cases hsplit.symm.trans hsplit'

/-- What is written is read as the same entry. -/
theorem ofPath_path (path : String) (data : Bytes) (time : Timestamp) :
    Entry.ofPath (Entry.ofPath path data time).path data time = Entry.ofPath path data time := by
  rcases ofPath_cases path data time with ⟨-, h⟩ | ⟨name, version, hne, hsplit, h⟩ | ⟨-, -, h⟩
  · rw [h]
    exact h
  · rcases version with _ | version
    · have hpath : (Entry.ofPath path data time).path = path := by
        rw [h]
        exact (splitClassPath?_plain hsplit).symm
      rw [hpath]
    · obtain ⟨release, rfl, hname, hversion⟩ := splitClassPath?_versioned_iff.1 hsplit
      have hpath : (Entry.ofPath (versionedPath release name) data time).path =
          versionedPath (toString version) name := by
        rw [h]
        rfl
      have hdigits : (toString version).toList = Nat.toDigits 10 version := Nat.toList_repr
      have hagain : splitClassPath? (versionedPath (toString version) name) =
          some (name, some version) := by
        refine splitClassPath?_versioned_iff.2 ⟨_, rfl, hname, ?_⟩
        rw [hdigits]
        exact Text.unsigned?_toDigits (Text.lt_of_unsigned? hversion)
      rw [hpath, h, Entry.ofPath, if_neg (versionedPath_ne_manifestPath _ _), ClassEntry.ofPath?,
        hagain]
      rfl
  · rw [h]
    exact h

end Entry

/-! ## Jars -/

namespace Jar

/-- No path is taken twice exactly if the paths differ, also from those that were seen before. -/
theorem duplicate?_eq_none_iff {entries : List Entry} {seen : List String} :
    duplicate? seen entries = none ↔
      (entries.map Entry.path).Nodup ∧ ∀ e ∈ entries, e.path ∉ seen := by
  induction entries generalizing seen with
  | nil => simp [duplicate?]
  | cons e rest ih =>
    rw [duplicate?, List.map_cons, List.nodup_cons, List.forall_mem_cons]
    by_cases hseen : e.path ∈ seen
    · rw [if_pos (List.contains_iff_mem.2 hseen)]
      exact iff_of_false (by simp) fun h => h.2.1 hseen
    · rw [if_neg (fun h => hseen (List.contains_iff_mem.1 h)), ih]
      simp only [List.mem_cons, not_or, List.mem_map, not_exists, not_and, hseen, not_false_eq_true,
        true_and, forall_and]
      grind

/-- Entries make a jar exactly if their paths differ. -/
theorem ofEntries_ok_iff {entries : List Entry} {jar : Jar} :
    ofEntries entries = .ok jar ↔
      (entries.map Entry.path).Nodup ∧ jar = entries.map JarFile.ofEntry := by
  rw [ofEntries]
  split
  case h_1 path hpath =>
    refine iff_of_false (by simp) fun h => ?_
    cases hpath.symm.trans (duplicate?_eq_none_iff.2 ⟨h.1, by simp⟩)
  case h_2 hpath =>
    rw [and_iff_right (duplicate?_eq_none_iff.1 hpath).1, Except.ok.injEq, eq_comm]

theorem ofEntry_toEntry_iff {f : JarFile} :
    JarFile.ofEntry f.toEntry = f ↔ ¬ HasOddRelease f.path := by
  have hpath : (Entry.ofPath f.path f.data f.time).path = f.path ↔ ¬ HasOddRelease f.path :=
    Entry.path_ofPath_iff
  rw [← hpath, JarFile.ofEntry, JarFile.toEntry, Entry.data_ofPath, Entry.time_ofPath]
  exact ⟨congrArg JarFile.path, fun h => by rw [h]⟩

/-- A jar is written as it was read exactly if its paths differ and none has an odd release. -/
theorem ofEntries_toEntry_iff {jar : Jar} :
    ofEntries (jar.map JarFile.toEntry) = .ok jar ↔
      (jar.map JarFile.path).Nodup ∧ ∀ f ∈ jar, ¬ HasOddRelease f.path := by
  have hsame : jar.map (JarFile.ofEntry ∘ JarFile.toEntry) = jar.map id ↔
      ∀ f ∈ jar, ¬ HasOddRelease f.path :=
    List.map_inj_left.trans (forall₂_congr fun _ _ => ofEntry_toEntry_iff)
  rw [List.map_id] at hsame
  rw [ofEntries_ok_iff, List.map_map, List.map_map, eq_comm (a := jar), hsame]
  refine and_congr_left fun hplain => ?_
  have hpaths : jar.map (Entry.path ∘ JarFile.toEntry) = jar.map JarFile.path :=
    List.map_congr_left fun f hf => Entry.path_ofPath_iff.2 (hplain f hf)
  rw [hpaths]

/-- With an odd release a path is that of another entry. -/
example :
    ofEntries ((["META-INF/versions/11/A.class", "META-INF/versions/011/A.class"].map fun path =>
      ({ path, data := [], time := .stable } : JarFile)).map JarFile.toEntry) =
      .error (.duplicate "META-INF/versions/11/A.class") := by
  decide +kernel

end Jar

end JarRemap
