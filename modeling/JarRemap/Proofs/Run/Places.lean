import JarRemap.Proofs.Archive.Path
import JarRemap.Proofs.Run.Accounts

/-!
# Where repaired classes stand

A run without a table keeps the entries of an archive side by side, and all but classes stay as they
are. A class that a repair changes is named as its class file says (`Repairs.output_beside`). So it
stays at its place if it was stored under that name (`Repairs.output_paths_eq`), and a class in some
other directory moves away from those beside it that do not change.

Where no repair reports a change, the entries are those of the archive
(`Repairs.output_eq_of_unchanged`), and the jar that is written is the one that was read as far as
paths allow (`Repairs.unchanged_written_iff`).
-/

namespace JarRemap

/-! ## One class -/

/-- What repairs make of a class: nothing else, or an entry for a class file that is named as the
class file says. -/
structure ClassEntry.Repaired (e e' : ClassEntry) : Prop where
  time_eq : e'.time = e.time
  version_eq : e'.version = e.version
  named : e' = e ∨ ∃ file : ClassFile, e'.data = file.encode ∧ file.name = .ok e'.name

namespace ClassEntry.Repaired

variable {path : ClassPath} {e e' e'' : ClassEntry}

protected theorem refl (e : ClassEntry) : e.Repaired e :=
  ⟨rfl, rfl, .inl rfl⟩

protected theorem trans (h : e.Repaired e') (h' : e'.Repaired e'') : e.Repaired e'' := by
  refine ⟨h'.time_eq.trans h.time_eq, h'.version_eq.trans h.version_eq, ?_⟩
  rcases h'.named with rfl | hnamed
  · exact h.named
  · exact .inr hnamed

theorem of_repaired? {r : Repair} {found : Option ClassEntry}
    (h : r.repaired? path e = .ok found) : e.Repaired (found.getD e) := by
  obtain ⟨c, changed, c', -, -, ⟨-, rfl⟩ | ⟨-, name, hname, rfl⟩⟩ := Repair.repaired?_ok h
  · exact .refl e
  · exact ⟨rfl, rfl, .inr ⟨c', rfl, hname⟩⟩

theorem of_through {repairs : List Repair}
    (h : Stage.through path (repairs.map .repair) e = .ok e') : e.Repaired e' := by
  induction repairs generalizing e with
  | nil =>
    obtain rfl := Except.ok.inj h
    exact .refl e
  | cons r repairs ih =>
    obtain ⟨e₁, hfirst, hrest⟩ := except_bind_ok_iff.1 h
    obtain ⟨found, hfound, hnext⟩ := except_bind_ok_iff.1 hfirst
    obtain rfl := Except.ok.inj hnext
    exact (of_repaired? hfound).trans (ih hrest)

end ClassEntry.Repaired

/-- The entry holds a class with this name, which leaves room for the repairs. -/
structure ClassEntry.HoldsNamed (repairs : List Repair) (name : String) (e : ClassEntry)
    (c : ClassFile) : Prop where
  parse_eq : ClassFile.parse e.data = .ok c
  room : c.LeavesRoom repairs
  name_eq : c.name = .ok name

namespace ClassEntry.HoldsNamed

variable {path : ClassPath} {repairs : List Repair} {name : String} {e e' : ClassEntry}
  {c : ClassFile}

/-- A repair changes neither the name of a class nor, if the entry has that name, the name of the
entry. -/
theorem step (h : e.HoldsNamed repairs name c) {r : Repair} (hr : r ∈ repairs)
    {found : Option ClassEntry} (hfound : r.repaired? path e = .ok found) (hentry : e.name = name) :
    (∃ c', (found.getD e).HoldsNamed repairs name c') ∧ (found.getD e).name = name := by
  obtain ⟨hfits, hnames, -⟩ := ClassFile.parse_ok_iff.1 h.parse_eq
  obtain ⟨hvalid, hle⟩ := ClassFile.valid_of_parse h.parse_eq
  have hadded : ∀ name ∈ r.addedNames c, name ∈ repairs.flatMap fun r => r.addedNames c :=
    fun name hname => List.mem_flatMap.2 ⟨r, hr, hname⟩
  obtain ⟨_, changed, c', hparse, happly, hcases⟩ := Repair.repaired?_ok hfound
  cases h.parse_eq.symm.trans hparse
  obtain ⟨rfl, rfl⟩ | ⟨rfl, name', hname', rfl⟩ := hcases
  · exact ⟨⟨c, h⟩, hentry⟩
  rcases Repair.apply_cases hadded hvalid hle hfits happly with
    ⟨⟨⟩, -⟩ | ⟨-, -, -, hrevised, -⟩
  have hname : c'.name = .ok name := by
    unfold ClassFile.name
    rw [hrevised.thisClass_eq]
    exact hrevised.keeps.className h.name_eq
  obtain ⟨parsed, hparsed, hsame⟩ := hrevised.parse_encode h.parse_eq h.room
  have hthis : parsed.thisClass = c'.thisClass := by rw [← hsame.rest_eq]
  refine ⟨⟨parsed, hparsed, (h.room.revised hnames hrevised).same hsame, ?_⟩, ?_⟩
  · rw [← hname]
    unfold ClassFile.name
    rw [ConstantPool.className_congr hsame.slots_eq, hthis]
  · exact Except.ok.inj (hname'.symm.trans hname)

theorem through {left : List Repair} (h : e.HoldsNamed repairs name c)
    (hleft : ∀ r ∈ left, r ∈ repairs) (hentry : e.name = name)
    (hrun : Stage.through path (left.map .repair) e = .ok e') :
    e'.name = name := by
  induction left generalizing e c with
  | nil =>
    obtain rfl := Except.ok.inj hrun
    exact hentry
  | cons r left ih =>
    rw [List.forall_mem_cons] at hleft
    obtain ⟨e₁, hfirst, hrest⟩ := except_bind_ok_iff.1 hrun
    obtain ⟨found, hfound, hnext⟩ := except_bind_ok_iff.1 hfirst
    obtain rfl := Except.ok.inj hnext
    obtain ⟨⟨c', hholds⟩, hname⟩ := h.step hleft.1 hfound hentry
    exact ih hholds hleft.2 hname hrest

end ClassEntry.HoldsNamed

/-- A class stays as it is if no stage reports a change for it. -/
theorem Stage.through_eq_self {path : ClassPath} {stages : List Stage} {e e' : ClassEntry}
    (h : through path stages e = .ok e')
    (hidle : ∀ (i : ℕ) (s : Stage), stages[i]? = some s →
      s.changes path (stages.take i) e = false) : e' = e := by
  induction stages generalizing e with
  | nil => exact (Except.ok.inj h).symm
  | cons s rest ih =>
    obtain ⟨e₁, hfirst, hrest⟩ := except_bind_ok_iff.1 h
    obtain ⟨found, hfound, hnext⟩ := except_bind_ok_iff.1 hfirst
    obtain rfl := Except.ok.inj hnext
    have hnone : found = none := by
      have hsome := hidle 0 s rfl
      rw [List.take_zero, changes_nil hfound] at hsome
      simpa using hsome
    subst hnone
    -- The class that the later stages meet is the same one.
    refine ih hrest fun i s' hi => ?_
    have hlater := hidle (i + 1) s' hi
    rwa [List.take_succ_cons, changes_cons hfound] at hlater

/-! ## Runs without a table -/

/-- What a run without a table makes of an entry. -/
inductive Entry.Beside : Entry → Entry → Prop where
  | ofClass (c c' : ClassEntry) (h : c.Repaired c') : Beside (.ofClass c) (.ofClass c')
  | manifest (r : ResourceEntry) : Beside (.manifest r) (.manifest r)
  | resource (r : ResourceEntry) : Beside (.resource r) (.resource r)

namespace Repairs

variable {r : Repairs} {path : ClassPath} {entries output : List Entry} {report : RunReport}

/-- Without a table nothing is left out and nothing is generated. -/
theorem output_eq_map (h : (r.chain path).MayReturn entries (.ok (output, report))) :
    ∃ image, output = entries.map (Entry.mapClass image) ∧ ∀ c, .ofClass c ∈ entries →
      Stage.through path (r.toList.map .repair) c = .ok (image c) := by
  obtain ⟨lines, haccounts⟩ := Chain.accounts_of_mayReturn (r.names_nodup path none) h
  have hlines : lines = [] := by
    refine by_contra fun hne => ?_
    obtain ⟨htable, -⟩ := haccounts.parameterLines.ne_nil_iff.1 hne
    cases htable
  have hkept : entries.filter (fun e => !(r.chainFor path none).drops e) = entries :=
    List.filter_eq_self.2 fun e _ => by cases e <;> rfl
  refine ⟨_, ?_, haccounts.image_eq⟩
  rw [haccounts.output_eq, hkept, hlines]
  exact List.append_nil _

/-- Without a table the entries of the result stand beside those of the archive, in their order. All
but classes are the same, and a class keeps its time and its release. It also keeps its bytes and
its name, unless a repair changes it: then it is named as its class file says. -/
theorem output_beside (h : (r.chain path).MayReturn entries (.ok (output, report))) :
    List.Forall₂ Entry.Beside entries output := by
  obtain ⟨image, rfl, himage⟩ := output_eq_map h
  refine List.forall₂_map_right_iff.2 (List.forall₂_same.2 fun e he => ?_)
  cases e with
  | ofClass c => exact .ofClass c _ (.of_through (himage c he))
  | manifest r => exact .manifest r
  | resource r => exact .resource r

/-- So no entry moves where classes are stored under their own names, and have room for what the
repairs add. -/
theorem output_paths_eq
    (hroom : ∀ e, .ofClass e ∈ entries → ∃ c, e.HoldsNamed r.toList e.name c)
    (h : (r.chain path).MayReturn entries (.ok (output, report))) :
    output.map Entry.path = entries.map Entry.path := by
  obtain ⟨image, rfl, himage⟩ := output_eq_map h
  rw [List.map_map]
  refine List.map_congr_left fun e he => ?_
  cases e with
  | manifest r => rfl
  | resource r => rfl
  | ofClass c =>
    obtain ⟨file, hholds⟩ := hroom c he
    have hname := hholds.through (fun _ hr => hr) rfl (himage c he)
    have hversion := (ClassEntry.Repaired.of_through (himage c he)).version_eq
    show (image c).path = c.path
    unfold ClassEntry.path
    rw [hname, hversion]

/-- Where no repair reports a change, the result is the archive. -/
theorem output_eq_of_unchanged (h : (r.chain path).MayReturn entries (.ok (output, report)))
    (hidle : ∀ row ∈ report.changed, row.2 = 0) : output = entries := by
  obtain ⟨lines, haccounts⟩ := Chain.accounts_of_mayReturn (r.names_nodup path none) h
  obtain ⟨image, rfl, himage⟩ := output_eq_map h
  have hself : ∀ e ∈ entries, e.mapClass image = e := by
    intro e he
    cases e with
    | manifest r => rfl
    | resource r => rfl
    | ofClass c =>
      refine congrArg Entry.ofClass (Stage.through_eq_self (himage c he) fun i s hi => ?_)
      obtain ⟨hlt, rfl⟩ := List.getElem?_eq_some_iff.1 hi
      have hcount := hidle _ (haccounts.changed_eq ▸ List.mem_mapIdx.2 ⟨i, hlt, rfl⟩)
      exact Bool.eq_false_of_not_eq_true
        (List.countP_eq_zero.1 hcount c (List.mem_filterMap.2 ⟨_, he, rfl⟩))
  exact (List.map_congr_left hself).trans (List.map_id' entries)

/-- So the jar that is written is the one that was read, exactly if its paths differ and none of
them has an odd release. -/
theorem unchanged_written_iff {jar : Jar}
    (h : (r.chain path).MayReturn (jar.map JarFile.toEntry) (.ok (output, report)))
    (hidle : ∀ row ∈ report.changed, row.2 = 0) :
    Jar.ofEntries output = .ok jar ↔
      (jar.map JarFile.path).Nodup ∧ ∀ f ∈ jar, ¬ HasOddRelease f.path := by
  rw [output_eq_of_unchanged h hidle, Jar.ofEntries_toEntry_iff]

/-- A class that is stored under another name moves as soon as it is repaired. -/
example : ((({ nothing with source := some .outermost } : Repairs).chain ⟨[]⟩).process
    [.ofClass { name := "BOOT-INF/classes/R", data := bareRecord, time := .stable,
                version := none }]).map (fun (output, _) => output.map Entry.path) =
      .ok ["R.class"] := by
  decide +kernel

end Repairs

end JarRemap
