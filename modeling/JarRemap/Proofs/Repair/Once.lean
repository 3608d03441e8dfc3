import JarRemap.Proofs.Repair.Settled
import JarRemap.Proofs.Run.Schedule

/-!
# Repairs are made once

A run without a table takes every class through the chosen repairs in their order. What comes out is
settled for all of them, so a second run finds nothing to do.
-/

namespace JarRemap

/-! ## Classes between repairs -/

/-- The counts of the class leave room for all that the repairs may add to it. -/
def ClassFile.LeavesRoom (repairs : List Repair) (c : ClassFile) : Prop :=
  c.HasRoom (repairs.flatMap fun r => r.addedNames c)

instance (repairs : List Repair) (c : ClassFile) : Decidable (c.LeavesRoom repairs) :=
  inferInstanceAs (Decidable (c.HasRoom _))

theorem Repair.addedNames_congr {c c' : ClassFile} (h : c'.superName = c.superName) (r : Repair) :
    r.addedNames c' = r.addedNames c := by
  cases r with
  | record parts =>
    unfold addedNames
    rw [h]
  | identifiers scope => rfl
  | source naming => rfl

namespace ClassFile.LeavesRoom

variable {repairs : List Repair} {c c' : ClassFile}

theorem revised (h : c.LeavesRoom repairs) (hnames : c.checkNames = .ok ())
    (hrevised : c.Revised (repairs.flatMap fun r => r.addedNames c) c') :
    c'.LeavesRoom repairs := by
  have hsuper : c'.superName = c.superName := by
    obtain ⟨_, -, hrest⟩ := except_bind_ok_iff.1 hnames
    obtain ⟨superName, hsuper, -⟩ := except_bind_ok_iff.1 hrest
    rw [hrevised.superName_eq hsuper, hsuper]
  unfold LeavesRoom
  simp only [Repair.addedNames_congr hsuper]
  exact hrevised.hasRoom h

theorem same (h : c.LeavesRoom repairs) (hsame : c'.Same c) : c'.LeavesRoom repairs := by
  have hsuper : c'.superName = c.superName := by
    unfold superName
    rw [ConstantPool.className_congr hsame.slots_eq, ← hsame.rest_eq]
  have hattributes : c'.attributes = c.attributes := by rw [← hsame.rest_eq]
  have hfields : c'.fields = c.fields := by rw [← hsame.rest_eq]
  unfold LeavesRoom
  simp only [Repair.addedNames_congr hsuper]
  exact ⟨hattributes ▸ h.attributes_le, fun hname => hfields ▸ h.fields_fit hname⟩

end ClassFile.LeavesRoom

/-- An entry holds this class, which is settled for some of the repairs and leaves room for all. -/
structure ClassEntry.Done (repairs done : List Repair) (e : ClassEntry) (c : ClassFile) : Prop where
  parse_eq : ClassFile.parse e.data = .ok c
  room : c.LeavesRoom repairs
  settled : ∀ r ∈ done, r.Settled c

/-- With every repair the class is settled for one more of them. -/
theorem ClassEntry.Done.step {repairs done : List Repair} {e : ClassEntry} {c : ClassFile}
    (h : e.Done repairs done c) {r : Repair} (hr : r ∈ repairs)
    (hrank : ∀ d ∈ done, d.rank < r.rank) {path : ClassPath} {found : Option ClassEntry}
    (hfound : r.repaired? path e = .ok found) :
    ∃ c', (found.getD e).Done repairs (done ++ [r]) c' := by
  obtain ⟨hfits, hnames, -⟩ := ClassFile.parse_ok_iff.1 h.parse_eq
  obtain ⟨hvalid, hle⟩ := ClassFile.valid_of_parse h.parse_eq
  have hadded : ∀ name ∈ r.addedNames c, name ∈ repairs.flatMap fun r => r.addedNames c :=
    fun name hname => List.mem_flatMap.2 ⟨r, hr, hname⟩
  obtain ⟨_, changed, c', hparse, happly, hcases⟩ := Repair.repaired?_ok hfound
  cases h.parse_eq.symm.trans hparse
  rcases Repair.apply_cases hadded hvalid hle hfits happly with
    ⟨rfl, rfl, hsettled⟩ | ⟨rfl, hsettled, -, hrevised, hkept⟩
  · obtain ⟨-, rfl⟩ | ⟨⟨⟩, -⟩ := hcases
    refine ⟨_, h.parse_eq, h.room, fun d hd => ?_⟩
    rcases List.mem_append.1 hd with hd | hd
    · exact h.settled d hd
    · exact List.mem_singleton.1 hd ▸ hsettled
  · obtain ⟨⟨⟩, -⟩ | ⟨-, name, -, rfl⟩ := hcases
    -- The next repair reads what this one has written, which is the class up to the directory of
    -- its pool.
    obtain ⟨parsed, hparsed, hsame⟩ := hrevised.parse_encode h.parse_eq h.room
    refine ⟨parsed, hparsed, (h.room.revised hnames hrevised).same hsame, fun d hd => ?_⟩
    refine Repair.Settled.same ?_ hsame
    rcases List.mem_append.1 hd with hd | hd
    · exact hkept d (hrank d hd) (h.settled d hd)
    · exact List.mem_singleton.1 hd ▸ hsettled

/-! ## One entry -/

namespace Chain

variable {chain : Chain} {e e' : ClassEntry} {log log' : Multiset SharedAccess}

theorem plainRepair_ok {r : Repair} (h : chain.plainRepair e r log = (.ok e', log')) :
    ∃ found, r.repaired? chain.classPath e = .ok found ∧ e' = found.getD e := by
  obtain ⟨found, between, hfound, h⟩ := bind_stateful_ok_iff.1 h
  obtain ⟨hrepaired, -⟩ := orFail_stateful_ok_iff.1 (Plain.tryCatch_ok hfound)
  refine ⟨found, hrepaired, ?_⟩
  rcases found with _ | repaired
  · exact (Except.ok.inj (congrArg Prod.fst h)).symm
  · exact (Except.ok.inj (congrArg Prod.fst h)).symm

theorem plainRepair_idle {r : Repair} (h : r.repaired? chain.classPath e = .ok none) :
    chain.plainRepair e r log = (.ok e, log) := by
  unfold plainRepair
  rw [h]
  rfl

/-- After the repairs a class is settled for all of them. -/
theorem foldlM_plainRepair_done {repairs done left : List Repair} {c : ClassFile}
    (h : e.Done repairs done c) (hleft : ∀ r ∈ left, r ∈ repairs)
    (horder : (done ++ left).Pairwise fun d r => d.rank < r.rank)
    (hrun : left.foldlM chain.plainRepair e log = (.ok e', log')) :
    ∃ c', e'.Done repairs (done ++ left) c' := by
  induction left generalizing e log done c with
  | nil =>
    obtain rfl : e = e' := Except.ok.inj (congrArg Prod.fst hrun)
    exact ⟨c, (List.append_nil done).symm ▸ h⟩
  | cons r left ih =>
    obtain ⟨e₁, log₁, hfirst, hrest⟩ := bind_stateful_ok_iff.1 hrun
    obtain ⟨found, hfound, rfl⟩ := plainRepair_ok hfirst
    have hrank : ∀ d ∈ done, d.rank < r.rank := fun d hd =>
      (List.pairwise_append.1 horder).2.2 d hd r List.mem_cons_self
    obtain ⟨c₁, h₁⟩ := h.step (hleft r List.mem_cons_self) hrank hfound
    rw [List.append_cons] at horder ⊢
    exact ih h₁ (fun r hr => hleft r (List.mem_cons_of_mem _ hr)) horder hrest

theorem foldlM_plainRepair_idle {repairs : List Repair}
    (h : ∀ r ∈ repairs, r.repaired? chain.classPath e = .ok none) :
    repairs.foldlM chain.plainRepair e log = (.ok e, log) := by
  induction repairs with
  | nil => rfl
  | cons r repairs ih =>
    refine bind_stateful_ok_iff.2 ⟨e, log, plainRepair_idle (h r List.mem_cons_self), ?_⟩
    exact ih fun r hr => h r (List.mem_cons_of_mem _ hr)

end Chain

/-! ## Runs without a table -/

namespace Repairs

/-- The stages of a run that makes these repairs and renames nothing. -/
def chain (r : Repairs) (path : ClassPath) : Chain :=
  { classPath := path, table := none, repairs := r.toList }

/-- A class goes through the repairs in the order of their ranks. -/
theorem toList_pairwise (r : Repairs) : r.toList.Pairwise fun d r => d.rank < r.rank := by
  obtain ⟨record, source, identifiers⟩ := r
  rcases record with _ | parts <;> rcases identifiers with _ | scope <;>
    rcases source with _ | naming <;> simp [toList, Repair.rank]

variable {r : Repairs} {path path' : ClassPath}

/-- What comes out of the repairs goes through them unchanged. -/
theorem plainClass_again {e e' : ClassEntry} {log log' : Multiset SharedAccess}
    (hroom : ∀ c, ClassFile.parse e.data = .ok c → c.LeavesRoom r.toList)
    (h : (r.chain path).plainClass e log = (.ok e', log')) :
    (r.chain path').plainClass e' 0 = (.ok e', 0) := by
  have hrun : r.toList.foldlM (r.chain path).plainRepair e log = (.ok e', log') := h
  suffices hidle : ∀ repair ∈ r.toList, repair.repaired? path' e' = .ok none by
    show r.toList.foldlM (r.chain path').plainRepair e' 0 = _
    exact Chain.foldlM_plainRepair_idle hidle
  rcases hparse : ClassFile.parse e.data with fault | c
  · -- Without repairs the class is not even read.
    rcases hlist : r.toList with _ | ⟨repair, rest⟩
    · exact fun _ hrepair => absurd hrepair List.not_mem_nil
    · rw [hlist] at hrun
      obtain ⟨e₁, log₁, hfirst, -⟩ := bind_stateful_ok_iff.1 hrun
      obtain ⟨found, hfound, -⟩ := Chain.plainRepair_ok hfirst
      obtain ⟨_, _, _, hread, -⟩ := Repair.repaired?_ok hfound
      cases hparse.symm.trans hread
  · have hstart : e.Done r.toList [] c :=
      ⟨hparse, hroom c hparse, fun _ hd => absurd hd List.not_mem_nil⟩
    obtain ⟨c', hdone⟩ :=
      Chain.foldlM_plainRepair_done hstart (fun _ h => h) r.toList_pairwise hrun
    exact fun repair hrepair =>
      Repair.repaired?_eq_none hdone.parse_eq (hdone.settled repair hrepair) path'

theorem plainEntry_again {e e' : Entry} {log log' : Multiset SharedAccess}
    (hroom : ∀ c, e = .ofClass c → ∀ file, ClassFile.parse c.data = .ok file →
      file.LeavesRoom r.toList)
    (h : (r.chain path).plainEntry e log = (.ok (some e'), log')) :
    (r.chain path').plainEntry e' 0 = (.ok (some e'), 0) := by
  cases e with
  | manifest resource =>
    cases h
    rfl
  | resource resource =>
    cases h
    rfl
  | ofClass c =>
    obtain ⟨c', between, hclass, hdone⟩ := bind_stateful_ok_iff.1 h
    cases hdone
    refine bind_stateful_ok_iff.2 ⟨c', 0, ?_, rfl⟩
    exact plainClass_again (hroom c rfl) hclass

/-- Nothing is generated without a table. -/
theorem extras_eq_nil {entries : List Entry} {processed : List (Option Entry)} {s : RunState}
    (h : (r.chain path).plainOutcomes entries = processed.map .ok)
    (htally : s.tally = (r.chain path).plainTally entries) : s.renames.extras = [] := by
  have hlines := (Chain.parameterLines h htally).ne_nil_iff
  rw [Chain.extras_eq]
  refine if_pos (by_contra fun hne => ?_)
  obtain ⟨htable, -⟩ := hlines.1 hne
  cases htable

/-- Every entry of the result comes from one of the archive. -/
theorem exists_of_mem_output {entries output : List Entry} {report : RunReport}
    (h : (r.chain path).process entries = .ok (output, report)) {e' : Entry} (he' : e' ∈ output) :
    ∃ e ∈ entries, ((r.chain path).plainEntry e 0).1 = .ok (some e') := by
  rcases Chain.origin_of_mem_output h he' with hmade | ⟨htable, -⟩
  · exact hmade
  · cases htable

/-- Entries that go through the stages unchanged are the result, and nothing is counted. -/
theorem process_idle {entries : List Entry}
    (h : ∀ e ∈ entries, (r.chain path).plainEntry e 0 = (.ok (some e), 0)) :
    ∃ report, (r.chain path).process entries = .ok (entries, report) ∧
      ∀ row ∈ report.changed, row.2 = 0 := by
  have houtcomes : (r.chain path).plainOutcomes entries = (entries.map some).map .ok := by
    rw [List.map_map]
    exact List.map_congr_left fun e he => congrArg Prod.fst (h e he)
  have htotal : (r.chain path).plainTally entries = 0 := by
    refine List.sum_eq_zero fun log hlog => ?_
    obtain ⟨e, he, rfl⟩ := List.mem_map.1 hlog
    exact congrArg Prod.snd (h e he)
  have hreturn := (r.chain path).process_mayReturn entries
  rcases hprocess : (r.chain path).process entries with cause | ⟨output, report⟩
  · rw [hprocess] at hreturn
    have hmem := Chain.mayReturn_error hreturn
    rw [houtcomes] at hmem
    obtain ⟨e, -, he⟩ := List.mem_map.1 hmem
    cases he
  · rw [hprocess] at hreturn
    obtain ⟨processed, s, hconclude, hprocessed, htally⟩ := Chain.mayReturn_ok hreturn
    obtain ⟨houtput, hreport⟩ := Prod.mk.inj hconclude
    have hextras := extras_eq_nil hprocessed htally
    obtain rfl : processed = entries.map some :=
      List.map_injective_iff.2 (fun _ _ => Except.ok.inj) (hprocessed.symm.trans houtcomes)
    have hkept : output = entries := by
      rw [houtput, hextras, List.append_nil, List.filterMap_map]
      exact List.filterMap_some
    have hcount (repair : Repair) : s.made.count repair = 0 := by
      rw [← s.count_repaired_tally, htally, htotal, Multiset.count_zero]
    refine ⟨report, hkept ▸ rfl, fun row hrow => ?_⟩
    have hchanged : report.changed =
        r.toList.map fun repair => (repair.name, s.made.count repair) :=
      congrArg RunReport.changed hreport
    rw [hchanged] at hrow
    obtain ⟨repair, -, rfl⟩ := List.mem_map.1 hrow
    exact hcount repair

end Repairs

/-- A repair says whether it has changed a class, which the bytes tell as well, and does not change
it again. So the result of a run that only repairs, if there was room for what the repairs add,
comes out of a second run as it is, where no stage counts a change. -/
theorem repairs_made_once :
    (∀ (data : Bytes) (c : ClassFile), ClassFile.parse data = .ok c →
      ∀ (r : Repair) (path : ClassPath) (c' : ClassFile),
        (r.apply path c = (.ok false, c') → c' = c) ∧
        (r.apply path c = (.ok true, c') →
          c'.encode ≠ c.encode ∧ ∀ path' : ClassPath, r.apply path' c' = (.ok false, c'))) ∧
    (∀ (r : Repairs) (path path' : ClassPath) (entries output : List Entry) (report : RunReport),
      (∀ e, .ofClass e ∈ entries → ∀ c, ClassFile.parse e.data = .ok c →
        c.LeavesRoom r.toList) →
      (r.chain path).process entries = .ok (output, report) →
      ∃ report', (r.chain path').process output = .ok (output, report') ∧
        ∀ row ∈ report'.changed, row.2 = 0) := by
  refine ⟨fun data c hparse r path c' => Repair.apply_once hparse, ?_⟩
  intro r path path' entries output report hroom h
  refine Repairs.process_idle fun e' he' => ?_
  obtain ⟨e, he, hmade⟩ := Repairs.exists_of_mem_output h he'
  refine Repairs.plainEntry_again (e := e) (fun c hc => hroom c (hc ▸ he)) (Prod.ext hmade rfl)

/-- A record with a field, but without components. -/
def bareRecord : Bytes :=
  [0xca, 0xfe, 0xba, 0xbe, 0, 0, 0, 61, 0, 7, 1, 0, 1, 0x52, 7, 0, 1,
   1, 0, 16, 0x6a, 0x61, 0x76, 0x61, 0x2f, 0x6c, 0x61, 0x6e, 0x67, 0x2f, 0x52, 0x65, 0x63, 0x6f,
   0x72, 0x64, 7, 0, 3, 1, 0, 1, 0x78, 1, 0, 1, 0x49, 0, 0x31, 0, 2, 0, 4, 0, 0, 0, 1, 0, 0x12,
   0, 5, 0, 6, 0, 0, 0, 0, 0, 0]

/-- All repairs. -/
def allRepairs : Repairs :=
  { record := some .everything, source := some .outermost, identifiers := some .all }

/-- An archive with nothing but the record. -/
def bareArchive : List Entry :=
  [.ofClass { name := "R", data := bareRecord, time := .stable, version := none }]

/-- The class that is read of the record. -/
def bareRecordClass : ClassFile :=
  { minorVersion := 0, majorVersion := 61,
    pool := .ofEntries [.utf8 "R", .classEntry 1, .utf8 "java/lang/Record", .classEntry 3,
      .utf8 "x", .utf8 "I"],
    access := ⟨0x31⟩, thisClass := 2, superClass := 4, interfaces := [],
    fields := [{ access := ⟨0x12⟩, name := 5, descriptor := 6, attributes := [] }],
    methods := [], attributes := [] }

theorem repairs_made_once_sample :
    (∃ c' : ClassFile,
      (Repair.record .everything).apply ⟨[]⟩ bareRecordClass = (.ok true, c') ∧
      c'.encode ≠ bareRecordClass.encode ∧
      (Repair.record .everything).apply ⟨[]⟩ c' = (.ok false, c')) ∧
    ∃ output report report',
      (allRepairs.chain ⟨[]⟩).process bareArchive = .ok (output, report) ∧
      report.changed = [("record-fix", 1), ("identifier-fix", 0), ("source-fix", 1)] ∧
      (allRepairs.chain ⟨[]⟩).process output = .ok (output, report') ∧
      ∀ row ∈ report'.changed, row.2 = 0 := by
  have hparse : ClassFile.parse bareRecord = .ok bareRecordClass := rfl
  constructor
  · have happly : (Repair.record .everything).apply ⟨[]⟩ bareRecordClass =
        (.ok true, ((Repair.record .everything).apply ⟨[]⟩ bareRecordClass).2) := by
      refine Prod.ext ?_ rfl
      decide +kernel
    obtain ⟨hne, hagain⟩ := (repairs_made_once.1 _ _ hparse _ _ _).2 happly
    exact ⟨_, happly, hne, hagain _⟩
  · have hroom : ∀ e, .ofClass e ∈ bareArchive → ∀ c, ClassFile.parse e.data = .ok c →
        c.LeavesRoom allRepairs.toList := by
      intro e he c hc
      obtain rfl := Entry.ofClass.inj (List.mem_singleton.1 he)
      obtain rfl := Except.ok.inj (hparse.symm.trans hc)
      decide +kernel
    have hchanged : ((allRepairs.chain ⟨[]⟩).process bareArchive).map (·.2.changed) =
        .ok [("record-fix", 1), ("identifier-fix", 0), ("source-fix", 1)] := by
      decide +kernel
    rcases hprocess : (allRepairs.chain ⟨[]⟩).process bareArchive with cause | ⟨output, report⟩
    · rw [hprocess] at hchanged
      cases hchanged
    · rw [hprocess] at hchanged
      obtain ⟨report', hagain, hnone⟩ :=
        repairs_made_once.2 allRepairs ⟨[]⟩ ⟨[]⟩ _ _ _ hroom hprocess
      exact ⟨output, report, report', rfl, Except.ok.inj hchanged, hagain, hnone⟩

end JarRemap
