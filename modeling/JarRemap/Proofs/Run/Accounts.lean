import JarRemap.Proofs.Repair.Once

/-!
# The accounts of a run

Every class goes through the same stages, one after the other (`Stage.through`), and each stage
counts the classes that it reports a change for. So the result of a run is known from the archive:
the images of its entries in their order, then what is generated (`Chain.process_accounts`). A run
without a table keeps the entries side by side (`Repairs.output_beside`).
-/

namespace JarRemap

/-! ## Stages -/

/-- A stage that classes go through. -/
inductive Stage where
  | rename (table : RenameTable)
  | repair (r : Repair)

namespace Stage

/-- The name of a stage in reports. -/
def name : Stage → String
  | rename _ => renamingName
  | repair r => r.name

/-- What a stage counts its changes with. -/
def counter : Stage → SharedAccess
  | rename _ => .countRenamed
  | repair r => .countRepaired r

/-- The class that a stage makes of another, if it reports a change. -/
def change? (path : ClassPath) (e : ClassEntry) :
    Stage → Except TransformError (Option ClassEntry)
  | rename table => e.rename? table (Remapper.nameOrFail ⟨table, path⟩) fun _ => pure ()
  | repair r => r.repaired? path e

/-- A class behind a stage. -/
def next (path : ClassPath) (e : ClassEntry) (s : Stage) : Except TransformError ClassEntry := do
  return (← s.change? path e).getD e

/-- A class behind some stages. -/
def through (path : ClassPath) (stages : List Stage) (e : ClassEntry) :
    Except TransformError ClassEntry :=
  stages.foldlM (next path) e

/-- Whether the stage reports a change for a class that comes to it from the stages before. -/
def changes (path : ClassPath) (before : List Stage) (s : Stage) (e : ClassEntry) : Bool :=
  match through path before e >>= fun e => s.change? path e with
  | .ok found => found.isSome
  | .error _ => false

theorem name_congr {s s' : Stage} (h : s.counter = s'.counter) : s.name = s'.name := by
  cases s with
  | rename table =>
    cases s' with
    | rename table' => rfl
    | repair r => cases h
  | repair r =>
    cases s' with
    | rename table => cases h
    | repair r' =>
      cases h
      rfl

variable {path : ClassPath} {e : ClassEntry} {found : Option ClassEntry} {s s' : Stage}
  {stages : List Stage}

theorem next_of_change? (h : s.change? path e = .ok found) :
    s.next path e = .ok (found.getD e) := by
  unfold next
  rw [h]
  rfl

theorem through_cons (h : s.change? path e = .ok found) :
    through path (s :: stages) e = through path stages (found.getD e) := by
  unfold through
  rw [List.foldlM_cons, next_of_change? h]
  rfl

theorem changes_nil (h : s.change? path e = .ok found) : s.changes path [] e = found.isSome := by
  have hstart : through path [] e >>= (fun e => s.change? path e) = s.change? path e := rfl
  unfold changes
  rw [hstart, h]

theorem changes_cons (h : s'.change? path e = .ok found) :
    s.changes path (s' :: stages) e = s.changes path stages (found.getD e) := by
  unfold changes
  rw [through_cons h]

end Stage

/-- The stages of a run in the order in which classes go through them. -/
def Chain.stages (chain : Chain) : List Stage :=
  (chain.table.map .rename).toList ++ chain.repairs.map .repair

/-! ## What one stage leaves -/

namespace Plain

/-- Plain computations that leave nothing but lines are composed as those that only may fail. -/
def noting : Alike Plain (Except TransformError) where
  rel x y := ∀ before, (x before).1 = y ∧
    ∀ key, (∀ line, key ≠ .note line) → (x before).2.count key = before.count key
  pure _ _ := ⟨rfl, fun _ _ => rfl⟩
  throw _ _ := ⟨rfl, fun _ _ => rfl⟩
  bind {α β x y f g} hx hf before := by
    have hplain : (x >>= f) before = ExceptT.bindCont f (x before).1 (x before).2 := rfl
    obtain ⟨houtcome, hcount⟩ := hx before
    rw [hplain, houtcome]
    rcases y with e | a
    · exact ⟨rfl, hcount⟩
    · obtain ⟨houtcome', hcount'⟩ := hf a (x before).2
      exact ⟨houtcome', fun key hkey => (hcount' key hkey).trans (hcount key hkey)⟩

theorem noting_memberName (r : Remapper) (k : MemberKey) :
    noting.rel (Plain.memberName r k) (r.nameOrFail k) :=
  noting.orFail _ _

theorem noting_leave (line : String) : noting.rel (leave (.note line)) (pure ()) := by
  intro before
  refine ⟨rfl, fun key hkey => ?_⟩
  show ({.note line} + before : Multiset SharedAccess).count key = _
  rw [Multiset.count_add, Multiset.count_singleton, if_neg (hkey line), zero_add]

/-- Counts a change, if there is one. -/
def counted (counter : SharedAccess) (e : ClassEntry) : Option ClassEntry → Plain ClassEntry
  | none => pure e
  | some made => do
    leave counter
    return made

theorem counted_ok {s : Stage} {e e' : ClassEntry} {found : Option ClassEntry}
    {before after : Multiset SharedAccess}
    (h : counted s.counter e found before = (.ok e', after)) :
    e' = found.getD e ∧ ∀ key, after.count key =
      before.count key + if key = s.counter then found.isSome.toNat else 0 := by
  rcases found with _ | made
  · obtain ⟨rfl, rfl⟩ := pure_stateful_ok_iff.1 h
    refine ⟨rfl, fun key => ?_⟩
    show _ = _ + if key = s.counter then 0 else 0
    rw [ite_self, add_zero]
  · obtain rfl : made = e' := Except.ok.inj (congrArg Prod.fst h)
    obtain rfl : s.counter.trace + before = after := congrArg Prod.snd h
    have htrace : s.counter.trace = {s.counter} := by cases s <;> rfl
    refine ⟨rfl, fun key => ?_⟩
    rw [htrace, Multiset.count_add, Multiset.count_singleton, add_comm]
    rfl

end Plain

theorem Stage.counter_ne_note (s : Stage) (line : String) : s.counter ≠ .note line := by
  cases s <;> exact nofun

namespace Chain

variable (chain : Chain)

/-- What a stage makes of a class, and the lines and counts that it leaves. -/
def plainStage (e : ClassEntry) : Stage → Plain ClassEntry
  | .rename table =>
    tryCatch
      (e.renamed table (Plain.memberName ⟨table, chain.classPath⟩)
        (fun line => Plain.leave (.note line)) (Plain.leave .countRenamed))
      fun cause => throw (cause.within renamingName e.name)
  | .repair r => chain.plainRepair e r

theorem plainClass_eq (e : ClassEntry) :
    chain.plainClass e = chain.stages.foldlM chain.plainStage e := by
  have hrepairs (e : ClassEntry) : chain.repairs.foldlM chain.plainRepair e =
      (chain.repairs.map Stage.repair).foldlM chain.plainStage e := by
    rw [List.foldlM_map]
    rfl
  unfold plainClass plainRename stages
  rcases chain.table with _ | table
  · exact hrepairs e
  · show _ = (Stage.rename table :: chain.repairs.map Stage.repair).foldlM chain.plainStage e
    rw [List.foldlM_cons]
    exact bind_congr fun e => hrepairs e

variable {chain} {e e' : ClassEntry} {log log' : Multiset SharedAccess}

/-- A stage that does not fail makes what it makes without lines and counts, and it counts a change
of its own. -/
theorem plainStage_ok {s : Stage} (h : chain.plainStage e s log = (.ok e', log')) :
    ∃ found, s.change? chain.classPath e = .ok found ∧ e' = found.getD e ∧
      ∀ key, (∀ line, key ≠ .note line) → log'.count key =
        log.count key + if key = s.counter then found.isSome.toNat else 0 := by
  cases s with
  | rename table =>
    obtain ⟨found, between, hfound, h⟩ := bind_stateful_ok_iff.1 (Plain.tryCatch_ok h)
    obtain ⟨houtcome, hnoted⟩ := Alike.rename? (R := Plain.noting)
      (Plain.noting_memberName ⟨table, chain.classPath⟩) table Plain.noting_leave e log
    rw [hfound] at houtcome hnoted
    have hcounted : Plain.counted (Stage.rename table).counter e found between = (.ok e', log') :=
      by cases found <;> exact h
    obtain ⟨hmade, hcount⟩ := Plain.counted_ok hcounted
    exact ⟨found, houtcome.symm, hmade, fun key hkey => hnoted key hkey ▸ hcount key⟩
  | repair r =>
    obtain ⟨found, between, hfound, h⟩ := bind_stateful_ok_iff.1 h
    obtain ⟨hrepaired, rfl⟩ := orFail_stateful_ok_iff.1 (Plain.tryCatch_ok hfound)
    have hcounted : Plain.counted (Stage.repair r).counter e found between = (.ok e', log') := by
      cases found <;> exact h
    obtain ⟨hmade, hcount⟩ := Plain.counted_ok hcounted
    exact ⟨found, hrepaired, hmade, fun key _ => hcount key⟩

/-! ## What all stages leave -/

variable {stages before after : List Stage} {s : Stage}

theorem foldlM_plainStage_through (h : stages.foldlM chain.plainStage e log = (.ok e', log')) :
    Stage.through chain.classPath stages e = .ok e' := by
  induction stages generalizing e log with
  | nil => exact congrArg Prod.fst h
  | cons s stages ih =>
    obtain ⟨e₁, log₁, hfirst, hrest⟩ := bind_stateful_ok_iff.1 h
    obtain ⟨found, hfound, rfl, -⟩ := plainStage_ok hfirst
    rw [Stage.through_cons hfound]
    exact ih hrest

/-- Stages do not touch what other stages count. -/
theorem foldlM_plainStage_frame (h : stages.foldlM chain.plainStage e log = (.ok e', log'))
    (hother : ∀ s' ∈ stages, s.counter ≠ s'.counter) :
    log'.count s.counter = log.count s.counter := by
  induction stages generalizing e log with
  | nil => exact congrArg (fun log => log.2.count s.counter) h.symm
  | cons s' stages ih =>
    rw [List.forall_mem_cons] at hother
    obtain ⟨e₁, log₁, hfirst, hrest⟩ := bind_stateful_ok_iff.1 h
    obtain ⟨found, -, -, hcount⟩ := plainStage_ok hfirst
    rw [ih hrest hother.2, hcount _ s.counter_ne_note, if_neg hother.1, add_zero]

/-- Where stages have names of their own, each counts the changes that it reports. -/
theorem foldlM_plainStage_count
    (h : (before ++ s :: after).foldlM chain.plainStage e log = (.ok e', log'))
    (hnames : ((before ++ s :: after).map Stage.name).Nodup) :
    log'.count s.counter =
      log.count s.counter + (s.changes chain.classPath before e).toNat := by
  induction before generalizing e log with
  | nil =>
    obtain ⟨e₁, log₁, hfirst, hrest⟩ := bind_stateful_ok_iff.1 h
    obtain ⟨found, hfound, -, hcount⟩ := plainStage_ok hfirst
    have hother : ∀ s' ∈ after, s.counter ≠ s'.counter := by
      intro s' hs' hsame
      exact (List.nodup_cons.1 hnames).1 (Stage.name_congr hsame ▸ List.mem_map_of_mem hs')
    rw [foldlM_plainStage_frame hrest hother, hcount _ s.counter_ne_note, if_pos rfl,
      Stage.changes_nil hfound]
  | cons s' before ih =>
    obtain ⟨e₁, log₁, hfirst, hrest⟩ := bind_stateful_ok_iff.1 h
    obtain ⟨found, hfound, rfl, hcount⟩ := plainStage_ok hfirst
    obtain ⟨hfresh, hnames⟩ := List.nodup_cons.1 hnames
    have hother : s.counter ≠ s'.counter := by
      intro hsame
      refine hfresh (Stage.name_congr hsame ▸ List.mem_map_of_mem ?_)
      exact List.mem_append_right _ List.mem_cons_self
    rw [ih hrest hnames, hcount _ s.counter_ne_note, if_neg hother, add_zero,
      Stage.changes_cons hfound]

end Chain

/-! ## What becomes of an entry -/

/-- The entry with its class replaced, if it holds one. -/
def Entry.mapClass (image : ClassEntry → ClassEntry) : Entry → Entry
  | .ofClass c => .ofClass (image c)
  | .manifest r => .manifest r
  | .resource r => .resource r

namespace Chain

/-- Whether the run leaves an entry out: where there is a table, a resource that an earlier run
generated. -/
def drops (chain : Chain) : Entry → Bool
  | .resource r => chain.table.isSome && r.path == parameterNamesPath
  | .ofClass _ | .manifest _ => false

/-- The class behind all stages, as far as they do not fail. -/
def image (chain : Chain) (c : ClassEntry) : ClassEntry :=
  (Stage.through chain.classPath chain.stages c).toOption.getD c

variable {chain : Chain} {entries : List Entry} {processed : List (Option Entry)}
  {log log' : Multiset SharedAccess}

theorem processResource_eq (chain : Chain) (r : ResourceEntry) :
    (chain.processResource r).map Entry.resource =
      if chain.drops (.resource r) then none else some (.resource r) := by
  have hdrops : chain.drops (.resource r) = (chain.table.isSome && r.path == parameterNamesPath) :=
    rfl
  rw [hdrops]
  unfold processResource renameResource
  rcases chain.table.isSome with _ | _
  · rfl
  · by_cases hpath : r.path = parameterNamesPath
    · rw [if_pos rfl, if_pos hpath, hpath, BEq.rfl]
      rfl
    · rw [if_pos rfl, if_neg hpath, beq_false_of_ne hpath]
      rfl

theorem plainClass_ok {c c' : ClassEntry} (h : chain.plainClass c log = (.ok c', log')) :
    Stage.through chain.classPath chain.stages c = .ok c' ∧ chain.image c = c' := by
  rw [plainClass_eq] at h
  have hthrough := foldlM_plainStage_through h
  refine ⟨hthrough, ?_⟩
  unfold image
  rw [hthrough]
  rfl

/-- An entry that does not fail is left out or becomes its image. -/
theorem plainEntry_ok {e : Entry} {made : Option Entry}
    (h : chain.plainEntry e log = (.ok made, log')) :
    made = if chain.drops e then none else some (e.mapClass chain.image) := by
  cases e with
  | manifest r => exact (Except.ok.inj (congrArg Prod.fst h)).symm
  | resource r =>
    obtain rfl := Except.ok.inj (congrArg Prod.fst h)
    exact chain.processResource_eq r
  | ofClass c =>
    obtain ⟨c', between, hclass, hdone⟩ := bind_stateful_ok_iff.1 h
    obtain rfl := Except.ok.inj (congrArg Prod.fst hdone)
    rw [← (plainClass_ok hclass).2]
    rfl

/-- Where no entry fails, what is left of them stands in their order. -/
theorem filterMap_processed (h : chain.plainOutcomes entries = processed.map .ok) :
    processed.filterMap id =
      (entries.filter fun e => !chain.drops e).map (Entry.mapClass chain.image) := by
  have hentry := plainEntry_of_outcomes h
  have houtcomes : chain.plainOutcomes entries = (entries.map fun e =>
      if chain.drops e then none else some (e.mapClass chain.image)).map .ok := by
    unfold plainOutcomes
    rw [List.map_map]
    refine List.map_congr_left fun e he => ?_
    obtain ⟨made, hmade⟩ := hentry e he
    rw [hmade, plainEntry_ok hmade]
    rfl
  have hprocessed := List.map_injective_iff.2 (fun _ _ => Except.ok.inj) (h.symm.trans houtcomes)
  rw [hprocessed, List.filterMap_map, ← List.filterMap_eq_map, List.filterMap_filter]
  refine List.filterMap_congr fun e _ => ?_
  rcases hdrops : chain.drops e with _ | _ <;> simp [hdrops]

theorem count_plainTally {before after : List Stage} {s : Stage}
    (h : chain.plainOutcomes entries = processed.map .ok)
    (hstages : chain.stages = before ++ s :: after) (hnames : (chain.stages.map Stage.name).Nodup) :
    (chain.plainTally entries).count s.counter =
      (entries.filterMap Entry.class?).countP (s.changes chain.classPath before) := by
  have hentry := plainEntry_of_outcomes h
  unfold plainTally
  clear h
  induction entries with
  | nil => rfl
  | cons e entries ih =>
    obtain ⟨made, hmade⟩ := hentry e List.mem_cons_self
    rw [List.map_cons, List.sum_cons, Multiset.count_add,
      ih fun e he => hentry e (List.mem_cons_of_mem _ he)]
    cases e with
    | manifest r => exact zero_add _
    | resource r => exact zero_add _
    | ofClass c =>
      obtain ⟨c', between, hclass, hdone⟩ := bind_stateful_ok_iff.1 hmade
      rw [plainClass_eq, hstages] at hclass
      have hcount := foldlM_plainStage_count hclass (hstages ▸ hnames)
      rw [Multiset.count_zero, zero_add] at hcount
      obtain rfl : between = (chain.plainEntry (.ofClass c) 0).2 := congrArg Prod.snd hdone
      have hclasses : (Entry.ofClass c :: entries).filterMap Entry.class? =
        c :: entries.filterMap Entry.class? := rfl
      rw [hcount, hclasses, List.countP_cons, add_comm]
      rcases s.changes chain.classPath before c with _ | _ <;> rfl

end Chain

/-! ## Counting -/

theorem classCount_add_resourceCount (entries : List Entry) :
    classCount entries + resourceCount entries = entries.length := by
  have hnone : (fun e : Entry => e.class?.isNone) = fun e => !e.class?.isSome :=
    funext fun e => by cases e <;> rfl
  unfold classCount resourceCount
  rw [hnone, ← List.length_eq_length_filter_add]

theorem classCount_eq (entries : List Entry) :
    classCount entries = (entries.filterMap Entry.class?).length := by
  unfold classCount
  rw [List.length_filterMap_eq_countP, List.countP_eq_length_filter]

namespace Chain

/-- What the result of a run and its report say about the entries of an archive. -/
structure Accounts (chain : Chain) (entries : List Entry) (image : ClassEntry → ClassEntry)
    (lines : List String) (output : List Entry) (report : RunReport) : Prop where
  /-- Every class has an image under all stages. -/
  image_eq : ∀ c, .ofClass c ∈ entries →
    Stage.through chain.classPath chain.stages c = .ok (image c)
  parameterLines : chain.ParameterLines entries lines
  /-- The result is the images in their order and what is generated. -/
  output_eq : output =
    (entries.filter fun e => !chain.drops e).map (Entry.mapClass image) ++ generated lines
  /-- No class is lost or comes twice. -/
  classes_eq : output.filterMap Entry.class? = (entries.filterMap Entry.class?).map image
  classesIn_eq : report.classesIn = (entries.filterMap Entry.class?).length
  input_eq : report.classesIn + report.resourcesIn = entries.length
  classesOut_eq : report.classesOut = report.classesIn
  output_length_eq : report.classesOut + report.resourcesOut = output.length
  resources_eq : report.resourcesOut + entries.countP chain.drops =
    report.resourcesIn + (generated lines).length
  extras_eq : report.extras = (generated lines).map Entry.path
  /-- A row for each stage, with the number of classes that it reports a change for. -/
  changed_eq : report.changed = chain.stages.mapIdx fun i s =>
    (s.name, (entries.filterMap Entry.class?).countP
      (s.changes chain.classPath (chain.stages.take i)))
  /-- No two stages share a row. -/
  names_nodup : (report.changed.map Prod.fst).Nodup

variable {chain : Chain} {entries output : List Entry} {report : RunReport}

theorem changes_eq (chain : Chain) (s : RunState) :
    chain.changes s = chain.stages.map fun stage => (stage.name, s.tally.count stage.counter) := by
  have hrepairs : chain.repairs.map (fun r => (r.name, s.made.count r)) =
      (chain.repairs.map Stage.repair).map fun stage =>
        (stage.name, s.tally.count stage.counter) := by
    rw [List.map_map]
    exact List.map_congr_left fun r _ => congrArg (Prod.mk r.name) (s.count_repaired_tally r).symm
  unfold changes stages
  rw [hrepairs, List.map_append]
  refine congrArg (· ++ _) ?_
  rcases chain.table with _ | table
  · rfl
  · exact congrArg (fun n => [(renamingName, n)]) s.count_renamed_tally.symm

theorem class?_of_mem_generated {lines : List String} {e : Entry} (h : e ∈ generated lines) :
    e.class? = none := by
  unfold generated at h
  split at h
  · cases h
  · obtain rfl := List.mem_singleton.1 h
    rfl

/-- Images keep the classes in their order, and nothing else brings one. -/
theorem class?_images (chain : Chain) (entries : List Entry) (image : ClassEntry → ClassEntry)
    (lines : List String) :
    ((entries.filter fun e => !chain.drops e).map (Entry.mapClass image) ++
        generated lines).filterMap Entry.class? =
      (entries.filterMap Entry.class?).map image := by
  have hgenerated : (generated lines).filterMap Entry.class? = [] :=
    List.filterMap_eq_nil_iff.2 fun e he => class?_of_mem_generated he
  rw [List.filterMap_append, hgenerated, List.append_nil, List.filterMap_map,
    List.filterMap_filter, List.map_filterMap]
  refine List.filterMap_congr fun e _ => ?_
  cases e with
  | ofClass c => rfl
  | manifest r => rfl
  | resource r => exact ite_self _

/-- The report counts the stages' changes, if they have names of their own. -/
theorem changes_eq_mapIdx {processed : List (Option Entry)} {s : RunState}
    (hnames : (chain.stages.map Stage.name).Nodup)
    (h : chain.plainOutcomes entries = processed.map .ok)
    (htally : s.tally = chain.plainTally entries) :
    chain.changes s = chain.stages.mapIdx fun i s =>
      (s.name, (entries.filterMap Entry.class?).countP
        (s.changes chain.classPath (chain.stages.take i))) := by
  rw [changes_eq, htally]
  refine List.ext_getElem (by rw [List.length_map, List.length_mapIdx]) fun i hi _ => ?_
  rw [List.length_map] at hi
  rw [List.getElem_map, List.getElem_mapIdx]
  have hstages : chain.stages =
      chain.stages.take i ++ chain.stages[i] :: chain.stages.drop (i + 1) := by
    rw [List.getElem_cons_drop, List.take_append_drop]
  exact congrArg (Prod.mk _) (count_plainTally h hstages hnames)

/-- Where stages have names of their own, a run that succeeds accounts for every entry. -/
theorem accounts_of_mayReturn (hnames : (chain.stages.map Stage.name).Nodup)
    (h : chain.MayReturn entries (.ok (output, report))) :
    ∃ lines, chain.Accounts entries chain.image lines output report := by
  obtain ⟨processed, s, hconclude, houtcomes, htally⟩ := mayReturn_ok h
  obtain ⟨hmade, hreport⟩ := Prod.mk.inj hconclude
  rw [← hmade] at hreport
  have houtput : output = (entries.filter fun e => !chain.drops e).map
      (Entry.mapClass chain.image) ++ generated (sortedLines s.renames.lines) := by
    rw [hmade, filterMap_processed houtcomes, extras_eq]
  have hclasses : output.filterMap Entry.class? =
      (entries.filterMap Entry.class?).map chain.image :=
    houtput ▸ chain.class?_images entries chain.image _
  have hin := classCount_add_resourceCount entries
  have hout := classCount_add_resourceCount output
  have hsame : classCount output = classCount entries := by
    rw [classCount_eq, classCount_eq, hclasses, List.length_map]
  have hlength : output.length + entries.countP chain.drops =
      entries.length + (generated (sortedLines s.renames.lines)).length := by
    rw [houtput, List.length_append, List.length_map, List.countP_eq_length_filter,
      List.length_eq_length_filter_add (l := entries) chain.drops]
    omega
  subst hreport
  refine ⟨sortedLines s.renames.lines, ?_⟩
  exact {
    image_eq := fun c hc => by
      obtain ⟨made, hentry⟩ := plainEntry_of_outcomes houtcomes _ hc
      obtain ⟨c', between, hclass, -⟩ := bind_stateful_ok_iff.1 hentry
      obtain ⟨hthrough, rfl⟩ := plainClass_ok hclass
      exact hthrough
    parameterLines := parameterLines houtcomes htally
    output_eq := houtput
    classes_eq := hclasses
    classesIn_eq := classCount_eq entries
    input_eq := hin
    classesOut_eq := hsame
    output_length_eq := hout
    resources_eq := by
      show resourceCount output + _ = resourceCount entries + _
      omega
    extras_eq := congrArg (List.map Entry.path) (extras_eq s.renames)
    changed_eq := changes_eq_mapIdx hnames houtcomes htally
    names_nodup := by
      show ((chain.changes s).map Prod.fst).Nodup
      rw [changes_eq, List.map_map]
      exact hnames }

end Chain

/-! ## Every run -/

/-- The stages that the settings of a run choose. -/
def Repairs.chainFor (r : Repairs) (path : ClassPath) (table : Option RenameTable) : Chain :=
  { classPath := path, table, repairs := r.toList }

theorem Repairs.names_nodup (r : Repairs) (path : ClassPath) (table : Option RenameTable) :
    ((r.chainFor path table).stages.map Stage.name).Nodup := by
  obtain ⟨record, source, identifiers⟩ := r
  unfold chainFor Chain.stages
  rcases table with _ | table <;> rcases record with _ | parts <;>
    rcases identifiers with _ | scope <;> rcases source with _ | naming <;>
      simp [toList, Stage.name, renamingName, Repair.name]

/-- Whatever the settings, and in whatever order the workers get at what is shared: the result of a
run that succeeds is the entries of the archive in their order, with each class replaced by its
image under all stages, and then what is generated. Where there is a table, a resource that an
earlier run generated is left out; manifests and other resources stay as they are. The report counts
what went in, what came out, and for each stage the classes that it reports a change for. -/
theorem Chain.process_accounts (path : ClassPath) (table : Option RenameTable) (r : Repairs)
    (entries output : List Entry) (report : RunReport)
    (h : (r.chainFor path table).MayReturn entries (.ok (output, report))) :
    ∃ image lines, (r.chainFor path table).Accounts entries image lines output report := by
  obtain ⟨lines, haccounts⟩ := accounts_of_mayReturn (r.names_nodup path table) h
  exact ⟨_, lines, haccounts⟩

/-- An interface with an abstract method. -/
def bareInterface : Bytes :=
  [0xca, 0xfe, 0xba, 0xbe, 0, 0, 0, 61, 0, 7, 1, 0, 1, 0x49, 7, 0, 1,
   1, 0, 16, 0x6a, 0x61, 0x76, 0x61, 0x2f, 0x6c, 0x61, 0x6e, 0x67, 0x2f, 0x4f, 0x62, 0x6a, 0x65,
   0x63, 0x74, 7, 0, 3, 1, 0, 1, 0x6d, 1, 0, 4, 0x28, 0x49, 0x29, 0x56, 6, 1, 0, 2, 0, 4, 0, 0,
   0, 0, 0, 1, 4, 1, 0, 5, 0, 6, 0, 0, 0, 0]

/-- An archive with a manifest, two classes, a resource of an earlier run and another one. -/
def mixedArchive : List Entry :=
  [.manifest { path := manifestPath, data := [], time := .stable },
    .ofClass { name := "R", data := bareRecord, time := .stable, version := none },
    .resource { path := parameterNamesPath, data := [0x2e], time := .stable },
    .ofClass { name := "I", data := bareInterface, time := .stable, version := none },
    .resource { path := "x.txt", data := [0x2e], time := .stable }]

/-- A table with rows for the classes of the archive. -/
def mixedTable : RenameTable :=
  ⟨[⟨"R", "S", [⟨"x", "y", none⟩], []⟩, ⟨"I", "J", [], [⟨"m", "(I)V", "n", []⟩]⟩]⟩

theorem Chain.process_accounts_mixedArchive :
    ∃ output report image lines,
      (allRepairs.chainFor ⟨[Entry.classSource mixedArchive]⟩ mixedTable).MayReturn mixedArchive
        (.ok (output, report)) ∧
      (report.classesIn, report.classesOut, report.resourcesIn, report.resourcesOut) =
        (2, 2, 3, 3) ∧
      report.changed =
        [("rename", 2), ("record-fix", 1), ("identifier-fix", 0), ("source-fix", 2)] ∧
      (allRepairs.chainFor ⟨[Entry.classSource mixedArchive]⟩ mixedTable).Accounts mixedArchive
        image lines output report := by
  have hreport : ((allRepairs.chainFor ⟨[Entry.classSource mixedArchive]⟩
      mixedTable).process mixedArchive).map
        (fun (_, report) => ((report.classesIn, report.classesOut, report.resourcesIn,
          report.resourcesOut), report.changed)) =
      .ok ((2, 2, 3, 3),
        [("rename", 2), ("record-fix", 1), ("identifier-fix", 0), ("source-fix", 2)]) := by
    decide +kernel
  have hreturn := (allRepairs.chainFor ⟨[Entry.classSource mixedArchive]⟩
    mixedTable).process_mayReturn mixedArchive
  rcases hprocess : (allRepairs.chainFor ⟨[Entry.classSource mixedArchive]⟩
    mixedTable).process mixedArchive with cause | ⟨output, report⟩
  · rw [hprocess] at hreport
    cases hreport
  · rw [hprocess] at hreport hreturn
    obtain ⟨hcounts, hchanged⟩ := Prod.mk.inj (Except.ok.inj hreport)
    obtain ⟨image, lines, haccounts⟩ := Chain.process_accounts _ _ _ _ _ _ hreturn
    exact ⟨output, report, image, lines, hreturn, hcounts, hchanged, haccounts⟩

end JarRemap
