import JarRemap.CommandLine.Execute
import JarRemap.Proofs.Host.Directory
import JarRemap.Proofs.RenameTable.Written
import JarRemap.Proofs.Stateful

/-!
# Tables in files

From the text that the command for reversing writes, a run reads the table that it would have made
by reversing itself (`Session.prepare_of_reverseCommand`).
-/

namespace JarRemap.Session

variable {s s' : Session} {mapping output path text : String} {t t' : RenameTable}

/-! ## Tables -/

theorem table_run (h : host.text? path s = (some text, s)) :
    host.table path s = (RenameTable.parse text, s) :=
  (lift_bind_stateful h).trans rfl

theorem tableFor_ok_iff (h : host.text? path s = (some text, s)) (reverse : Bool) :
    host.tableFor path reverse s = (.ok t', s') ↔
      (∃ t, RenameTable.parse text = .ok t ∧
        if reverse then t.reverse = .ok t' else t = t') ∧ s' = s := by
  have hresult : ∀ (t : RenameTable) (s : Session),
      (if reverse then failWith .descriptor t.reverse else return t :
        ExceptT TableError (StateM Session) RenameTable) s = (.ok t', s') ↔
      (if reverse then t.reverse = .ok t' else t = t') ∧ s' = s := by
    intro t s
    cases reverse with
    | false => exact pure_stateful_ok_iff
    | true => exact failWith_stateful_ok_iff
  rw [Host.tableFor, bind_stateful_ok_iff, table_run h]
  simp only [hresult]
  constructor
  · rintro ⟨t, s₁, hread, hresult⟩
    obtain ⟨hparse, rfl⟩ := Prod.mk.injEq .. ▸ hread
    exact ⟨⟨t, hparse, hresult.1⟩, hresult.2⟩
  · rintro ⟨⟨t, hparse, hresult⟩, rfl⟩
    exact ⟨t, s', congrArg (·, s') hparse, hresult, rfl⟩

/-! ## Settings -/

/-- There is a file at the path. -/
def HasFile (s : Session) (path : String) : Prop :=
  ∃ data, s.directory.look path = .file data

theorem isNone_file?_iff : ((host.file? path s).1.isNone = true) ↔ ¬s.HasFile path := by
  have hfile : (host.file? path s).1 = (s.directory.look path).file? := rfl
  rw [hfile, HasFile]
  cases s.directory.look path <;> simp [Found.file?]

theorem file?_bind {ε α : Type} (f : Option Bytes → ExceptT ε (StateM Session) α) :
    (liftM (host.file? path) >>= f : ExceptT ε (StateM Session) α) s = f (host.file? path s).1 s :=
  rfl

theorem libraries_ok_iff {libraries : List String} {u : Unit} :
    (libraries.forM fun path => do
      if (← host.file? path).isNone then throw (.noLibrary path) :
        ExceptT SettingsError (StateM Session) Unit) s = (.ok u, s') ↔
      (∀ path ∈ libraries, s.HasFile path) ∧ s' = s := by
  rw [List.forM_eq_forM]
  induction libraries generalizing s with
  | nil =>
    rw [List.forM_nil, pure_stateful_ok_iff]
    simp
  | cons path libraries ih =>
    rw [List.forM_cons, bind_stateful_ok_iff]
    simp only [ih, file?_bind, last_check_stateful_ok_iff, isNone_file?_iff, not_not,
      List.forall_mem_cons]
    constructor
    · rintro ⟨-, s₁, ⟨hpath, rfl⟩, hrest, rfl⟩
      exact ⟨⟨hpath, hrest⟩, rfl⟩
    · rintro ⟨⟨hpath, hrest⟩, rfl⟩
      exact ⟨(), s', ⟨hpath, rfl⟩, hrest, rfl⟩

/-- Settings pass their check if there are files where they name some. -/
theorem check_ok_iff {settings : RunSettings} :
    settings.check host s = (.ok (), s') ↔ (settings.threads ≠ 0 ∧
      s.HasFile settings.input ∧ (∀ path ∈ settings.libraries, s.HasFile path) ∧
      (settings.reverse = true → settings.mapping.isSome = true)) ∧ s' = s := by
  simp only [RunSettings.check, check_stateful_ok_iff, file?_bind, isNone_file?_iff, not_not,
    bind_stateful_ok_iff, libraries_ok_iff, last_check_stateful_ok_iff]
  constructor
  · rintro ⟨hthreads, hinput, -, s₁, ⟨hlibraries, rfl⟩, hreverse, rfl⟩
    exact ⟨⟨hthreads, hinput, hlibraries, by simpa [Option.isSome_iff_ne_none] using hreverse⟩, rfl⟩
  · rintro ⟨⟨hthreads, hinput, hlibraries, hreverse⟩, rfl⟩
    exact ⟨hthreads, hinput, (), s', ⟨hlibraries, rfl⟩,
      by simpa [Option.isSome_iff_ne_none] using hreverse, rfl⟩

theorem prepare_ok {settings : RunSettings} (hpath : settings.mapping = some path)
    (hcheck : settings.check host s = (.ok (), s))
    (htable : host.tableFor path settings.reverse s = (.ok t, s)) :
    ∃ s', settings.prepare host s = (.ok (some t), s') := by
  let line := s!"loaded {t.size} class mappings from {path}"
  refine ⟨(host.log line s).2, ?_⟩
  rw [RunSettings.prepare, hpath]
  refine bind_stateful_ok_iff.2 ⟨(), s, adapt_stateful_ok_iff.2 hcheck, ?_⟩
  exact bind_stateful_ok_iff.2 ⟨t, s, adapt_stateful_ok_iff.2 htable, rfl⟩

/-! ## Reversing -/

/-- The command for reversing succeeds if the table has an inverse that can be written to the
output, and does no more than to write it there. -/
theorem reverseCommand_ok_iff (htext : host.text? mapping s = (some text, s)) {d : Directory} :
    (∃ s', reverseCommand host mapping output s = (.ok (), s') ∧ s'.directory = d) ↔
      ∃ t', host.tableFor mapping true s = (.ok t', s) ∧
        s.directory.write output t'.write.toUTF8.toList = some d := by
  constructor
  · rintro ⟨s', h, rfl⟩
    obtain ⟨t', s₁, htable, hrest⟩ := bind_stateful_ok_iff.1 h
    rw [adapt_stateful_ok_iff] at htable
    obtain ⟨-, rfl⟩ := (tableFor_ok_iff htext true).1 htable
    refine ⟨t', htable, ?_⟩
    obtain ⟨written, s₂, hwrite, hlog⟩ := bind_stateful_ok_iff.1 hrest
    rw [check_stateful_ok_iff, Bool.not_eq_true, Bool.not_eq_false'] at hlog
    obtain ⟨rfl, hlog⟩ := hlog
    obtain ⟨d, hd, rfl⟩ := writeText_eq_true_iff.1 (lift_stateful_ok_iff.1 hwrite)
    obtain ⟨⟩ := lift_stateful_ok_iff.1 hlog
    exact hd
  · rintro ⟨t', htable, hwrite⟩
    let size := t'.size
    let line := s!"Wrote {size} reversed class mappings to {output}"
    refine ⟨(host.log line { s with directory := d }).2, ?_, rfl⟩
    refine bind_stateful_ok_iff.2 ⟨t', s, adapt_stateful_ok_iff.2 htable, ?_⟩
    have hwritten := writeText_eq_true_iff.2 ⟨d, hwrite, rfl⟩
    refine bind_stateful_ok_iff.2 ⟨true, _, lift_stateful_ok_iff.2 hwritten, ?_⟩
    exact check_stateful_ok_iff.2 ⟨Bool.false_ne_true, rfl⟩

/-- Runs that reverse the table in the file at `mapping` use this table, and so do the same runs in
the second session if they use the one in the file at `output` as it is. -/
def SharedTable (s s' : Session) (mapping output : String) (t : RenameTable) : Prop :=
  ∀ settings : RunSettings, settings.mapping = some mapping → settings.reverse = true →
    settings.check host s = (.ok (), s) →
      (∃ s₁, settings.prepare host s = (.ok (some t), s₁)) ∧
      ∃ s₁, RunSettings.prepare host { settings with mapping := some output, reverse := false } s' =
        (.ok (some t), s₁)

/-- A run that reverses the table in a file uses the table that a run reads from what the command
for reversing wrote. -/
theorem prepare_of_reverseCommand (htext : host.text? mapping s = (some text, s))
    (hformat : TableFormat.detect (TableLine.ofText text) ≠ .ok .srg)
    (hparse : RenameTable.parse text = .ok t) (hnames : t.WritableNames)
    (h : reverseCommand host mapping output s = (.ok (), s')) :
    ∃ t', t.reverse = .ok t' ∧ SharedTable s s' mapping output t' := by
  obtain ⟨t', htable, hwrite⟩ := (reverseCommand_ok_iff htext).1 ⟨s', h, rfl⟩
  obtain ⟨⟨t₁, hparse₁, hreverse⟩, -⟩ := (tableFor_ok_iff htext true).1 htable
  obtain rfl : t = t₁ := Except.ok.inj (hparse.symm.trans hparse₁)
  rw [if_pos rfl] at hreverse
  obtain ⟨hbuilt, hspellable⟩ := RenameTable.spelled_of_parse hformat hparse
  obtain ⟨hbuilt', hspellable'⟩ :=
    RenameTable.spelled_of_reverse hbuilt hspellable hnames hreverse
  have hread : host.tableFor output false s' = (.ok t', s') := by
    refine (tableFor_ok_iff (text?_of_write hwrite) false).2 ⟨⟨t', ?_, rfl⟩, rfl⟩
    exact RenameTable.parse_write_iff.2 ⟨hbuilt', hspellable'⟩
  refine ⟨t', hreverse, fun settings hmapping hreverse hcheck => ⟨?_, ?_⟩⟩
  · exact prepare_ok hmapping hcheck (hreverse ▸ htable)
  · refine prepare_ok rfl (check_ok_iff.2 ⟨?_, rfl⟩) hread
    obtain ⟨⟨hthreads, hinput, hlibraries, -⟩, -⟩ := check_ok_iff.1 hcheck
    have hfile : ∀ {path : String}, s.HasFile path → s'.HasFile path :=
      fun ⟨_, hlook⟩ => Directory.exists_look_write hwrite hlook
    exact ⟨hthreads, hfile hinput, fun path hpath => hfile (hlibraries path hpath), by simp⟩

/-- Tables that are built with words, and no others, are read back from their text. Every text but
one in SRG gives such a table, whose inverse is one too if the new names of classes can be written.
So a run that reverses a table uses the one that a run reads from what the command for reversing
wrote. -/
theorem tables_read_back :
    (∀ t : RenameTable, RenameTable.parse t.write = .ok t ↔ t.Built ∧ t.Spellable) ∧
    (∀ (text : String) (t : RenameTable), TableFormat.detect (TableLine.ofText text) ≠ .ok .srg →
      RenameTable.parse text = .ok t → t.Built ∧ t.Spellable) ∧
    (∀ t t' : RenameTable, t.Built → t.Spellable → t.WritableNames → t.reverse = .ok t' →
      t'.Built ∧ t'.Spellable) ∧
    ∀ (s s' : Session) (mapping output text : String) (t : RenameTable),
      host.text? mapping s = (some text, s) →
      TableFormat.detect (TableLine.ofText text) ≠ .ok .srg →
      RenameTable.parse text = .ok t → t.WritableNames →
      reverseCommand host mapping output s = (.ok (), s') →
      ∃ t', t.reverse = .ok t' ∧ SharedTable s s' mapping output t' :=
  ⟨fun _ => RenameTable.parse_write_iff, fun _ _ => RenameTable.spelled_of_parse,
    fun _ _ => RenameTable.spelled_of_reverse, fun _ _ _ _ _ _ => prepare_of_reverseCommand⟩

/-- A table with a comment, and with parameters that are not in the order of their slots. -/
def mergingText : String :=
  "tsrg2 left right\na net/Foo\n\tc (La;)V merge # both\n\t\t2 p other\n\t\t1 q mine\n"

/-- What the text says. -/
def mergingTable : RenameTable :=
  ⟨[⟨"a", "net/Foo", [], [⟨"c", "(La;)V", "merge", [⟨2, "p", "other"⟩, ⟨1, "q", "mine"⟩]⟩]⟩]⟩

/-- The inverse of the table. -/
def mergingInverse : RenameTable :=
  ⟨[⟨"net/Foo", "a", [],
    [⟨"merge", "(Lnet/Foo;)V", "c", [⟨2, "other", "p"⟩, ⟨1, "mine", "q"⟩]⟩]⟩]⟩

/-- The settings of a run that reverses the table. -/
def mergingSettings : RunSettings :=
  { input := "a.jar", output := none, libraries := [], mapping := some "in.tsrg", reverse := true
    threads := 1, repairs := .nothing }

theorem tables_read_back_merging : ∃ s s' : Session,
    host.text? "in.tsrg" s = (some mergingText, s) ∧
    reverseCommand host "in.tsrg" "out.tsrg" s = (.ok (), s') ∧
    RenameTable.parse mergingInverse.write = .ok mergingInverse ∧
    (∃ s₁, mergingSettings.prepare host s = (.ok (some mergingInverse), s₁)) ∧
    ∃ s₁, RunSettings.prepare host
      { mergingSettings with mapping := some "out.tsrg", reverse := false } s' =
        (.ok (some mergingInverse), s₁) := by
  obtain ⟨hread, hparse, hreverse, hrun⟩ := tables_read_back
  have hmapping : RenameTable.parse mergingText = .ok mergingTable := by decide +kernel
  have hinverse : mergingTable.reverse = .ok mergingInverse := by decide +kernel
  have hformat : TableFormat.detect (TableLine.ofText mergingText) ≠ .ok .srg := by decide +kernel
  have hnames : mergingTable.WritableNames := by simp [mergingTable, RenameTable.WritableNames]
  let before : Directory := ⟨[(["a.jar"], [])]⟩
  let s : Session := .start (before.put ["in.tsrg"] mergingText.toUTF8.toList)
  have hwrite : before.write "in.tsrg" mergingText.toUTF8.toList = some s.directory :=
    Directory.write_eq_some_iff.2 ⟨["in.tsrg"], by decide +kernel, by decide +kernel, rfl⟩
  have htext : host.text? "in.tsrg" s = (some mergingText, s) := text?_of_write hwrite
  have houtput : s.directory.write "out.tsrg" mergingInverse.write.toUTF8.toList =
      some (s.directory.put ["out.tsrg"] mergingInverse.write.toUTF8.toList) :=
    Directory.write_eq_some_iff.2 ⟨["out.tsrg"], by decide +kernel, by decide +kernel, rfl⟩
  have htable : host.tableFor "in.tsrg" true s = (.ok mergingInverse, s) :=
    (tableFor_ok_iff htext true).2 ⟨⟨mergingTable, hmapping, hinverse⟩, rfl⟩
  obtain ⟨s', hcommand, -⟩ := (reverseCommand_ok_iff htext).2 ⟨mergingInverse, htable, houtput⟩
  have hinput : s.HasFile "a.jar" :=
    have hbefore : before.look "a.jar" = .file [] := by decide +kernel
    Directory.exists_look_write hwrite hbefore
  obtain ⟨hbuilt, hspellable⟩ := hparse mergingText mergingTable hformat hmapping
  obtain ⟨hbuilt', hspellable'⟩ :=
    hreverse mergingTable mergingInverse hbuilt hspellable hnames hinverse
  obtain ⟨t', ht', htables⟩ :=
    hrun s s' "in.tsrg" "out.tsrg" mergingText mergingTable htext hformat hmapping hnames hcommand
  obtain rfl : mergingInverse = t' := Except.ok.inj (hinverse.symm.trans ht')
  have hcheck : mergingSettings.check host s = (.ok (), s) :=
    check_ok_iff.2 ⟨⟨by decide, hinput, by simp [mergingSettings], by decide⟩, rfl⟩
  obtain ⟨hfirst, hsecond⟩ := htables mergingSettings rfl rfl hcheck
  exact ⟨s, s', htext, hcommand, (hread _).2 ⟨hbuilt', hspellable'⟩, hfirst, hsecond⟩

end JarRemap.Session
