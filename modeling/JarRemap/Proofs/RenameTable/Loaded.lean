import JarRemap.Proofs.RenameTable.Spelling

/-!
# Tables that are read and then reversed

What is wrong with a line is told with its number (`RenameTable.parse_error`), and so is a method
with something else than a descriptor. The descriptor that a line gives a field is not looked at
until the table is reversed. So a text that is read gives a table with an inverse exactly if what it
gives fields are descriptors (`RenameTable.loaded_reverses_iff`). In SRG and CSRG, which give fields
none, it always does (`RenameTable.loaded_reverses`).
-/

namespace JarRemap

/-- A text that is not read has no format that is known, or a line with a problem, which is told
with the number of the line. -/
theorem RenameTable.parse_error {text : String} {e : TableError}
    (h : RenameTable.parse text = .error e) :
    e = .unknownFormat ∨ ∃ line ∈ TableLine.ofText text, ∃ problem,
      e = .line line.number problem (String.ofList line.text) := by
  rcases except_bind_error_iff.1 h with hdetect | ⟨format, -, h⟩
  · exact TableFormat.detect_error hdetect
  · rcases except_bind_error_iff.1 h with hread | ⟨s, -, hdone⟩
    · obtain ⟨line, hline, hproblem⟩ := TableState.foldlM_readLine_error hread
      exact .inr ⟨line, TableFormat.mem_of_mem_body hline, hproblem⟩
    · cases hdone

theorem MethodDescriptor.isDescriptor {s : String} (h : ∃ d, parse s = .ok d) :
    IsDescriptor s := by
  obtain ⟨d, hd⟩ := h
  obtain ⟨hwritable, rfl⟩ := parse_ok_iff.1 hd
  exact ⟨.method d, Descriptor.parse_ok_iff.2 ⟨Descriptor.writable_method_iff.2 hwritable, rfl⟩⟩

/-- The members of the class are listed as the lines of the format list them. -/
structure ClassRename.Checked (format : TableFormat) (c : ClassRename) : Prop where
  methods : ∀ m ∈ c.methods, IsDescriptor m.descriptor
  fields : ∀ f ∈ c.fields, f.descriptor.isSome → format.TypesFields

namespace RenameTable

variable {format : TableFormat} {t : RenameTable} {text : String}

/-- All members are listed as the lines of the format list them. -/
def Checked (format : TableFormat) (t : RenameTable) : Prop :=
  ∀ c ∈ t.classes, c.Checked format

theorem Checked.modifyClass (h : t.Checked format) {f : ClassRename → ClassRename}
    (hf : ∀ c : ClassRename, c.Checked format → (f c).Checked format) (name : String) :
    (t.modifyClass name f).Checked format :=
  forall_upsert h (fun c _ => hf c) (hf _ ⟨by simp [ClassRename.identity],
    by simp [ClassRename.identity]⟩)

theorem Checked.apply (h : t.Checked format) {named : String → Prop} {step : TableStep}
    (htold : step.Told format named) : (step.apply t).Checked format := by
  cases step with
  | addClass oldName newName =>
    exact h.modifyClass (f := fun c => { c with newName }) (fun _ hc => ⟨hc.methods, hc.fields⟩)
      oldName
  | keepClass name => exact absurd htold id
  | addField owner f =>
    obtain ⟨-, -, -, hdescriptor⟩ := htold
    have hfield (hsome : f.descriptor.isSome) : format.TypesFields :=
      (hdescriptor _ (Option.get_mem hsome)).2.2
    refine h.modifyClass (f := fun c => c.addField f) (fun c hc => ⟨hc.methods, ?_⟩) owner
    exact forall_upsert hc.fields (fun _ _ _ => hfield) hfield
  | addMethod owner name descriptor newName =>
    obtain ⟨-, -, -, -, hok⟩ := htold
    refine h.modifyClass (f := fun c => c.addMethod name descriptor newName)
      (fun c hc => ⟨?_, hc.fields⟩) owner
    exact forall_upsert hc.methods (fun _ _ hm => hm) (MethodDescriptor.isDescriptor hok)
  | addParam owner name descriptor slot oldName newName =>
    refine h.modifyClass
      (f := fun c => c.addParam name descriptor ⟨slot.toNat, oldName, newName⟩)
      (fun c hc => ⟨List.forall_mem_map.2 fun m hm => ?_, hc.fields⟩) owner
    split
    · exact hc.methods m hm
    · exact hc.methods m hm

theorem checked_of_reached {lines : List TableLine} {s : TableState}
    (h : TableState.Reached format lines s) : s.table.Checked format := by
  induction h with
  | start =>
    intro c hc
    cases hc
  | line _ _ hadds ih =>
    rcases hadds.table with hsame | ⟨step, htold, htable⟩
    · rw [hsame]
      exact ih
    · rw [htable]
      exact ih.apply htold

/-- A table that is read lists members as the lines of its format do. -/
theorem checked_of_parse (h : parse text = .ok t) :
    ∃ format, TableFormat.detect (TableLine.ofText text) = .ok format ∧ t.Checked format := by
  obtain ⟨format, s, hdetect, hreached, rfl⟩ := reached_of_parse h
  exact ⟨format, hdetect, checked_of_reached hreached⟩

/-- A table that is read has an inverse exactly if it gives fields descriptors, if anything: those
of methods have been checked. -/
theorem loaded_reverses_iff (h : parse text = .ok t) :
    (∃ t', t.reverse = .ok t') ↔
      ∀ c ∈ t.classes, ∀ f ∈ c.fields, ∀ d ∈ f.descriptor, IsDescriptor d := by
  obtain ⟨format, -, hchecked⟩ := checked_of_parse h
  rw [reverse_succeeds_iff]
  exact ⟨fun hall c hc => (hall c hc).fields,
    fun hfields c hc => ⟨hfields c hc, (hchecked c hc).methods⟩⟩

/-- A table that is read from a text in SRG or CSRG has an inverse. -/
theorem loaded_reverses (h : parse text = .ok t)
    (hformat : ∀ format, TableFormat.detect (TableLine.ofText text) = .ok format →
      ¬ format.TypesFields) : ∃ t', t.reverse = .ok t' := by
  obtain ⟨format, hdetect, hchecked⟩ := checked_of_parse h
  refine (loaded_reverses_iff h).2 fun c hc f hf d hd => ?_
  exact absurd ((hchecked c hc).fields f hf (Option.isSome_of_mem hd)) (hformat format hdetect)

/-- What a line gives a field is not checked, so a table can be read that cannot be reversed. -/
example : (parse "tsrg2 left right\na b\n\tf Q g\n").map (fun t => t.reverse) =
    .ok (.error (.unexpected "Q" 0 'Q')) := by
  decide +kernel

end RenameTable

end JarRemap
