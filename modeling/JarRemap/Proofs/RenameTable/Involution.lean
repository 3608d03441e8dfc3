import JarRemap.Proofs.RenameTable.Built
import JarRemap.Proofs.RenameTable.Reverse

/-!
# The inverse of the inverse

Where a table is faithful on names and its members stay apart, the rows that undo its rows run into
each other nowhere: they are the rows of the inverse, in the same order. That one row undoes another
is symmetric as soon as descriptors are taken back, so the inverse of the inverse is the table
itself (`RenameTable.reverse_involutive`).
-/

namespace JarRemap

variable {t t' : RenameTable} {names : Set String}

/-! ## Rows that undo each other -/

namespace RenameTable

/-- The second table takes back what the first one makes of a descriptor. -/
def TakesBack (t t' : RenameTable) (d : String) : Prop :=
  ∀ d', renameDescriptor t.newClassName d = .ok d' → renameDescriptor t'.newClassName d' = .ok d

end RenameTable

theorem FieldRename.Reversed.symm {f f' : FieldRename} (h : FieldRename.Reversed t f f')
    (hd : ∀ d ∈ f.descriptor, t.TakesBack t' d) : FieldRename.Reversed t' f' f := by
  refine ⟨h.newName_eq.symm, h.oldName_eq.symm, ?_⟩
  rcases hnone : f.descriptor with _ | d
  · have hok := h.descriptor_ok
    rw [hnone] at hok
    rw [← Except.ok.inj hok]
    rfl
  · obtain ⟨d', hd', hsome⟩ := h.descriptor_some (Option.mem_def.2 hnone)
    obtain hsome : f'.descriptor = some d' := hsome
    rw [hsome, Option.mapM_some, hd d hnone d' hd']
    rfl

theorem MethodRename.Reversed.symm {m m' : MethodRename} (h : MethodRename.Reversed t m m')
    (hd : t.TakesBack t' m.descriptor) : MethodRename.Reversed t' m' m := by
  refine ⟨h.newName_eq.symm, h.oldName_eq.symm, hd _ h.descriptor_ok, ?_⟩
  rw [h.params_eq, List.map_map]
  exact (List.map_id _).symm

/-- Slots stay as they are. -/
theorem MethodRename.Reversed.proper {m m' : MethodRename} (h : MethodRename.Reversed t m m')
    (hm : m.Proper) : m'.Proper := by
  constructor
  · rw [h.params_eq, List.map_map]
    exact hm.slots_nodup
  · rw [h.params_eq]
    exact List.forall_mem_map.2 hm.slots_lt

namespace ClassRename.Reversed

variable {c c' : ClassRename}

theorem symm (h : ClassRename.Reversed t c c')
    (hfields : ∀ f ∈ c.fields, ∀ d ∈ f.descriptor, t.TakesBack t' d)
    (hmethods : ∀ m ∈ c.methods, t.TakesBack t' m.descriptor) : ClassRename.Reversed t' c' c := by
  refine ⟨h.newName_eq.symm, h.oldName_eq.symm, ?_, ?_⟩
  · have hrows := (List.forall₂_and_left _ _).2 ⟨hfields, h.fields⟩
    exact List.Forall₂.flip (hrows.imp fun f f' hf => hf.2.symm hf.1)
  · have hrows := (List.forall₂_and_left _ _).2 ⟨hmethods, h.methods⟩
    exact List.Forall₂.flip (hrows.imp fun m m' hm => hm.2.symm hm.1)

/-- If new names stay apart, the row that undoes a proper one is proper. -/
theorem proper (h : ClassRename.Reversed t c c') (hc : c.Proper)
    (hfields : (c.fields.map (·.newName)).Nodup)
    (hmethods : (c.methods.map fun m =>
      (m.newName, renameDescriptor t.newClassName m.descriptor)).Nodup) : c'.Proper := by
  refine ⟨⟨?_, ?_⟩, forall_of_forall₂ (fun _ _ hm => hm.proper) h.methods hc.methods⟩
  · rwa [map_eq_of_forall₂ (g := FieldRename.oldName) (fun _ _ hf => hf.oldName_eq) h.fields]
  · have hkeys : c'.methods.map (fun m => (m.oldName, Except.ok m.descriptor)) =
        c.methods.map fun m => (m.newName, renameDescriptor t.newClassName m.descriptor) :=
      map_eq_of_forall₂ (fun _ _ hm => by rw [hm.oldName_eq, hm.descriptor_ok]) h.methods
    rw [← hkeys] at hmethods
    refine List.Nodup.of_map (fun p => (p.1, (Except.ok p.2 : Except DescriptorError String))) ?_
    rwa [List.map_map]

end ClassRename.Reversed

namespace RenameTable

/-- Reversing a row gives the row that undoes it. -/
theorem reverseClass_of_reversed {c c' : ClassRename} (h : ClassRename.Reversed t c c') :
    t.reverseClass c = .ok c' := by
  refine except_bind_ok_iff.2 ⟨c'.fields, mapM_ok_of_forall₂ (h.fields.imp fun f f' hf => ?_),
    except_bind_ok_iff.2 ⟨c'.methods, mapM_ok_of_forall₂ (h.methods.imp fun m m' hm => ?_), ?_⟩⟩
  · rw [hf.descriptor_ok, ← hf.oldName_eq, ← hf.newName_eq]
    rfl
  · rw [hm.descriptor_ok, ← hm.oldName_eq, ← hm.newName_eq, ← hm.params_eq]
    rfl
  · rw [← h.oldName_eq, ← h.newName_eq]
    rfl

/-- The mapped names of the members of a class stay apart, those of methods together with their
descriptors in the new names. -/
structure MembersApart (t : RenameTable) (c : ClassRename) : Prop where
  fields_nodup : (c.fields.map (·.newName)).Nodup
  methods_nodup :
    (c.methods.map fun m => (m.newName, renameDescriptor t.newClassName m.descriptor)).Nodup

/-- The rows of the inverse are those that undo the rows of the table. -/
theorem reverse_classes (hproper : t.Proper) (hfaithful : t.FaithfulOn names)
    (hmembers : ∀ c ∈ t.classes, t.MembersApart c) (h : t.reverse = .ok t') :
    List.Forall₂ (ClassRename.Reversed t) t.classes t'.classes := by
  obtain ⟨rows, hrows, rfl⟩ := reverse_ok h
  have holdNames : rows.map (·.oldName) = t.classes.map (·.newName) :=
    map_eq_of_forall₂ (fun _ _ hc => hc.oldName_eq) hrows
  have hproper' : ∀ c' ∈ rows, c'.Proper := by
    intro c' hc'
    obtain ⟨c, hc, hreversed⟩ := exists_left_of_mem hrows hc'
    exact hreversed.proper (hproper.rows c hc) (hmembers c hc).fields_nodup
      (hmembers c hc).methods_nodup
  have hnodup : (rows.map (·.oldName)).Nodup := by
    rw [holdNames]
    exact nodup_newNames hproper.wellFormed hfaithful
  rwa [foldl_merge_eq (t := empty) hproper' hnodup]

/-- A table that is built, and that is one-to-one on names and on the members of each class, has an
inverse. It takes names back, and its own inverse is the table. -/
theorem reverse_involutive (hbuilt : t.Built) (hfaithful : t.FaithfulOn names)
    (hdescriptors : ∀ c ∈ t.classes, c.HasDescriptors)
    (hmembers : ∀ c ∈ t.classes, t.MembersApart c) :
    ∃ t', t.reverse = .ok t' ∧ (∀ name ∈ names, t'.newClassName (t.newClassName name) = name) ∧
      t'.reverse = .ok t := by
  have hproper := hbuilt.proper
  obtain ⟨t', h⟩ := reverse_succeeds_iff.2 hdescriptors
  refine ⟨t', h, fun name hname => newClassName_reverse hproper.wellFormed hfaithful h hname, ?_⟩
  have hrows := reverse_classes hproper hfaithful hmembers h
  -- The rows undo each other, for the inverse takes the descriptors in them back.
  have hback : t'.classes.mapM t'.reverseClass = .ok t.classes := by
    refine mapM_ok_of_forall₂ (List.Forall₂.flip ?_)
    refine ((List.forall₂_and_left _ _).2 ⟨fun _ hc => hc, hrows⟩).imp ?_
    rintro c c' ⟨hc, hreversed⟩
    refine reverseClass_of_reversed
      (hreversed.symm (fun f hf d hd d' hd' => ?_) fun m hm d' hd' => ?_)
    · exact renameDescriptor_reverse hproper.wellFormed hfaithful h
        (hfaithful.fields_only c hc f hf d hd) hd'
    · exact renameDescriptor_reverse hproper.wellFormed hfaithful h
        (hfaithful.methods_only c hc m hm) hd'
  rw [reverse, hback]
  exact congrArg Except.ok hproper.foldl_merge_classes

/-- A class with members that mention a class nested in it, and one that keeps its name. -/
def nestingSteps : List TableStep :=
  [.addClass "a" "net/Foo", .addField "a" ⟨"b", "count", some "La$1;"⟩,
    .addMethod "a" "c" "(La$1;)V" "merge", .addParam "a" "c" "(La$1;)V" 2 "p1" "right",
    .addParam "a" "c" "(La$1;)V" 1 "p0" "left", .keepClass "d"]

/-- The table that these steps build. -/
def nestingTable : RenameTable :=
  nestingSteps.foldl TableStep.apply .empty

theorem classes_nestingTable : nestingTable.classes =
    [⟨"a", "net/Foo", [⟨"b", "count", some "La$1;"⟩],
      [⟨"c", "(La$1;)V", "merge", [⟨2, "p1", "right"⟩, ⟨1, "p0", "left"⟩]⟩]⟩,
      ⟨"d", "d", [], []⟩] := by
  decide

theorem descriptor_nesting {s : String} (hs : s = "La$1;" ∨ s = "(La$1;)V") :
    IsDescriptor s ∧ NamesOnly {"a", "a$1", "d"} s := by
  have hnames : ∀ s ∈ ["La$1;", "(La$1;)V"],
      (Descriptor.parse s).toOption.map Descriptor.classNames = some ["a$1"] := by
    decide +kernel
  have hs := hnames s (by simpa using hs)
  rcases hparse : Descriptor.parse s with e | d
  · rw [hparse] at hs
    cases hs
  · rw [hparse] at hs
    refine ⟨⟨d, hparse⟩, fun d' hd' name hname => ?_⟩
    obtain rfl := Except.ok.inj (hparse.symm.trans hd')
    rw [Option.some.inj hs, List.mem_singleton] at hname
    exact hname ▸ by simp

theorem faithfulOn_nestingTable : nestingTable.FaithfulOn {"a", "a$1", "d"} where
  injOn := by
    have hnames : ∀ a ∈ ["a", "a$1", "d"], ∀ b ∈ ["a", "a$1", "d"],
        nestingTable.newClassName a = nestingTable.newClassName b → a = b := by
      decide
    intro a ha b hb
    exact hnames a (by simpa using ha) b (by simpa using hb)
  rows_mem := by simp [classes_nestingTable]
  fields_only := by
    simp only [classes_nestingTable, List.forall_mem_cons]
    simpa using (descriptor_nesting (.inl rfl)).2
  methods_only := by
    simp only [classes_nestingTable, List.forall_mem_cons]
    simpa using (descriptor_nesting (.inr rfl)).2
  closed := by
    intro front back hmem
    have hcut : '$' ∈ (front ++ "$" ++ back).toList := by simp
    rcases hmem with h | h | h
    · rw [h] at hcut
      exact absurd hcut (by decide)
    · have hlist : front.toList ++ '$' :: back.toList = ['a', '$', '1'] := by
        simpa using congrArg String.toList h
      rcases hfront : front.toList with _ | ⟨c, _ | ⟨d, rest⟩⟩
      · simp [hfront] at hlist
      · rw [hfront] at hlist
        obtain rfl := (List.cons.inj hlist).1
        exact .inl (String.toList_inj.1 hfront)
      · simp [hfront, List.append_eq_cons_iff] at hlist
    · rw [h] at hcut
      exact absurd hcut (by decide)
  newNames := by
    simp only [classes_nestingTable, List.forall_mem_cons]
    refine ⟨⟨by decide, by decide⟩, ⟨by decide, by decide⟩, by simp⟩

theorem reverse_involutive_nesting :
    ∃ t', nestingTable.reverse = .ok t' ∧
      t'.newClassName (nestingTable.newClassName "a$1") = "a$1" ∧
      t'.reverse = .ok nestingTable := by
  have hdescriptors : ∀ c ∈ nestingTable.classes, c.HasDescriptors := by
    simp only [classes_nestingTable, List.forall_mem_cons]
    refine ⟨⟨?_, ?_⟩, ⟨by simp, by simp⟩, by simp⟩
    · simpa using (descriptor_nesting (.inl rfl)).1
    · simpa using (descriptor_nesting (.inr rfl)).1
  have hmembers : ∀ c ∈ nestingTable.classes, nestingTable.MembersApart c := by
    simp only [classes_nestingTable, List.forall_mem_cons]
    refine ⟨⟨by simp, by simp⟩, ⟨by simp, by simp⟩, by simp⟩
  obtain ⟨t', h, hnames, hback⟩ := reverse_involutive (Built.empty.foldl nestingSteps)
    faithfulOn_nestingTable hdescriptors hmembers
  exact ⟨t', h, hnames "a$1" (by simp), hback⟩

end RenameTable

end JarRemap
