import JarRemap.Proofs.Repair.Attribute
import JarRemap.Repair.Source

/-!
# The repair of the source file

A class is settled if its source file is named after it. The repair leaves such a class alone, and
makes every other one settled, which shows in its bytes.
-/

namespace JarRemap

open ConstantPool

/-- The class has the name of its source file that follows from its own. -/
def SourceSettled (mode : SourceNaming) (c : ClassFile) : Prop :=
  ∃ s, c.name = .ok s ∧ c.sourceFile = .ok (some (mode.sourceName s))

namespace SourceSettled

variable {mode : SourceNaming} {c c' : ClassFile}

/-- It stays settled while its name and the name of its source file resolve as they do. -/
theorem mono (h : SourceSettled mode c) (hkeeps : c.pool.Keeps c'.pool)
    (hthis : c'.thisClass = c.thisClass)
    (hfind : findAttribute? sourceFileName c'.attributes =
      findAttribute? sourceFileName c.attributes) : SourceSettled mode c' := by
  obtain ⟨s, hname, hsource⟩ := h
  refine ⟨s, ?_, textAttribute_congr hkeeps hfind hsource⟩
  unfold ClassFile.name
  rw [hthis]
  exact hkeeps.className hname

theorem repair_eq (h : SourceSettled mode c) : repairSource mode c = (.ok false, c) := by
  obtain ⟨s, hname, hsource⟩ := h
  refine RepairEdit.get_bind_ok_iff.2 (RepairEdit.orFail_bind_ok_iff.2 ⟨s, hname, ?_⟩)
  refine RepairEdit.orFail_bind_ok_iff.2 ⟨_, hsource, ?_⟩
  rw [if_pos rfl]
  rfl

end SourceSettled

/-- What the repair of the source file comes to. -/
theorem repairSource_cases {mode : SourceNaming} {c c' : ClassFile} {changed : Bool}
    (hvalid : c.pool.Valid) (hle : c.pool.size ≤ maxSize)
    (h : repairSource mode c = (.ok changed, c')) :
    (changed = false ∧ c' = c ∧ SourceSettled mode c) ∨
    (changed = true ∧ SourceSettled mode c' ∧ c'.encode ≠ c.encode ∧
      ∃ a i, c.Sets a c' ∧ a.name = sourceFileName ∧ a.info = Bytes.ofUInt16 i) := by
  obtain ⟨s, hname, h⟩ := RepairEdit.orFail_bind_ok_iff.1 (RepairEdit.get_bind_ok_iff.1 h)
  obtain ⟨found, hfound, h⟩ := RepairEdit.orFail_bind_ok_iff.1 h
  by_cases hsame : found = some (mode.sourceName s)
  · rw [if_pos hsame] at h
    obtain ⟨hchanged, rfl⟩ := Prod.mk.inj h
    exact .inl ⟨(Except.ok.inj hchanged).symm, rfl, s, hname, hsame ▸ hfound⟩
  · rw [if_neg hsame] at h
    obtain ⟨⟨⟩, c₁, hset, h⟩ := RepairEdit.edit_bind_ok_iff.1 h
    obtain ⟨hchanged, rfl⟩ := Prod.mk.inj h
    obtain ⟨a, hsets, ha, i, hinfo, hi⟩ :=
      (ClassEdit.makeTextAttribute_makes _ _).sets hvalid hset
    have hsource : c₁.sourceFile = .ok (some (mode.sourceName s)) := by
      unfold ClassFile.sourceFile
      rw [← ha]
      exact hsets.textAttribute_eq hinfo hi
    have hname' : c₁.name = .ok s := by
      rw [hsets.eq]
      exact hsets.grows.className hname
    have hne := hsets.encode_ne hvalid hle hinfo hi (ha ▸ hfound) hsame
    exact .inr ⟨(Except.ok.inj hchanged).symm, ⟨s, hname', hsource⟩, hne, a, i, hsets, ha, hinfo⟩

end JarRemap
