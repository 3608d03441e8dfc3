import JarRemap.Proofs.RoundTrip
import JarRemap.Proofs.Rename.AttributePass
import JarRemap.Rename.Renaming

/-!
# Renaming a class of an archive

The passes are put together: first the pool, then the members and the attributes, which add to the
pool that the first pass left. What is written is a class file again, and reading it gives the
renamed class.
-/

namespace JarRemap

open ConstantPool RenamePass

variable {r : Remapper} {owner : String}

/-! ## The passes together -/

/-- What the pool holds after the first pass, it holds in the end. -/
theorem PoolTurned.grows {attributes : List Attribute} {source new final : ConstantPool}
    (h : PoolTurned r attributes source new final) (hgrows : new.Grows Constant.IsAnchor final) :
    PoolTurned r attributes source final final := by
  refine ⟨hgrows.valid, h.size_le.trans hgrows.size_le, ?_, h.carries.trans hgrows.carries, ?_, ?_⟩
  · exact hgrows.size_le_max.trans (max_le h.size_le_max (le_max_right _ _))
  · intro i k hk
    obtain ⟨k', hk', hrenamed⟩ := h.renamed i k hk
    exact ⟨k', hgrows.kept i k' hk', hrenamed⟩
  · intro i k hnone hk
    rcases hgrows.added i k hk with hk | ⟨hle, hk⟩
    · exact h.added i k hnone hk
    · exact ⟨h.size_le.trans hle, hk⟩

/-- What the passes behind the first one yield. -/
theorem Yields.renameMembers (c : ClassFile) (final : ConstantPool) :
    Yields r c.pool final
      (do
        let fields ← c.fields.mapM (r.pass c.pool owner).renameField
        let methods ← c.methods.mapM (r.pass c.pool owner).renameMethod
        let attributes ← c.attributes.mapM ((r.pass c.pool owner).renameAttribute .ofClass)
        return { c with fields, methods, attributes })
      fun c' => ClassRenamed r owner c { c' with pool := final } := by
  refine (mapM fun m _ => renameMember .field (fun _ _ => .ofField) m).bind fun fields => ?_
  refine (mapM fun m _ => renameMember .method
    (fun name descriptor => .ofMethod name descriptor (m.access.contains .staticFlag)) m).bind
    fun methods => ?_
  refine (mapM fun a _ => renameAttribute .ofClass a).map fun attributes ha hm hf => ?_
  exact ⟨rfl, rfl, rfl, rfl, rfl, rfl, hf, hm, ha⟩

theorem renameClass_ensures (c : ClassFile) (hvalid : c.pool.Valid)
    (hsize : c.pool.size ≤ maxSize) :
    Renaming.Ensures r (c.rename r.table (Renaming.memberName r) owner) fun c' =>
      PoolTurned r c.attributes c.pool c'.pool c'.pool ∧ ClassRenamed r owner c c' := by
  have hrun : Renaming.Ensures r ((r.pass c.pool owner).renameClass c c.pool) fun result =>
      PoolTurned r c.attributes c.pool result.2 result.2 ∧
        ClassRenamed r owner c { result.1 with pool := result.2 } := by
    refine (renamePool_ensures owner c.attributes hvalid hsize).bind ?_
    rintro ⟨⟨⟩, pool⟩ hpool
    have hturned := hpool pool (.refl pool)
    refine (Renaming.Ensures.all fun final : ConstantPool =>
      Yields.renameMembers c final pool hturned.valid hturned.carries).mono ?_
    rintro ⟨c', final⟩ h
    obtain ⟨hgrows, hrenamed⟩ := h final
    exact ⟨(hpool final hgrows.carries).grows hgrows, hrenamed (.refl final)⟩
  exact hrun.bind fun ⟨c', pool⟩ h => .pure h

/-! ## What is written -/

/-- A class that was read has a pool that can be written. -/
theorem ClassFile.valid_of_parse {data : Bytes} {c : ClassFile} (h : parse data = .ok c) :
    c.pool.Valid ∧ c.pool.size ≤ maxSize := by
  obtain ⟨-, -, _, entries, _, hspells, -, hpool, hsize, -⟩ := parse_ok_iff.1 h
  exact ⟨⟨entries, hpool ▸ holds_ofEntries entries, storable_of_forall₂ hspells⟩, hsize⟩

namespace PoolTurned

variable {attributes : List Attribute} {source new : ConstantPool} {i : UInt16}

/-- A pool within the limit of slots stays within it. -/
theorem le_maxSize (h : PoolTurned r attributes source new new) (hsize : source.size ≤ maxSize) :
    new.size ≤ maxSize :=
  h.size_le_max.trans (max_le hsize le_rfl)

/-- A class entry resolves to the new name of the class. -/
theorem className (h : PoolTurned r attributes source new new) {s : String}
    (hs : source.className i = .ok s) :
    ∃ s', r.table.newClassConstant s = .ok s' ∧ new.className i = .ok s' := by
  obtain ⟨name, hi, hname⟩ := className_ok_iff.1 hs
  obtain ⟨k', hk', hrenamed⟩ := h.renamed i _ hi
  cases hrenamed with
  | classEntry hold hnew hfinal =>
    cases hname.symm.trans hold
    exact ⟨_, hnew, className_ok_iff.2 ⟨_, hk', hfinal⟩⟩
  | kept hkept => cases hkept

end PoolTurned

section

variable {c c' : ClassFile}

theorem MemberRenamed.fits {kind : MemberKind} {site : String → String → AttributeSite}
    {old new : ConstantPool} {m m' : Member} (hnames : old.Carries new)
    (h : MemberRenamed r old new owner kind site m m') (hfits : m.Fits old) : m'.Fits new := by
  -- Only that the new slots hold texts is needed, and that attributes keep their lengths.
  obtain ⟨n, d, n', -, -, -, hn'⟩ := h.name_renamed
  obtain ⟨d₁, d', -, -, hd'⟩ := h.descriptor_renamed
  obtain ⟨_, _, -, -, hattributes⟩ := h.attributes_renamed
  exact ⟨⟨n', hn'⟩, ⟨d', hd'⟩,
    hfits.attributes_fit.reencode hnames (hattributes.imp fun _ _ ha => ha.reencoded)⟩

theorem ClassRenamed.fits (h : ClassRenamed r owner c c') (hnames : c.pool.Carries c'.pool)
    (hfits : c.Fits) : c'.Fits := by
  refine ⟨h.interfaces_eq ▸ hfits.interfaces_lt, ⟨?_, ?_⟩, ⟨?_, ?_⟩, ?_⟩
  · exact h.fields_renamed.length_eq ▸ hfits.fields_fit.length_lt
  · exact forall_of_forall₂ (fun _ _ hm hfits => hm.fits hnames hfits) h.fields_renamed
      hfits.fields_fit.fits
  · exact h.methods_renamed.length_eq ▸ hfits.methods_fit.length_lt
  · exact forall_of_forall₂ (fun _ _ hm hfits => hm.fits hnames hfits) h.methods_renamed
      hfits.methods_fit.fits
  · exact hfits.attributes_fit.reencode hnames
      (h.attributes_renamed.imp fun _ _ ha => ha.reencoded)

theorem ClassRenamed.checkNames (h : ClassRenamed r owner c c')
    (hpool : PoolTurned r c.attributes c.pool c'.pool c'.pool) (hnames : c.checkNames = .ok ()) :
    c'.checkNames = .ok () := by
  have hclass : ∀ {i}, (∃ s, c.pool.className i = .ok s) → ∃ s, c'.pool.className i = .ok s := by
    rintro i ⟨s, hs⟩
    obtain ⟨s', -, hs'⟩ := hpool.className hs
    exact ⟨s', hs'⟩
  rw [ClassFile.checkNames_ok_iff] at hnames ⊢
  obtain ⟨hthis, hsuper, hinterfaces⟩ := hnames
  rw [h.thisClass_eq, h.superClass_eq, h.interfaces_eq]
  exact ⟨hclass hthis, hsuper.imp_right hclass, fun i hi => hclass (hinterfaces i hi)⟩

/-- What is written of a renamed class is read back as it stands. -/
theorem ClassRenamed.parse_encode {data : Bytes} (h : ClassRenamed r owner c c')
    (hpool : PoolTurned r c.attributes c.pool c'.pool c'.pool)
    (hparse : ClassFile.parse data = .ok c) :
    ∃ parsed, ClassFile.parse c'.encode = .ok parsed ∧ parsed.Same c' := by
  obtain ⟨hfits, hnames, -⟩ := ClassFile.parse_ok_iff.1 hparse
  obtain ⟨-, hsize⟩ := ClassFile.valid_of_parse hparse
  obtain ⟨entries, hholds, hstorable⟩ := hpool.valid
  refine ⟨_, ClassFile.parse_encode_of_fits hholds hstorable (hpool.le_maxSize hsize)
    (h.fits hpool.carries hfits) (h.checkNames hpool hnames), ?_, rfl⟩
  exact Array.toList_inj.1 ((holds_ofEntries entries).trans hholds.symm)

end

/-! ## Entries of an archive -/

/-- What a renaming makes of an entry: the class in it, whose old name is `owner`, is renamed from
`c` to `c'` and written, unless that changes no byte. -/
structure ClassEntry.Becomes (r : Remapper) (e e' : ClassEntry) (owner : String)
    (c c' : ClassFile) : Prop where
  parse_eq : ClassFile.parse e.data = .ok c
  name_eq : c.name = .ok owner
  entry_eq : e' = if c'.encode = e.data then e
    else { e with name := r.table.newClassName owner, data := c'.encode }
  pool_turned : PoolTurned r c.attributes c.pool c'.pool c'.pool
  class_renamed : ClassRenamed r owner c c'

namespace ClassEntry.Becomes

variable {e e' : ClassEntry} {c c' : ClassFile}

theorem data_eq (h : ClassEntry.Becomes r e e' owner c c') : e'.data = c'.encode := by
  rw [h.entry_eq]
  by_cases hsame : c'.encode = e.data
  · rw [if_pos hsame, hsame]
  · rw [if_neg hsame]

theorem parse_renamed (h : ClassEntry.Becomes r e e' owner c c') :
    ∃ parsed, ClassFile.parse e'.data = .ok parsed ∧ parsed.Same c' := by
  rw [h.data_eq]
  exact h.class_renamed.parse_encode h.pool_turned h.parse_eq

end ClassEntry.Becomes

namespace Renaming

theorem Ensures.parameterLine? (table : RenameTable) (pool : ConstantPool) (method : Member) :
    Ensures r (JarRemap.parameterLine? table (Renaming.memberName r) owner pool method)
      fun _ => True := by
  rw [JarRemap.parameterLine?]
  split
  · exact .pure trivial
  refine (Ensures.orFail _ _).bind fun name _ => ?_
  refine (Ensures.orFail _ _).bind fun descriptor _ => ?_
  refine (Ensures.orFail _ _).bind fun type _ => ?_
  split
  · exact .pure trivial
  refine (Ensures.memberName _).bind fun newName _ => ?_
  exact (Ensures.orFail _ _).bind fun _ _ => .pure trivial

theorem Ensures.forM {α : Type} {f : α → Renaming Unit} (hf : ∀ a, Ensures r (f a) fun _ => True)
    (l : List α) : Ensures r (l.forM f) fun _ => True := by
  induction l with
  | nil => exact .pure trivial
  | cons a l ih => exact (hf a).bind fun _ _ => ih

theorem rename?_ensures (e : ClassEntry) :
    Ensures r (e.rename? r.table (Renaming.memberName r) note) fun found =>
      ∃ owner c c', e.Becomes r (found.getD e) owner c c' := by
  refine (Ensures.orFail _ _).bind fun c hc => ?_
  refine (Ensures.orFail _ _).bind fun owner howner => ?_
  refine (Ensures.forM (fun method => ?_) c.methods).bind fun _ _ => ?_
  · refine (Ensures.parameterLine? r.table c.pool method).bind fun line _ => ?_
    rcases line with _ | line
    · exact .pure trivial
    · exact .note line
  obtain ⟨hvalid, hsize⟩ := ClassFile.valid_of_parse hc
  refine (renameClass_ensures c hvalid hsize).bind fun c' ⟨hpool, hrenamed⟩ => ?_
  dsimp only
  split
  case isTrue hsame => exact .pure ⟨owner, c, c', hc, howner, (if_pos hsame).symm, hpool, hrenamed⟩
  case isFalse hsame => exact .pure ⟨owner, c, c', hc, howner, (if_neg hsame).symm, hpool, hrenamed⟩

theorem processClass_ensures (e : ClassEntry) :
    Ensures r (processClass r e) fun e' => ∃ owner c c', e.Becomes r e' owner c c' := by
  refine (rename?_ensures e).bind fun found hfound => ?_
  rcases found with _ | renamed
  · exact .pure hfound
  · have hcount : Ensures r (modify fun s => { s with changed := s.changed + 1 }) fun _ => True :=
      .modify fun _ hs => hs
    exact hcount.bind fun _ _ => .pure hfound

/-! ## Runs -/

/-- A state that a renaming comes to, class by class, whether or not they can be renamed. -/
inductive Reachable (r : Remapper) : RenamingState → Prop
  | start : Reachable r .start
  | step {s : RenamingState} (e : ClassEntry) : Reachable r s → Reachable r (processClass r e s).2

theorem Reachable.good {s : RenamingState} (h : Reachable r s) : s.Good r := by
  induction h with
  | start => exact Remapper.good_empty
  | step e _ ih => exact (processClass_ensures e _ ih).1

/-- Whatever has been renamed before, an entry that is renamed becomes what the table and the
classes say. -/
theorem Reachable.becomes {s s' : RenamingState} {e e' : ClassEntry} (hs : Reachable r s)
    (h : processClass r e s = (.ok e', s')) : ∃ owner c c', e.Becomes r e' owner c c' :=
  (processClass_ensures e s hs.good).2 e' (congrArg Prod.fst h)

end Renaming

end JarRemap
