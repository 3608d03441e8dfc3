import JarRemap.Proofs.Rename.AnnotationPass

/-!
# The pass over attributes

The body of an attribute is read, renamed and written again. Exact formats make this sound: what is
written is what the renamed body parses as, in the pool that the renaming ends with. As a body only
has slots replaced, it stays as long as it was, and so the attributes around it fit as before.

The components of a record have attributes again. These are shorter than the record, which is why a
bound on the depth is never met.
-/

namespace JarRemap

open ConstantPool RenamePass

variable {r : Remapper} {old new source final : ConstantPool} {owner : String}

/-! ## What renaming keeps -/

namespace Attribute.Reencoded

variable {a a' : Attribute}

theorem of_info {info : Bytes} (h : info.length = a.info.length) :
    a.Reencoded { a with info } :=
  ⟨rfl, rfl, h⟩

theorem fits (h : a.Reencoded a') (hnames : old.Carries new) (hfits : a.Fits old) :
    a'.Fits new := by
  refine ⟨?_, h.length_eq ▸ hfits.length_lt⟩
  rw [h.nameIndex_eq, h.name_eq]
  exact hnames.text hfits.name_eq

theorem length_encode_eq (h : a.Reencoded a') : a'.encode.length = a.encode.length := by
  simp only [Attribute.encode, List.length_append, h.length_eq, Bytes.length_ofUInt16,
    Bytes.count32, Bytes.length_ofUInt32]

end Attribute.Reencoded

theorem Attribute.AllFit.reencode {attributes attributes' : List Attribute}
    (h : Attribute.AllFit old attributes) (hnames : old.Carries new)
    (hall : List.Forall₂ Attribute.Reencoded attributes attributes') :
    Attribute.AllFit new attributes' :=
  ⟨hall.length_eq ▸ h.length_lt,
    forall_of_forall₂ (fun _ _ ha hfits => ha.fits hnames hfits) hall h.fits⟩

theorem Attribute.length_encodeAll_eq {attributes attributes' : List Attribute}
    (hall : List.Forall₂ Attribute.Reencoded attributes attributes') :
    (encodeAll attributes').length = (encodeAll attributes).length := by
  rw [encodeAll, encodeAll, List.length_append, List.length_append,
    length_flatMap_eq (fun _ _ h => h.length_encode_eq) hall]
  rfl

theorem CodeAttributeRenamed.reencoded {method descriptor : String} {slots : List ℕ}
    {a a' : Attribute} (h : CodeAttributeRenamed r old new owner method descriptor slots a a') :
    a.Reencoded a' := by
  cases h with
  | localVariables h => exact h
  | localVariableTypes h => exact h
  | other => exact ⟨rfl, rfl, rfl⟩

theorem CodeAttributesRenamed.reencoded {site : AttributeSite}
    {attributes attributes' : List Attribute}
    (h : CodeAttributesRenamed r old new owner site attributes attributes') :
    List.Forall₂ Attribute.Reencoded attributes attributes' := by
  cases site with
  | ofMethod method descriptor isStatic =>
    obtain ⟨slots, -, h⟩ := h
    exact h.imp fun _ _ ha => ha.reencoded
  | _ =>
    obtain rfl : attributes' = attributes := h
    exact List.forall₂_same.2 fun _ _ => ⟨rfl, rfl, rfl⟩

theorem AttributeRenamed.reencoded {site : AttributeSite} {a a' : Attribute}
    (h : AttributeRenamed r old new owner site a a') : a.Reencoded a' := by
  cases h
  case other => exact ⟨rfl, rfl, rfl⟩
  all_goals assumption

/-- Rows of fixed fields take the same number of bytes each. -/
theorem length_flatMap_rows {α : Type} {f : α → Bytes} {n : ℕ} (hf : ∀ a, (f a).length = n)
    (l : List α) : (l.flatMap f).length = l.length * n := by
  induction l with
  | nil => rw [List.length_nil, Nat.zero_mul]; rfl
  | cons a l ih => rw [List.flatMap_cons, List.length_append, hf, ih, List.length_cons,
      Nat.succ_mul, Nat.add_comm]

/-- As many rows of fixed fields take as many bytes and fit as well. -/
theorem RowsFit.keeps {α : Type} {f : α → Bytes} {n : ℕ} (hf : ∀ a, (f a).length = n)
    {rows rows' : List α} (hlength : rows'.length = rows.length) (h : RowsFit anyRow rows) :
    (Bytes.count16 rows' ++ rows'.flatMap f).length =
      (Bytes.count16 rows ++ rows.flatMap f).length ∧
      RowsFit anyRow rows' := by
  refine ⟨?_, hlength ▸ h.1, fun _ _ => trivial⟩
  rw [List.length_append, List.length_append, length_flatMap_rows hf, length_flatMap_rows hf,
    hlength]
  rfl

theorem Attribute.AllFit.mono {attributes : List Attribute} (h : Attribute.AllFit old attributes)
    (hnames : old.Carries new) : Attribute.AllFit new attributes :=
  h.reencode hnames (List.forall₂_same.2 fun _ _ => ⟨rfl, rfl, rfl⟩)

theorem CodeBody.Fits.mono {body : CodeBody} (h : body.Fits old) (hnames : old.Carries new) :
    body.Fits new :=
  ⟨h.code_lt, h.handlers_fit, h.attributes_fit.mono hnames⟩

theorem CodeBody.Fits.reencode {body : CodeBody} {attributes : List Attribute}
    (hnames : old.Carries new) (h : List.Forall₂ Attribute.Reencoded body.attributes attributes)
    (hfits : body.Fits old) :
    (AttributeFormat.code.encode { body with attributes }).length =
      (AttributeFormat.code.encode body).length ∧
      CodeBody.Fits new { body with attributes } := by
  refine ⟨?_, hfits.code_lt, hfits.handlers_fit, hfits.attributes_fit.reencode hnames h⟩
  simp only [AttributeFormat.code, List.length_append, Attribute.length_encodeAll_eq h]

theorem ComponentRenamed.attributes_reencoded {c c' : RecordComponent}
    (h : ComponentRenamed r old new owner c c') :
    List.Forall₂ Attribute.Reencoded c.attributes c'.attributes := by
  cases h with
  | mk _ _ h => exact h.imp fun _ _ ha => ha.reencoded

theorem RecordComponent.rows_keep {rows rows' : List RecordComponent} (hnames : old.Carries new)
    (h : List.Forall₂ (ComponentRenamed r old new owner) rows rows')
    (hfits : RowsFit (RecordComponent.Fits old) rows) :
    (AttributeFormat.recordComponents.encode rows').length =
      (AttributeFormat.recordComponents.encode rows).length ∧
      RowsFit (RecordComponent.Fits new) rows' := by
  refine ⟨?_, h.length_eq ▸ hfits.1, forall_of_forall₂ ?_ h hfits.2⟩
  · have hrow : ∀ c c', ComponentRenamed r old new owner c c' →
        c'.encode.length = c.encode.length := by
      intro c c' hc
      simp only [RecordComponent.encode, List.length_append, Bytes.length_ofUInt16,
        Attribute.length_encodeAll_eq hc.attributes_reencoded]
    simp only [AttributeFormat.recordComponents, List.length_append, length_flatMap_eq hrow h]
    rfl
  · intro c c' hc hcfits
    exact hcfits.reencode hnames hc.attributes_reencoded

/-- An attribute in a component is shorter than the record. -/
theorem RecordComponent.length_lt {rows : List RecordComponent} {c : RecordComponent}
    {a : Attribute} (hc : c ∈ rows) (ha : a ∈ c.attributes) :
    a.info.length < (AttributeFormat.recordComponents.encode rows).length := by
  have hrow := length_le_length_flatMap (f := RecordComponent.encode) hc
  have hattribute := length_le_length_flatMap (f := Attribute.encode) ha
  simp only [AttributeFormat.recordComponents, RecordComponent.encode, Attribute.encodeAll,
    Attribute.encode, List.length_append, Bytes.count16, Bytes.count32, Bytes.length_ofUInt16,
    Bytes.length_ofUInt32] at hrow hattribute ⊢
  omega

theorem MethodParametersRenamed.length_eq {site : AttributeSite}
    {params params' : List MethodParameter}
    (h : MethodParametersRenamed r old new owner site params params') :
    params'.length = params.length := by
  cases site with
  | ofMethod method descriptor isStatic =>
    obtain ⟨slots, -, h⟩ := h
    exact h.length_eq
  | _ =>
    obtain rfl : params' = params := h
    rfl

theorem MethodParameter.rows_keep {rows rows' : List MethodParameter}
    (hlength : rows'.length = rows.length) (h : rows.length < 256 ∧ ∀ p ∈ rows, anyRow p) :
    (AttributeFormat.methodParameters.encode rows').length =
      (AttributeFormat.methodParameters.encode rows).length ∧
      rows'.length < 256 ∧ ∀ p ∈ rows', anyRow p := by
  refine ⟨?_, hlength ▸ h.1, fun _ _ => trivial⟩
  have hrows := length_flatMap_rows (f := MethodParameter.encode) (n := 4) fun _ => rfl
  simp only [AttributeFormat.methodParameters, List.length_append, hrows, hlength]
  rfl

/-! ## Parameters -/

namespace ParametersRenamed

variable {method descriptor : String} {slots : List ℕ} {params params' : List MethodParameter}

theorem nil : ParametersRenamed r old new owner method descriptor slots [] [] :=
  ⟨rfl, fun _ _ _ h => (by cases h), fun _ _ _ _ h => (by cases h), fun _ _ _ h => (by cases h)⟩

theorem no_slots : ParametersRenamed r old new owner method descriptor [] params params := by
  refine ⟨rfl, fun i p p' hp hp' => ?_, fun _ _ _ _ _ _ h => (by cases h),
    fun i p p' hp hp' _ => ?_⟩
  · rw [Option.some.inj (hp.symm.trans hp')]
  · rw [Option.some.inj (hp.symm.trans hp')]

theorem cons {p : MethodParameter} {slot : ℕ} {name : UInt16}
    (hname : p.name ≠ 0 → ParameterNameRenamed r old new owner method descriptor slot p.name name)
    (hnone : p.name = 0 → name = p.name)
    (h : ParametersRenamed r old new owner method descriptor slots params params') :
    ParametersRenamed r old new owner method descriptor (slot :: slots) (p :: params)
      ({ p with name } :: params') := by
  refine ⟨by rw [List.length_cons, List.length_cons, h.length_eq], ?_, ?_, ?_⟩
  · rintro (_ | i) q q' hq hq'
    · cases hq
      cases hq'
      rfl
    · exact h.access_eq i q q' hq hq'
  · rintro (_ | i) q q' t hq hq' ht hne
    · cases hq
      cases hq'
      cases ht
      exact hname hne
    · exact h.name_renamed i q q' t hq hq' ht hne
  · rintro (_ | i) q q' hq hq' hor
    · cases hq
      cases hq'
      rcases hor with hor | hor
      · cases hor
      · exact hnone hor
    · exact h.name_eq i q q' hq hq' hor

end ParametersRenamed

/-! ## What the pass yields -/

namespace Yields

theorem replaceSignature (kind : SignatureKind) (index : UInt16) :
    Yields r source final ((r.pass source owner).replaceSignature kind index)
      fun i => SignatureRenamed r source final kind index i := by
  refine (read _).bind fun s => ?_
  refine (orFail _ _).bind fun s' => ?_
  exact (replaceText index s').mono fun i hi hs' hs => ⟨s, s', hs, hs', hi.2⟩

theorem replaceParameterName (method descriptor : String) (slot : ℕ) (name : UInt16) :
    Yields r source final ((r.pass source owner).replaceParameterName method descriptor slot name)
      fun i => ParameterNameRenamed r source final owner method descriptor slot name i := by
  refine (read _).bind fun s => ?_
  exact (replaceText name _).mono fun i hi hs => ⟨s, hs, hi.2⟩

theorem renameVariable (method descriptor : String) (slots : List ℕ)
    {replaceType : UInt16 → PoolPass Renaming UInt16} {type : UInt16 → UInt16 → Prop}
    (htype : ∀ i, Yields r source final (replaceType i) (type i)) (v : LocalVariable) :
    Yields r source final
      ((r.pass source owner).renameVariable method descriptor slots replaceType v)
      (VariableRenamed r source final owner method descriptor slots type v) := by
  have hparam : (decide (v.start = 0) && slots.contains v.slot.toNat) = true ↔
      v.start = 0 ∧ v.slot.toNat ∈ slots := by
    rw [Bool.and_eq_true, decide_eq_true_iff, List.contains_iff_mem]
  have hrest : ∀ name, Yields r source final
      (do
        let type ← replaceType v.descriptor
        return { v with name, descriptor := type })
      fun v' => (v.start = 0 ∧ v.slot.toNat ∈ slots →
          ParameterNameRenamed r source final owner method descriptor v.slot.toNat v.name name) ∧
        (¬ (v.start = 0 ∧ v.slot.toNat ∈ slots) → name = v.name) →
        VariableRenamed r source final owner method descriptor slots type v v' :=
    fun name => (htype v.descriptor).map fun _ hi hname => ⟨rfl, hi, hname.1, hname.2⟩
  rw [RenamePass.renameVariable]
  by_cases h : v.start = 0 ∧ v.slot.toNat ∈ slots
  · rw [if_pos (hparam.2 h)]
    refine bind ?_ hrest
    exact (replaceParameterName method descriptor _ v.name).mono
      fun i hi => ⟨fun _ => hi, fun hnot => absurd h hnot⟩
  · rw [if_neg (mt hparam.1 h)]
    exact bind (.pure ⟨fun hyes => absurd hyes h, fun _ => rfl⟩) hrest

theorem renameParameters (method descriptor : String) :
    ∀ (params : List MethodParameter) (slots : List ℕ), Yields r source final
      ((r.pass source owner).renameParameters method descriptor params slots)
      (ParametersRenamed r source final owner method descriptor slots params)
  | [], _ => .pure .nil
  | p :: params, [] => .pure .no_slots
  | p :: params, slot :: slots => by
    have hrest : ∀ name, Yields r source final
        (do
          let params ← (r.pass source owner).renameParameters method descriptor params slots
          return { p with name } :: params)
        fun params' => (p.name ≠ 0 →
            ParameterNameRenamed r source final owner method descriptor slot p.name name) ∧
          (p.name = 0 → name = p.name) →
          ParametersRenamed r source final owner method descriptor (slot :: slots) (p :: params)
            params' :=
      fun name => (renameParameters method descriptor params slots).map
        fun _ h hname => .cons hname.1 hname.2 h
    rw [RenamePass.renameParameters]
    by_cases h : p.name = 0
    · rw [if_pos h]
      exact bind (.pure ⟨fun hne => absurd h hne, fun _ => rfl⟩) hrest
    · rw [if_neg h]
      refine bind ?_ hrest
      exact (replaceParameterName method descriptor slot p.name).mono
        fun i hi => ⟨fun _ => hi, fun hz => absurd hz h⟩

/-! ## Bodies -/

/-- A body of an exact format is renamed to a body of the same length, which parses as what the
renaming gives. -/
theorem renameBody {α : Type} {format : AttributeFormat α} {fits : ConstantPool → α → Prop}
    {rename : α → PoolPass Renaming α} {rel : α → α → Prop} {info : Bytes}
    (hexact : format.ExactFor fits)
    (hrename : ∀ body, info = format.encode body → Yields r source final (rename body) (rel body))
    (hkeeps : ∀ body body', source.Carries final → rel body body' → fits source body →
      (format.encode body').length = (format.encode body).length ∧ fits final body') :
    Yields r source final ((r.pass source owner).renameBody format rename info) fun info' =>
      info'.length = info.length ∧ ∃ body body', format.parse source info = .ok body ∧
        format.parse final info' = .ok body' ∧ rel body body' := by
  refine carries (read_bind fun body hparse => ?_)
  obtain ⟨hfits, hinfo⟩ := (AttributeFormat.parse_ok_iff hexact).1 hparse
  refine (hrename body hinfo).map fun body' hrel hfinal => ?_
  obtain ⟨hlength, hfits'⟩ := hkeeps body body' hfinal hrel hfits
  refine ⟨hinfo ▸ hlength, body, body', hparse, ?_, hrel⟩
  exact (AttributeFormat.parse_ok_iff hexact).2 ⟨hfits', rfl⟩

/-- A table of local variables is renamed row by row. -/
theorem renameVariables (method descriptor : String) (slots : List ℕ)
    {format : AttributeFormat (List LocalVariable)}
    (hexact : format.ExactFor fun _ => RowsFit anyRow)
    (hencode : format.encode = fun rows => Bytes.count16 rows ++ rows.flatMap LocalVariable.encode)
    {replaceType : UInt16 → PoolPass Renaming UInt16} {type : UInt16 → UInt16 → Prop}
    (htype : ∀ i, Yields r source final (replaceType i) (type i)) (a : Attribute) :
    Yields r source final
      ((r.pass source owner).renameVariables method descriptor slots format replaceType a)
      fun a' => a.Reencoded a' ∧ ∃ rows rows', format.parse source a.info = .ok rows ∧
        format.parse final a'.info = .ok rows' ∧ List.Forall₂
          (VariableRenamed r source final owner method descriptor slots type) rows rows' := by
  refine read_bind fun rows hparse => ?_
  obtain ⟨hfits, hinfo⟩ := (AttributeFormat.parse_ok_iff hexact).1 hparse
  refine (mapM fun v _ => renameVariable method descriptor slots htype v).map fun rows' hrows => ?_
  obtain ⟨hlength, hfits'⟩ :=
    RowsFit.keeps (f := LocalVariable.encode) (n := 10) (fun _ => rfl) hrows.length_eq.symm hfits
  refine ⟨.of_info ?_, rows, rows', hparse, ?_, hrows⟩
  · rw [hinfo, hencode]
    exact hlength
  · exact (AttributeFormat.parse_ok_iff hexact).2 ⟨hfits', rfl⟩

theorem renameCodeAttribute (method descriptor : String) (slots : List ℕ) (a : Attribute) :
    Yields r source final ((r.pass source owner).renameCodeAttribute method descriptor slots a)
      (CodeAttributeRenamed r source final owner method descriptor slots a) := by
  rw [RenamePass.renameCodeAttribute]
  by_cases hvariables : a.name = AttributeFormat.localVariables.name
  · rw [if_pos hvariables]
    refine (renameVariables method descriptor slots AttributeFormat.localVariables_exact rfl
      replaceDescriptor a).mono ?_
    rintro a' ⟨hre, rows, rows', hrows, hrows', h⟩
    exact .localVariables hre hvariables hrows hrows' h
  · rw [if_neg hvariables]
    by_cases htypes : a.name = AttributeFormat.localVariableTypes.name
    · rw [if_pos htypes]
      refine (renameVariables method descriptor slots AttributeFormat.localVariableTypes_exact rfl
        (replaceSignature .ofField) a).mono ?_
      rintro a' ⟨hre, rows, rows', hrows, hrows', h⟩
      exact .localVariableTypes hre htypes hrows hrows' h
    · rw [if_neg htypes]
      exact .pure (.other hvariables htypes)

theorem renameCodeAttributes (site : AttributeSite) (attributes : List Attribute) :
    Yields r source final ((r.pass source owner).renameCodeAttributes site attributes)
      (CodeAttributesRenamed r source final owner site attributes) := by
  cases site with
  | ofMethod method descriptor isStatic =>
    refine (orFail _ _).bind fun slots => ?_
    refine (mapM fun a _ => renameCodeAttribute method descriptor slots a).mono ?_
    exact fun _ h hslots => ⟨slots, hslots, h⟩
  | _ => exact .pure rfl

theorem renameMethodParameters (site : AttributeSite) (params : List MethodParameter) :
    Yields r source final ((r.pass source owner).renameMethodParameters site params)
      (MethodParametersRenamed r source final owner site params) := by
  cases site with
  | ofMethod method descriptor isStatic =>
    refine (orFail _ _).bind fun slots => ?_
    exact (renameParameters method descriptor params slots).mono
      fun _ h hslots => ⟨slots, hslots, h⟩
  | _ => exact .pure rfl

theorem renameInnerClass (c : InnerClass) :
    Yields r source final ((r.pass source owner).renameInnerClass c)
      (InnerClassRenamed r source final c) := by
  rw [RenamePass.renameInnerClass]
  by_cases hnone : c.innerName = 0
  · rw [if_pos hnone]
    exact .pure ⟨rfl, fun _ => hnone, fun hne => absurd hnone hne⟩
  · rw [if_neg hnone]
    refine (read _).bind fun name => ?_
    refine (read _).bind fun simple => ?_
    refine (replaceText c.innerName _).map fun i hi hsimple hname => ?_
    exact ⟨rfl, fun h => absurd h hnone, fun _ => ⟨name, simple, hname, hsimple, hi.2⟩⟩

theorem renameEnclosing (e : EnclosingMethod) :
    Yields r source final ((r.pass source owner).renameEnclosing e)
      (EnclosingRenamed r source final e) := by
  rw [RenamePass.renameEnclosing]
  by_cases hnone : e.method = 0
  · rw [if_pos hnone]
    exact .pure ⟨rfl, fun _ => hnone, fun hne => absurd hnone hne⟩
  · rw [if_neg hnone]
    refine (read _).bind fun holder => ?_
    refine (read _).bind fun ⟨n, d⟩ => ?_
    refine (newMemberName .method holder n d).bind fun n' => ?_
    refine (retarget e.method n').map fun fresh hfresh hn' hnat hholder => ?_
    obtain ⟨n₁, d₁, d', hnat', hd', hfinal⟩ := hfresh
    cases hnat.symm.trans hnat'
    exact ⟨rfl, fun h => absurd h hnone, fun _ => ⟨holder, n, d, n', d', hholder, hnat, hn', hd',
      hfinal⟩⟩

theorem renameComponent {nested : Attribute → PoolPass Renaming Attribute} (c : RecordComponent)
    (hnested : ∀ a ∈ c.attributes, Yields r source final (nested a)
      (AttributeRenamed r source final owner .ofComponent a)) :
    Yields r source final ((r.pass source owner).renameComponent nested c)
      (ComponentRenamed r source final owner c) := by
  refine (read _).bind fun n => ?_
  refine (read _).bind fun d => ?_
  refine (newMemberName .field owner n d).bind fun n' => ?_
  refine (replaceText c.name n').bind fun name => ?_
  refine (replaceDescriptor c.descriptor).bind fun descriptor => ?_
  refine (mapM hnested).map fun attributes hattributes hdescriptor hname hn' hd hn => ?_
  exact .mk ⟨n, d, n', hn, hd, hn', hname.2⟩ hdescriptor hattributes

/-- The body of a method changes in its attributes only. -/
theorem renameCode (site : AttributeSite) (info : Bytes) :
    Yields r source final
      ((r.pass source owner).renameBody AttributeFormat.code
        (fun body => do
          let attributes ← (r.pass source owner).renameCodeAttributes site body.attributes
          return { body with attributes })
        info)
      fun info' => info'.length = info.length ∧ ∃ body body',
        AttributeFormat.code.parse source info = .ok body ∧
        AttributeFormat.code.parse final info' = .ok body' ∧
        body' = { body with attributes := body'.attributes } ∧
        CodeAttributesRenamed r source final owner site body.attributes body'.attributes := by
  refine renameBody AttributeFormat.code_exact (fun body _ => ?_) ?_
  · exact (renameCodeAttributes site body.attributes).map fun _ h => ⟨rfl, h⟩
  · intro body body' hfinal h hfits
    rw [h.1]
    exact hfits.reencode hfinal h.2.reencoded

/-- The components of a record, if `nested` renames the attributes that are shorter than it. -/
theorem renameRecord {nested : Attribute → PoolPass Renaming Attribute} {info : Bytes}
    (hnested : ∀ b : Attribute, b.info.length < info.length →
      Yields r source final (nested b) (AttributeRenamed r source final owner .ofComponent b)) :
    Yields r source final
      ((r.pass source owner).renameBody AttributeFormat.recordComponents
        (·.mapM ((r.pass source owner).renameComponent nested)) info)
      fun info' => info'.length = info.length ∧ ∃ rows rows',
        AttributeFormat.recordComponents.parse source info = .ok rows ∧
        AttributeFormat.recordComponents.parse final info' = .ok rows' ∧
        List.Forall₂ (ComponentRenamed r source final owner) rows rows' := by
  refine renameBody AttributeFormat.recordComponents_exact (fun rows hinfo => ?_) ?_
  · refine mapM fun c hc => renameComponent c fun b hb => hnested b ?_
    rw [hinfo]
    exact RecordComponent.length_lt hc hb
  · exact fun rows rows' hfinal h hfits => RecordComponent.rows_keep hfinal h hfits

/-- The new body of an attribute, if the attributes in it, which are shorter, are renamed by
`nested`. -/
theorem renameInfo {nested : Attribute → PoolPass Renaming Attribute} {site : AttributeSite}
    {a : Attribute} (hnested : ∀ b : Attribute, b.info.length < a.info.length →
      Yields r source final (nested b) (AttributeRenamed r source final owner .ofComponent b)) :
    Yields r source final ((r.pass source owner).renameInfo nested site a)
      fun info => AttributeRenamed r source final owner site a { a with info } := by
  rw [RenamePass.renameInfo]
  by_cases hsignature : a.name = signatureName
  · rw [if_pos hsignature]
    refine read_bind fun i hi => ?_
    refine (replaceSignature site.signatureKind i).map fun j hj => ?_
    have hinfo := Attribute.index_ok_iff.1 hi
    exact .signature (.of_info (hinfo ▸ rfl)) hsignature hi (Attribute.index_ok_iff.2 rfl) hj
  rw [if_neg hsignature]
  by_cases huses : AnnotationUse.attributeNames.contains a.name = true
  · rw [if_pos huses]
    refine read_bind fun uses hparse => ?_
    obtain ⟨hfits, hinfo⟩ := AnnotationUse.parse_ok_iff.1 hparse
    refine (mapM fun use _ => renameUse use).map fun uses' h => ?_
    obtain ⟨hlength, hfits'⟩ := AnnotationUse.list_keeps h hfits
    exact .annotations (.of_info (hinfo ▸ hlength)) (List.contains_iff_mem.1 huses) hparse
      (AnnotationUse.parse_ok_iff.2 ⟨hfits', rfl⟩) h
  rw [if_neg huses]
  by_cases hparams : AnnotationUse.parameterAttributeNames.contains a.name = true
  · rw [if_pos hparams]
    refine read_bind fun params hparse => ?_
    obtain ⟨hfits, hinfo⟩ := AnnotationUse.parseForParameters_ok_iff.1 hparse
    refine (mapM fun uses _ => mapM fun use _ => renameUse use).map fun params' h => ?_
    obtain ⟨hlength, hfits'⟩ := AnnotationUse.lists_keep h hfits
    exact .parameterAnnotations (.of_info (hinfo ▸ hlength)) (List.contains_iff_mem.1 hparams)
      hparse
      (AnnotationUse.parseForParameters_ok_iff.2 ⟨hfits', rfl⟩) h
  rw [if_neg hparams]
  by_cases hdefault : a.name = AttributeFormat.annotationDefault.name
  · rw [if_pos hdefault]
    refine (renameBody AttributeFormat.annotationDefault_exact (fun v _ => renameValue v)
      fun v v' _ h hfits => ?_).mono ?_
    · exact (ValueRenamed.keeps v v' h).imp_right fun h => h hfits
    · rintro info ⟨hlength, v, v', hv, hv', h⟩
      exact .annotationDefault (.of_info hlength) hdefault hv hv' h
  rw [if_neg hdefault]
  by_cases hcode : a.name = AttributeFormat.code.name
  · rw [if_pos hcode]
    refine (renameCode site a.info).mono ?_
    rintro info ⟨hlength, body, body', hbody, hbody', hrest, h⟩
    exact .code (.of_info hlength) hcode hbody hbody' hrest h
  rw [if_neg hcode]
  by_cases hmethod : a.name = AttributeFormat.methodParameters.name
  · rw [if_pos hmethod]
    refine (renameBody AttributeFormat.methodParameters_exact
      (fun params _ => renameMethodParameters site params)
      fun params params' _ h hfits => ?_).mono ?_
    · exact MethodParameter.rows_keep h.length_eq hfits
    · rintro info ⟨hlength, params, params', hp, hp', h⟩
      exact .methodParameters (.of_info hlength) hmethod hp hp' h
  rw [if_neg hmethod]
  by_cases hrecord : a.name = AttributeFormat.recordComponents.name
  · rw [if_pos hrecord]
    refine (renameRecord hnested).mono ?_
    rintro info ⟨hlength, rows, rows', hrows, hrows', h⟩
    exact .recordComponents (.of_info hlength) hrecord hrows hrows' h
  rw [if_neg hrecord]
  by_cases hinner : a.name = AttributeFormat.innerClasses.name
  · rw [if_pos hinner]
    refine (renameBody AttributeFormat.innerClasses_exact
      (fun rows _ => mapM fun c _ => renameInnerClass c) fun rows rows' _ h hfits => ?_).mono ?_
    · exact RowsFit.keeps (f := InnerClass.encode) (n := 8) (fun _ => rfl) h.length_eq.symm hfits
    · rintro info ⟨hlength, rows, rows', hrows, hrows', h⟩
      exact .innerClasses (.of_info hlength) hinner hrows hrows' h
  rw [if_neg hinner]
  by_cases henclosing : a.name = AttributeFormat.enclosingMethod.name
  · rw [if_pos henclosing]
    refine (renameBody AttributeFormat.enclosingMethod_exact (fun e _ => renameEnclosing e)
      fun _ _ _ _ _ => ⟨rfl, trivial⟩).mono ?_
    rintro info ⟨hlength, e, e', he, he', h⟩
    exact .enclosingMethod (.of_info hlength) henclosing he he' h
  rw [if_neg henclosing]
  -- None of the names that are looked for, so the attribute stays.
  refine .pure (.other ?_)
  rw [List.contains_iff_mem] at huses hparams
  simp only [renamedAttributeNames, List.cons_append, List.mem_cons, List.mem_append, not_or]
  exact ⟨hsignature, ⟨huses, hparams⟩, hdefault, hcode, hmethod, hrecord, hinner, henclosing,
    List.not_mem_nil⟩

/-- The bound on the depth is met by no record, for at the bound there are no bytes left. -/
theorem renameAttributeWithin (depth : ℕ) : ∀ (site : AttributeSite) (a : Attribute),
    a.info.length ≤ depth →
    Yields r source final ((r.pass source owner).renameAttributeWithin depth site a)
      (AttributeRenamed r source final owner site a) := by
  induction depth with
  | zero =>
    intro site a hlength
    exact (renameInfo fun b hb => absurd (hb.trans_le hlength) (Nat.not_lt_zero _)).map fun _ => id
  | succ depth ih =>
    intro site a hlength
    refine (renameInfo fun b hb => ?_).map fun _ => id
    exact ih .ofComponent b (Nat.le_of_lt_succ (hb.trans_le hlength))

theorem renameAttribute (site : AttributeSite) (a : Attribute) :
    Yields r source final ((r.pass source owner).renameAttribute site a)
      (AttributeRenamed r source final owner site a) :=
  renameAttributeWithin _ site a le_rfl

theorem renameMember (kind : MemberKind) (site : String → String → AttributeSite) (m : Member) :
    Yields r source final ((r.pass source owner).renameMember kind site m)
      (MemberRenamed r source final owner kind site m) := by
  refine (read _).bind fun n => ?_
  refine (read _).bind fun d => ?_
  refine (newMemberName kind owner n d).bind fun n' => ?_
  refine (replaceText m.name n').bind fun name => ?_
  refine (replaceDescriptor m.descriptor).bind fun descriptor => ?_
  refine (mapM fun a _ => renameAttribute (site n d) a).map
    fun attributes hattributes hdescriptor hname hn' hd hn => ?_
  exact ⟨rfl, ⟨n, d, n', hn, hd, hn', hname.2⟩, hdescriptor, n, d, hn, hd, hattributes⟩

end Yields

end JarRemap
