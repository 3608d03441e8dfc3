import JarRemap.Proofs.Codec.Annotation
import JarRemap.Proofs.Rename.PoolPass
import JarRemap.Proofs.SideBySide

/-!
# The pass over annotations

Renaming an annotation replaces slots and nothing else. So the annotation stays as long as it was,
and what fits in a class file still does.
-/

namespace JarRemap

open ConstantPool RenamePass

variable {r : Remapper} {old new source final : ConstantPool} {owner : String}

/-! ## What renaming keeps -/

theorem length_flatMap_eq {α β : Type} {rel : α → β → Prop} {f : α → Bytes} {g : β → Bytes}
    (h : ∀ a b, rel a b → (g b).length = (f a).length) {l : List α} {l' : List β}
    (hl : List.Forall₂ rel l l') : (l'.flatMap g).length = (l.flatMap f).length := by
  induction hl with
  | nil => rfl
  | cons hab _ ih => rw [List.flatMap_cons, List.flatMap_cons, List.length_append,
      List.length_append, ih, h _ _ hab]

mutual

theorem UseRenamed.keeps : ∀ (use use' : AnnotationUse), UseRenamed r old new use use' →
    use'.encode.length = use.encode.length ∧ (use.Fits → use'.Fits)
  | .mk _ elements, .mk _ elements', .mk _ h => by
    obtain ⟨hcount, hlength, hfits⟩ := PairsRenamed.keeps elements elements' h
    refine ⟨?_, fun ⟨hlt, hall⟩ => ⟨hcount ▸ hlt, hfits hall⟩⟩
    rw [AnnotationUse.encode_mk, AnnotationUse.encode_mk]
    simp only [List.length_append, hlength, Bytes.length_ofUInt16, Bytes.count16]

theorem PairsRenamed.keeps : ∀ (elements elements' : List ElementPair),
    PairsRenamed r old new elements elements' → elements'.length = elements.length ∧
    (elements'.flatMap ElementPair.encode).length = (elements.flatMap ElementPair.encode).length ∧
    (ElementPair.AllFit elements → ElementPair.AllFit elements')
  | [], _, .nil => ⟨rfl, rfl, id⟩
  | .mk _ value :: more, .mk _ value' :: more', .cons h hmore => by
    obtain ⟨hvalue, hfits⟩ := ValueRenamed.keeps value value' h
    obtain ⟨hcount, hlength, hall⟩ := PairsRenamed.keeps more more' hmore
    refine ⟨by rw [List.length_cons, List.length_cons, hcount], ?_, ?_⟩
    · rw [List.flatMap_cons, List.flatMap_cons, ElementPair.encode_mk, ElementPair.encode_mk]
      simp only [List.length_append, hvalue, hlength]
    · exact fun ⟨hv, hm⟩ => ⟨hfits hv, hall hm⟩

theorem ValueRenamed.keeps : ∀ (v v' : ElementValue), ValueRenamed r old new v v' →
    v'.encode.length = v.encode.length ∧ (v.Fits → v'.Fits)
  | .constant _ _, _, .constant _ _ => ⟨rfl, id⟩
  | .enumConstant _ _, _, .enumConstant _ _ _ _ => ⟨rfl, id⟩
  | .classLiteral _, _, .noValue _ _ => ⟨rfl, id⟩
  | .classLiteral _, _, .classLiteral _ _ => ⟨rfl, id⟩
  | .nested use, .nested use', .nested h => by
    obtain ⟨hlength, hfits⟩ := UseRenamed.keeps use use' h
    refine ⟨?_, hfits⟩
    rw [ElementValue.encode_nested, ElementValue.encode_nested, List.length_cons, List.length_cons,
      hlength]
  | .array values, .array values', .array h => by
    obtain ⟨hcount, hlength, hfits⟩ := ValuesRenamed.keeps values values' h
    refine ⟨?_, fun ⟨hlt, hall⟩ => ⟨hcount ▸ hlt, hfits hall⟩⟩
    rw [ElementValue.encode_array, ElementValue.encode_array]
    simp only [List.length_cons, List.length_append, hlength, Bytes.count16, Bytes.length_ofUInt16]

theorem ValuesRenamed.keeps : ∀ (values values' : List ElementValue),
    ValuesRenamed r old new values values' → values'.length = values.length ∧
    (values'.flatMap ElementValue.encode).length = (values.flatMap ElementValue.encode).length ∧
    (ElementValue.AllFit values → ElementValue.AllFit values')
  | [], _, .nil => ⟨rfl, rfl, id⟩
  | v :: more, v' :: more', .cons h hmore => by
    obtain ⟨hvalue, hfits⟩ := ValueRenamed.keeps v v' h
    obtain ⟨hcount, hlength, hall⟩ := ValuesRenamed.keeps more more' hmore
    refine ⟨by rw [List.length_cons, List.length_cons, hcount], ?_, ?_⟩
    · simp only [List.flatMap_cons, List.length_append, hvalue, hlength]
    · exact fun ⟨hv, hm⟩ => ⟨hfits hv, hall hm⟩

end

theorem AnnotationUse.list_keeps {uses uses' : List AnnotationUse}
    (h : List.Forall₂ (UseRenamed r old new) uses uses') (hfits : RowsFit Fits uses) :
    (encodeList uses').length = (encodeList uses).length ∧ RowsFit Fits uses' := by
  refine ⟨?_, h.length_eq ▸ hfits.1,
    forall_of_forall₂ (fun use use' hu => (hu.keeps use use').2) h hfits.2⟩
  rw [encodeList, encodeList, List.length_append, List.length_append,
    length_flatMap_eq (fun use use' hu => (hu.keeps use use').1) h]
  rfl

theorem AnnotationUse.lists_keep {params params' : List (List AnnotationUse)}
    (h : List.Forall₂ (List.Forall₂ (UseRenamed r old new)) params params')
    (hfits : ListsFit params) :
    (encodeForParameters params').length = (encodeForParameters params).length ∧
      ListsFit params' := by
  have hlength := h.length_eq
  obtain ⟨hcount, hall⟩ := hfits
  have hboth : (params'.flatMap encodeList).length = (params.flatMap encodeList).length ∧
      ∀ uses ∈ params', RowsFit Fits uses := by
    clear hcount hlength
    induction h with
    | nil => exact ⟨rfl, fun _ hu => by cases hu⟩
    | cons huses _ ih =>
      rw [List.forall_mem_cons] at hall
      obtain ⟨hrest, hrestFits⟩ := ih hall.2
      obtain ⟨hone, honeFits⟩ := list_keeps huses hall.1
      refine ⟨?_, List.forall_mem_cons.2 ⟨honeFits, hrestFits⟩⟩
      rw [List.flatMap_cons, List.flatMap_cons, List.length_append, List.length_append, hone, hrest]
  refine ⟨?_, hlength ▸ hcount, hboth.2⟩
  rw [encodeForParameters, encodeForParameters, List.length_append, List.length_append, hboth.1]
  rfl

/-! ## What the pass yields -/

namespace Yields

mutual

theorem renameUse : ∀ use : AnnotationUse,
    Yields r source final ((r.pass source owner).renameUse use) (UseRenamed r source final use)
  | .mk type elements => by
    rw [RenamePass.renameUse]
    refine (replaceDescriptor type).bind fun type' => ?_
    refine (renamePairs elements).map fun elements' helements htype => ?_
    exact .mk htype helements

theorem renamePairs : ∀ elements : List ElementPair,
    Yields r source final ((r.pass source owner).renamePairs elements)
      (PairsRenamed r source final elements)
  | [] => by
    rw [RenamePass.renamePairs]
    exact .pure .nil
  | .mk name value :: more => by
    rw [RenamePass.renamePairs]
    refine (renameValue value).bind fun value' => ?_
    exact (renamePairs more).map fun more' hmore hvalue => .cons hvalue hmore

theorem renameValue : ∀ v : ElementValue,
    Yields r source final ((r.pass source owner).renameValue v) (ValueRenamed r source final v)
  | .constant tag value => by
    rw [RenamePass.renameValue]
    exact .pure (.constant tag value)
  | .enumConstant typeName constantName => by
    rw [RenamePass.renameValue]
    refine (read _).bind fun d => ?_
    refine (read _).bind fun n => ?_
    refine (orFail _ _).bind fun t => ?_
    refine (newMemberName .field t.internalName n d).bind fun n' => ?_
    refine (replaceText constantName n').bind fun constantName' => ?_
    refine (replaceDescriptor typeName).map fun typeName' htype hconstant hn' ht hn hd => ?_
    exact .enumConstant hd ht htype ⟨n, d, n', hn, hd, hn', hconstant.2⟩
  | .classLiteral descriptor => by
    rw [RenamePass.renameValue]
    refine carries ((read _).bind fun d => ?_)
    by_cases hnone : d = "V"
    · rw [if_pos hnone]
      exact .pure fun hd hfinal => .noValue (hnone ▸ hd) (hnone ▸ hfinal.text hd)
    · rw [if_neg hnone]
      refine (replaceDescriptor descriptor).map fun j hj hd _ => .classLiteral ?_ hj
      exact fun hv => hnone (Except.ok.inj (hd.symm.trans hv))
  | .nested use => by
    rw [RenamePass.renameValue]
    exact (renameUse use).map fun _ => .nested
  | .array values => by
    rw [RenamePass.renameValue]
    exact (renameValues values).map fun _ => .array

theorem renameValues : ∀ values : List ElementValue,
    Yields r source final ((r.pass source owner).renameValues values)
      (ValuesRenamed r source final values)
  | [] => by
    rw [RenamePass.renameValues]
    exact .pure .nil
  | v :: more => by
    rw [RenamePass.renameValues]
    refine (renameValue v).bind fun v' => ?_
    exact (renameValues more).map fun more' hmore hv => .cons hv hmore

end

end Yields

end JarRemap
