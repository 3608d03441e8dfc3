import JarRemap.Attribute.Annotated
import JarRemap.Proofs.Codec.Attribute

/-!
# Annotations in bytes

Annotations nest, and reading bounds how deep it goes by the number of bytes ahead. A value is never
deeper than it is long (`ElementValue.depth_le`), so the bound is never met and reading is exact:
it takes what `encode` writes of values that fit, and nothing else.
-/

namespace JarRemap

open Reader

/-! ## Values that fit and how deep they are -/

mutual

/-- The elements of the annotation can be counted, and their values fit. -/
def AnnotationUse.Fits : AnnotationUse → Prop
  | .mk _ elements => elements.length < 65536 ∧ ElementPair.AllFit elements

/-- The values of the elements fit. -/
def ElementPair.AllFit : List ElementPair → Prop
  | [] => True
  | .mk _ value :: more => value.Fits ∧ ElementPair.AllFit more

/-- A constant has the tag of one, and what the value holds can be counted and fits. -/
def ElementValue.Fits : ElementValue → Prop
  | .constant tag _ => ElementValue.isConstantTag tag = true
  | .enumConstant _ _ | .classLiteral _ => True
  | .nested use => use.Fits
  | .array values => values.length < 65536 ∧ ElementValue.AllFit values

/-- The values fit. -/
def ElementValue.AllFit : List ElementValue → Prop
  | [] => True
  | v :: more => v.Fits ∧ ElementValue.AllFit more

end

mutual

/-- How deep the values of an annotation are. -/
def AnnotationUse.depth : AnnotationUse → ℕ
  | .mk _ elements => ElementPair.depths elements

/-- How deep the values of some elements are. -/
def ElementPair.depths : List ElementPair → ℕ
  | [] => 0
  | .mk _ value :: more => max value.depth (ElementPair.depths more)

/-- How deep a value is. -/
def ElementValue.depth : ElementValue → ℕ
  | .constant _ _ | .enumConstant _ _ | .classLiteral _ => 1
  | .nested use => use.depth + 1
  | .array values => ElementValue.depths values + 1

/-- How deep some values are. -/
def ElementValue.depths : List ElementValue → ℕ
  | [] => 0
  | v :: more => max v.depth (ElementValue.depths more)

end

/-- The bytes of a named element. -/
def ElementPair.encode (e : ElementPair) : Bytes :=
  e.spell []

/-- The value of a named element. -/
def ElementPair.value : ElementPair → ElementValue
  | .mk _ value => value

theorem ElementPair.allFit_iff {elements : List ElementPair} :
    ElementPair.AllFit elements ↔ ∀ e ∈ elements, e.value.Fits := by
  induction elements with
  | nil => simp [ElementPair.AllFit]
  | cons e more ih =>
    cases e
    rw [ElementPair.AllFit, ih, List.forall_mem_cons]
    rfl

theorem ElementValue.allFit_iff {values : List ElementValue} :
    ElementValue.AllFit values ↔ ∀ v ∈ values, v.Fits := by
  induction values with
  | nil => simp [ElementValue.AllFit]
  | cons v more ih => rw [ElementValue.AllFit, ih, List.forall_mem_cons]

theorem ElementPair.depths_le_iff {elements : List ElementPair} {n : ℕ} :
    ElementPair.depths elements ≤ n ↔ ∀ e ∈ elements, e.value.depth ≤ n := by
  induction elements with
  | nil => simp [ElementPair.depths]
  | cons e more ih =>
    cases e
    rw [ElementPair.depths, Nat.max_le, ih, List.forall_mem_cons]
    rfl

theorem ElementValue.depths_le_iff {values : List ElementValue} {n : ℕ} :
    ElementValue.depths values ≤ n ↔ ∀ v ∈ values, v.depth ≤ n := by
  induction values with
  | nil => simp [ElementValue.depths]
  | cons v more ih => rw [ElementValue.depths, Nat.max_le, ih, List.forall_mem_cons]

theorem ElementValue.depth_pos (v : ElementValue) : 0 < v.depth := by
  cases v <;> simp [ElementValue.depth]

/-! ## Writing in front of a rest -/

mutual

theorem AnnotationUse.spell_append : ∀ (use : AnnotationUse) (rest : Bytes),
    use.spell rest = use.encode ++ rest
  | .mk type elements, rest => by
    rw [AnnotationUse.encode, AnnotationUse.spell, AnnotationUse.spell,
      ElementPair.spellAll_append elements rest, ElementPair.spellAll_append elements []]
    simp only [List.append_assoc, List.append_nil]

theorem ElementPair.spellAll_append : ∀ (elements : List ElementPair) (rest : Bytes),
    ElementPair.spellAll elements rest = elements.flatMap ElementPair.encode ++ rest
  | [], rest => rfl
  | .mk name value :: more, rest => by
    rw [ElementPair.spellAll, ElementPair.spellAll_append more rest, List.flatMap_cons,
      ElementPair.encode, ElementPair.spell, ElementPair.spell, ElementValue.spell_append value,
      ElementValue.spell_append value []]
    simp only [List.append_assoc, List.append_nil]

theorem ElementValue.spell_append : ∀ (v : ElementValue) (rest : Bytes),
    v.spell rest = v.encode ++ rest
  | .constant tag value, rest => by
    rw [ElementValue.encode, ElementValue.spell, ElementValue.spell]
    simp only [List.cons_append, List.append_assoc, List.nil_append]
  | .enumConstant typeName constantName, rest => by
    rw [ElementValue.encode, ElementValue.spell, ElementValue.spell]
    simp only [List.cons_append, List.append_assoc, List.nil_append]
  | .classLiteral descriptor, rest => by
    rw [ElementValue.encode, ElementValue.spell, ElementValue.spell]
    simp only [List.cons_append, List.append_assoc, List.nil_append]
  | .nested use, rest => by
    rw [ElementValue.encode, ElementValue.spell, ElementValue.spell,
      AnnotationUse.spell_append use rest, AnnotationUse.spell_append use []]
    simp only [List.cons_append, List.append_nil]
  | .array values, rest => by
    rw [ElementValue.encode, ElementValue.spell, ElementValue.spell,
      ElementValue.spellAll_append values rest, ElementValue.spellAll_append values []]
    simp only [List.cons_append, List.append_assoc, List.append_nil]

theorem ElementValue.spellAll_append : ∀ (values : List ElementValue) (rest : Bytes),
    ElementValue.spellAll values rest = values.flatMap ElementValue.encode ++ rest
  | [], rest => rfl
  | v :: more, rest => by
    rw [ElementValue.spellAll, ElementValue.spellAll_append more rest, List.flatMap_cons,
      ElementValue.spell_append v, List.append_assoc]

end

theorem AnnotationUse.encode_mk (type : UInt16) (elements : List ElementPair) :
    (AnnotationUse.mk type elements).encode =
      Bytes.ofUInt16 type ++ (Bytes.count16 elements ++ elements.flatMap ElementPair.encode) := by
  rw [AnnotationUse.encode, AnnotationUse.spell, ElementPair.spellAll_append, List.append_nil]

theorem ElementPair.encode_mk (name : UInt16) (value : ElementValue) :
    (ElementPair.mk name value).encode = Bytes.ofUInt16 name ++ value.encode := by
  rw [ElementPair.encode, ElementPair.spell, ElementValue.spell_append, List.append_nil]

theorem ElementValue.encode_nested (use : AnnotationUse) :
    (ElementValue.nested use).encode = 0x40 :: use.encode := by
  rw [ElementValue.encode, ElementValue.spell, AnnotationUse.spell_append, List.append_nil]

theorem ElementValue.encode_array (values : List ElementValue) :
    (ElementValue.array values).encode =
      0x5b :: (Bytes.count16 values ++ values.flatMap ElementValue.encode) := by
  rw [ElementValue.encode, ElementValue.spell, ElementValue.spellAll_append, List.append_nil]

/-! ## A value is as long as it is deep -/

mutual

theorem AnnotationUse.depth_le : ∀ use : AnnotationUse, use.depth ≤ use.encode.length
  | .mk type elements => by
    have := ElementPair.depths_le elements
    rw [AnnotationUse.depth, AnnotationUse.encode_mk, List.length_append, List.length_append]
    omega

theorem ElementPair.depths_le : ∀ elements : List ElementPair,
    ElementPair.depths elements ≤ (elements.flatMap ElementPair.encode).length
  | [] => le_rfl
  | .mk name value :: more => by
    have := ElementValue.depth_le value
    have := ElementPair.depths_le more
    rw [ElementPair.depths, List.flatMap_cons, ElementPair.encode_mk, List.length_append,
      List.length_append]
    omega

theorem ElementValue.depth_le : ∀ v : ElementValue, v.depth ≤ v.encode.length
  | .constant tag value => by
    rw [ElementValue.depth, ElementValue.encode, ElementValue.spell, List.length_cons]
    omega
  | .enumConstant typeName constantName => by
    rw [ElementValue.depth, ElementValue.encode, ElementValue.spell, List.length_cons]
    omega
  | .classLiteral descriptor => by
    rw [ElementValue.depth, ElementValue.encode, ElementValue.spell, List.length_cons]
    omega
  | .nested use => by
    have := AnnotationUse.depth_le use
    rw [ElementValue.depth, ElementValue.encode_nested, List.length_cons]
    omega
  | .array values => by
    have := ElementValue.depths_le values
    rw [ElementValue.depth, ElementValue.encode_array, List.length_cons, List.length_append]
    omega

theorem ElementValue.depths_le : ∀ values : List ElementValue,
    ElementValue.depths values ≤ (values.flatMap ElementValue.encode).length
  | [] => le_rfl
  | v :: more => by
    have := ElementValue.depth_le v
    have := ElementValue.depths_le more
    rw [ElementValue.depths, List.flatMap_cons, List.length_append]
    omega

end

/-! ## Reading -/

theorem ElementPair.readWith_exact {value : Reader ElementValue} {fits : ElementValue → Prop}
    (h : value.Exact ElementValue.encode fits) :
    (ElementPair.readWith value).Exact ElementPair.encode fun e => fits e.value := by
  rintro ⟨name, v⟩ c d
  simp only [ElementPair.readWith, bind_ok_iff, u16_exact _ _ _, h _ _ _, pure_ok_iff, true_and,
    ElementPair.encode_mk, Cursor.past_append_iff, ElementPair.value]
  constructor
  · rintro ⟨_, m, hname, _, _, ⟨hfits, hvalue⟩, ⟨⟩, rfl⟩
    exact ⟨hfits, m, hname, hvalue⟩
  · rintro ⟨hfits, m, hname, hvalue⟩
    exact ⟨_, m, hname, _, d, ⟨hfits, hvalue⟩, rfl, rfl⟩

/-- The elements of an annotation can be counted, and their values are as they should be. -/
def AnnotationUse.FitsWith (fits : ElementValue → Prop) (use : AnnotationUse) : Prop :=
  RowsFit (fun e => fits e.value) use.elements

theorem AnnotationUse.readWith_exact {value : Reader ElementValue} {fits : ElementValue → Prop}
    (h : value.Exact ElementValue.encode fits) :
    (AnnotationUse.readWith value).Exact AnnotationUse.encode (FitsWith fits) := by
  rintro ⟨type, elements⟩ c d
  simp only [AnnotationUse.readWith, bind_ok_iff, u16_exact _ _ _, pure_ok_iff, true_and,
    (ElementPair.readWith_exact h).rows16 _ _ _, AnnotationUse.encode_mk,
    Cursor.past_append_iff (x := Bytes.ofUInt16 _)]
  constructor
  · rintro ⟨_, m, htype, _, _, ⟨hfits, helements⟩, ⟨⟩, rfl⟩
    exact ⟨hfits, m, htype, helements⟩
  · rintro ⟨hfits, m, htype, helements⟩
    exact ⟨_, m, htype, _, d, ⟨hfits, helements⟩, rfl, rfl⟩

theorem AnnotationUse.fitsWith_depth_iff {use : AnnotationUse} {n : ℕ} :
    use.FitsWith (fun v => v.Fits ∧ v.depth ≤ n) ↔ use.Fits ∧ use.depth ≤ n := by
  obtain ⟨type, elements⟩ := use
  rw [FitsWith, RowsFit, AnnotationUse.Fits, AnnotationUse.depth, ElementPair.allFit_iff,
    ElementPair.depths_le_iff, AnnotationUse.elements]
  constructor
  · rintro ⟨hlength, hall⟩
    exact ⟨⟨hlength, fun e he => (hall e he).1⟩, fun e he => (hall e he).2⟩
  · rintro ⟨⟨hlength, hfits⟩, hdepth⟩
    exact ⟨hlength, fun e he => ⟨hfits e he, hdepth e he⟩⟩

theorem ElementValue.readWithin_exact (depth : ℕ) :
    (ElementValue.readWithin depth).Exact ElementValue.encode
      fun v => v.Fits ∧ v.depth ≤ depth := by
  induction depth with
  | zero =>
    intro v c d
    constructor
    · intro h
      cases h
    · rintro ⟨⟨-, hdepth⟩, -⟩
      exact absurd v.depth_pos (by omega)
  | succ depth ih =>
    -- Nested annotations and arrays are read one level deeper, where the hypothesis applies.
    have huse := AnnotationUse.readWith_exact ih
    intro v c d
    simp only [ElementValue.readWithin, bind_ok_iff (r := u8), u8_exact _ _ _, true_and]
    constructor
    · rintro ⟨tag, m, htag, h⟩
      split at h
      case isTrue hconstant =>
        obtain ⟨value, -, hvalue, rfl⟩ := (field_ok_iff u16_exact).1 h
        refine ⟨⟨hconstant, by simp [ElementValue.depth]⟩, ?_⟩
        exact Cursor.past_cons_iff.2 ⟨m, htag, by simpa using hvalue⟩
      split at h
      case isTrue heq =>
        obtain ⟨typeName, constantName, -, -, hvalue, rfl⟩ :=
          (fields_ok_iff u16_exact u16_exact).1 h
        refine ⟨⟨trivial, by simp [ElementValue.depth]⟩, ?_⟩
        exact Cursor.past_cons_iff.2 ⟨m, heq ▸ htag, by simpa using hvalue⟩
      split at h
      case isTrue heq =>
        obtain ⟨descriptor, -, hvalue, rfl⟩ := (field_ok_iff u16_exact).1 h
        refine ⟨⟨trivial, by simp [ElementValue.depth]⟩, ?_⟩
        exact Cursor.past_cons_iff.2 ⟨m, heq ▸ htag, by simpa using hvalue⟩
      split at h
      case isTrue heq =>
        obtain ⟨use, hfits, huse, rfl⟩ := (field_ok_iff huse).1 h
        obtain ⟨hfits, hdepth⟩ := AnnotationUse.fitsWith_depth_iff.1 hfits
        refine ⟨⟨hfits, Nat.succ_le_succ hdepth⟩, ?_⟩
        rw [ElementValue.encode_nested]
        exact Cursor.past_cons_iff.2 ⟨m, heq ▸ htag, huse⟩
      split at h
      case isTrue heq =>
        obtain ⟨values, ⟨hlength, hall⟩, hvalues, rfl⟩ := (field_ok_iff ih.rows16).1 h
        have hfits := ElementValue.allFit_iff.2 fun v hv => (hall v hv).1
        have hdepth := ElementValue.depths_le_iff.2 fun v hv => (hall v hv).2
        refine ⟨⟨⟨hlength, hfits⟩, Nat.succ_le_succ hdepth⟩, ?_⟩
        rw [ElementValue.encode_array]
        exact Cursor.past_cons_iff.2 ⟨m, heq ▸ htag, hvalues⟩
      case isFalse => exact absurd h throw_not_ok
    · rintro ⟨⟨hfits, hdepth⟩, hpast⟩
      cases v with
      | constant tag value =>
        obtain ⟨m, htag, hvalue⟩ := Cursor.past_cons_iff.1 hpast
        refine ⟨tag, m, htag, ?_⟩
        rw [ElementValue.Fits] at hfits
        rw [if_pos hfits, field_ok_iff u16_exact]
        exact ⟨value, trivial, by simpa using hvalue, rfl⟩
      | enumConstant typeName constantName =>
        obtain ⟨m, htag, hvalue⟩ := Cursor.past_cons_iff.1 hpast
        refine ⟨0x65, m, htag, ?_⟩
        rw [if_neg (by decide), if_pos rfl, fields_ok_iff u16_exact u16_exact]
        exact ⟨_, _, trivial, trivial, by simpa using hvalue, rfl⟩
      | classLiteral descriptor =>
        obtain ⟨m, htag, hvalue⟩ := Cursor.past_cons_iff.1 hpast
        refine ⟨0x63, m, htag, ?_⟩
        rw [if_neg (by decide), if_neg (by decide), if_pos rfl, field_ok_iff u16_exact]
        exact ⟨_, trivial, by simpa using hvalue, rfl⟩
      | nested use =>
        rw [ElementValue.encode_nested] at hpast
        obtain ⟨m, htag, hvalue⟩ := Cursor.past_cons_iff.1 hpast
        refine ⟨0x40, m, htag, ?_⟩
        rw [if_neg (by decide), if_neg (by decide), if_neg (by decide), if_pos rfl,
          field_ok_iff huse]
        have hfits' := AnnotationUse.fitsWith_depth_iff.2 ⟨hfits, Nat.le_of_succ_le_succ hdepth⟩
        exact ⟨use, hfits', hvalue, rfl⟩
      | array values =>
        rw [ElementValue.encode_array] at hpast
        obtain ⟨m, htag, hvalue⟩ := Cursor.past_cons_iff.1 hpast
        refine ⟨0x5b, m, htag, ?_⟩
        rw [if_neg (by decide), if_neg (by decide), if_neg (by decide), if_neg (by decide),
          if_pos rfl, field_ok_iff ih.rows16]
        obtain ⟨hlength, hall⟩ := hfits
        have hfits' := ElementValue.allFit_iff.1 hall
        have hdepth' := ElementValue.depths_le_iff.1 (Nat.le_of_succ_le_succ hdepth)
        exact ⟨values, ⟨hlength, fun v hv => ⟨hfits' v hv, hdepth' v hv⟩⟩, hvalue, rfl⟩

/-- A reader whose bound is the number of bytes ahead never meets the bound. -/
theorem exact_of_bounded {α : Type} {r : ℕ → Reader α} {write : α → Bytes} {fits : α → Prop}
    {size : α → ℕ} (h : ∀ n, (r n).Exact write fun a => fits a ∧ size a ≤ n)
    (hsize : ∀ a, size a ≤ (write a).length) :
    Reader.Exact (do r (← get).rest.length) write fits := by
  intro a c d
  have hrun : (do r (← get).rest.length : Reader α) c = r c.rest.length c := rfl
  rw [hrun, h c.rest.length a c d]
  constructor
  · rintro ⟨⟨hfits, -⟩, hpast⟩
    exact ⟨hfits, hpast⟩
  · rintro ⟨hfits, hpast⟩
    refine ⟨⟨hfits, (hsize a).trans ?_⟩, hpast⟩
    rw [hpast.rest_eq, List.length_append]
    exact Nat.le_add_right _ _

/-! ## The attributes -/

theorem ElementValue.read_exact : ElementValue.read.Exact ElementValue.encode ElementValue.Fits :=
  exact_of_bounded ElementValue.readWithin_exact ElementValue.depth_le

theorem AttributeFormat.annotationDefault_exact :
    AttributeFormat.annotationDefault.ExactFor fun _ => ElementValue.Fits :=
  fun _ => ElementValue.read_exact

theorem length_le_length_flatMap {α : Type} {f : α → Bytes} {l : List α} {a : α} (h : a ∈ l) :
    (f a).length ≤ (l.flatMap f).length := by
  induction h with
  | head more => simp
  | tail b _ ih =>
    rw [List.flatMap_cons, List.length_append]
    exact ih.trans (Nat.le_add_left _ _)

namespace AnnotationUse

/-- How deep the values of some annotations are. -/
def depths (uses : List AnnotationUse) : ℕ :=
  (uses.map AnnotationUse.depth).foldr max 0

theorem depths_le_iff {uses : List AnnotationUse} {n : ℕ} :
    depths uses ≤ n ↔ ∀ u ∈ uses, u.depth ≤ n := by
  induction uses with
  | nil => simp [depths]
  | cons u more ih =>
    rw [List.forall_mem_cons, ← ih, ← Nat.max_le]
    rfl

theorem depths_le_length (uses : List AnnotationUse) :
    depths uses ≤ (encodeList uses).length := by
  rw [depths_le_iff]
  intro u hu
  rw [encodeList, List.length_append]
  exact (AnnotationUse.depth_le u).trans ((length_le_length_flatMap hu).trans (Nat.le_add_left _ _))

theorem readListWithin_exact (depth : ℕ) :
    (readListWithin depth).Exact encodeList
      fun uses => RowsFit Fits uses ∧ depths uses ≤ depth := by
  refine (readWith_exact (ElementValue.readWithin_exact depth)).rows16.congr (fun _ => rfl) ?_
  intro uses
  simp only [fitsWith_depth_iff, depths_le_iff, RowsFit]
  constructor
  · rintro ⟨⟨hlength, hfits⟩, hdepth⟩
    exact ⟨hlength, fun u hu => ⟨hfits u hu, hdepth u hu⟩⟩
  · rintro ⟨hlength, hall⟩
    exact ⟨⟨hlength, fun u hu => (hall u hu).1⟩, fun u hu => (hall u hu).2⟩

theorem readList_exact : readList.Exact encodeList (RowsFit Fits) :=
  exact_of_bounded readListWithin_exact depths_le_length

theorem parse_ok_iff {info : Bytes} {uses : List AnnotationUse} :
    AnnotationUse.parse info = .ok uses ↔ RowsFit Fits uses ∧ info = encodeList uses :=
  Reader.whole_ok_iff readList_exact

/-- The lists of annotations can be counted in one byte, and each of them fits. -/
def ListsFit (params : List (List AnnotationUse)) : Prop :=
  params.length < 256 ∧ ∀ uses ∈ params, RowsFit Fits uses

theorem depths_flatten_le_iff {params : List (List AnnotationUse)} {n : ℕ} :
    depths params.flatten ≤ n ↔ ∀ uses ∈ params, depths uses ≤ n := by
  simp only [depths_le_iff, List.mem_flatten, forall_exists_index, and_imp]
  exact ⟨fun h uses huses u hu => h u uses huses hu, fun h u uses huses hu => h uses huses u hu⟩

theorem readLists_exact : readLists.Exact encodeForParameters ListsFit := by
  have hexact : ∀ depth, (Reader.rows8 (readListWithin depth)).Exact encodeForParameters
      fun params => ListsFit params ∧ depths params.flatten ≤ depth := by
    intro depth
    refine (readListWithin_exact depth).rows8.congr (fun _ => rfl) fun params => ?_
    rw [depths_flatten_le_iff, ListsFit]
    constructor
    · rintro ⟨⟨hlength, hfits⟩, hdepth⟩
      exact ⟨hlength, fun uses huses => ⟨hfits uses huses, hdepth uses huses⟩⟩
    · rintro ⟨hlength, hall⟩
      exact ⟨⟨hlength, fun uses huses => (hall uses huses).1⟩,
        fun uses huses => (hall uses huses).2⟩
  refine exact_of_bounded hexact fun params => ?_
  rw [depths_flatten_le_iff]
  intro uses huses
  rw [encodeForParameters, List.length_append]
  exact (depths_le_length uses).trans
    ((length_le_length_flatMap huses).trans (Nat.le_add_left _ _))

theorem parseForParameters_ok_iff {info : Bytes} {params : List (List AnnotationUse)} :
    parseForParameters info = .ok params ↔ ListsFit params ∧ info = encodeForParameters params :=
  Reader.whole_ok_iff readLists_exact

end AnnotationUse

end JarRemap
