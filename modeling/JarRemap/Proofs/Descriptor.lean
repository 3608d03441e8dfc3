import JarRemap.Descriptor.Parser
import JarRemap.Proofs.SideBySide
import JarRemap.Proofs.Text.Split

/-!
# Descriptors in text

A descriptor is spelled in one way: reading takes what `text` writes of types whose class names can
be told from what follows them, and nothing else. So a renaming of descriptors is undone by one that
undoes it on the names of classes, as long as the names in between can be written.
-/

namespace JarRemap

/-! ## Types -/

/-- The name of a class can be written in a descriptor. -/
def IsWritable (name : String) : Prop :=
  name ≠ "" ∧ ';' ∉ name.toList

instance (name : String) : Decidable (IsWritable name) :=
  inferInstanceAs (Decidable (_ ∧ _))

/-- The class that the type names, if it names one, can be written. -/
def BaseType.Writable (t : BaseType) : Prop :=
  ∀ name ∈ t.className?, IsWritable name

theorem Primitive.ofLetter?_eq_some_iff {c : Char} {p : Primitive} :
    ofLetter? c = some p ↔ c = p.letter := by
  constructor
  · intro h
    rw [ofLetter?.eq_def] at h
    split at h
    case h_9 => cases h
    all_goals
      cases h
      rfl
  · rintro rfl
    cases p <;> rfl

/-- No type begins as an array, a parameter list or nothing does, but for its brackets. -/
theorem BaseType.head_chars (t : BaseType) :
    ∃ c rest, t.chars = c :: rest ∧ c ≠ '[' ∧ c ≠ '(' ∧ c ≠ ')' ∧ c ≠ 'V' := by
  cases t with
  | primitive p => exact ⟨p.letter, [], rfl, by cases p <;> decide⟩
  | object name => exact ⟨'L', name.toList ++ [';'], rfl, by decide⟩

theorem BaseType.read_ok {s rest : List Char} {t : BaseType} (h : BaseType.read s = .ok (t, rest)) :
    t.Writable ∧ s = t.chars ++ rest := by
  rw [BaseType.read.eq_def] at h
  split at h
  case h_1 => cases h
  case h_2 c after =>
  split at h
  case isTrue hc =>
    split at h
    case h_1 => cases h
    case h_2 => cases h
    case h_3 name after' hnonempty hcut =>
      cases h
      obtain ⟨rfl, hnot⟩ := Text.cutFirst?_eq_some_iff.1 hcut
      refine ⟨?_, ?_⟩
      · intro name' hname
        obtain rfl : String.ofList name = name' := Option.some.inj hname
        rw [IsWritable, String.toList_ofList]
        refine ⟨fun hempty => hnonempty ?_, hnot⟩
        rw [← String.toList_ofList (l := name), hempty]
        rfl
      · rw [hc, BaseType.chars, String.toList_ofList]
        simp
  case isFalse =>
    split at h
    case h_1 p hletter =>
      cases h
      rw [Primitive.ofLetter?_eq_some_iff.1 hletter]
      refine ⟨fun name hname => ?_, rfl⟩
      cases hname
    case h_2 => cases h

theorem BaseType.read_chars_append {t : BaseType} (h : t.Writable) (rest : List Char) :
    BaseType.read (t.chars ++ rest) = .ok (t, rest) := by
  cases t with
  | primitive p =>
    have hne : p.letter ≠ 'L' := by cases p <;> decide
    rw [chars, List.cons_append, List.nil_append, BaseType.read, if_neg hne,
      Primitive.ofLetter?_eq_some_iff.2 rfl]
  | object name =>
    obtain ⟨hne, hnot⟩ := h name rfl
    have hcut : Text.cutFirst? ';' (name.toList ++ [';'] ++ rest) = some (name.toList, rest) :=
      Text.cutFirst?_eq_some_iff.2 ⟨by simp, hnot⟩
    rw [chars, List.cons_append, BaseType.read, if_pos rfl, hcut]
    rcases hlist : name.toList with _ | ⟨c, more⟩
    · exact absurd (String.toList_eq_nil_iff.1 hlist) hne
    · simp only
      rw [← hlist, String.ofList_toList]

theorem FieldType.read_ok_iff {s rest : List Char} {t : FieldType} :
    FieldType.read s = .ok (t, rest) ↔ t.base.Writable ∧ s = t.chars ++ rest := by
  rw [FieldType.read]
  constructor
  · intro h
    by_cases hlong : (s.takeWhile (· = '[')).length > 255
    · simp only [hlong, if_true] at h
      cases h
    · simp only [hlong, if_false] at h
      rcases hbase : BaseType.read (s.dropWhile (· = '[')) with e | ⟨base, rest'⟩
      · simp [hbase, bind, Except.bind] at h
      · simp only [hbase, bind, Except.bind, pure, Except.pure, Except.ok.injEq, Prod.mk.injEq] at h
        obtain ⟨rfl, rfl⟩ := h
        obtain ⟨hwritable, hrest⟩ := BaseType.read_ok hbase
        refine ⟨hwritable, ?_⟩
        -- The brackets are counted in a byte, which holds the count as there are not more than 255.
        have hreplicate : s.takeWhile (· = '[') =
            List.replicate (s.takeWhile (· = '[')).length '[' := by
          refine List.eq_replicate_of_mem fun c hc => ?_
          simpa using List.mem_takeWhile_imp hc
        have hnat : (UInt8.ofNat (s.takeWhile (· = '[')).length).toNat =
            (s.takeWhile (· = '[')).length :=
          UInt8.toNat_ofNat_of_lt' (show _ < 256 by omega)
        rw [chars, hnat, ← hreplicate, List.append_assoc, ← hrest, List.takeWhile_append_dropWhile]
  · rintro ⟨hwritable, rfl⟩
    obtain ⟨dimensions, base⟩ := t
    obtain ⟨c, more, hchars, hc, -⟩ := base.head_chars
    have hbrackets : ∀ x ∈ List.replicate dimensions.toNat '[', decide (x = '[') = true := by
      intro x hx
      rw [List.eq_of_mem_replicate hx]
      rfl
    -- No base type begins with a bracket, so the brackets end where it begins.
    have htake : (List.replicate dimensions.toNat '[' ++ (base.chars ++ rest)).takeWhile (· = '[') =
        List.replicate dimensions.toNat '[' := by
      rw [List.takeWhile_append_of_pos hbrackets, hchars, List.cons_append,
        List.takeWhile_cons_of_neg (by simpa using hc), List.append_nil]
    have hdrop : (List.replicate dimensions.toNat '[' ++ (base.chars ++ rest)).dropWhile (· = '[') =
        base.chars ++ rest := by
      rw [List.dropWhile_append_of_pos hbrackets, hchars, List.cons_append,
        List.dropWhile_cons_of_neg (by simpa using hc)]
    have hlt := dimensions.toNat_lt
    simp only [chars, List.append_assoc, htake, hdrop, List.length_replicate]
    rw [if_neg (by omega), BaseType.read_chars_append hwritable]
    simp [bind, Except.bind, pure, Except.pure]

/-! ## Methods -/

theorem FieldType.head_chars (t : FieldType) :
    ∃ c rest, t.chars = c :: rest ∧ c ≠ '(' ∧ c ≠ ')' ∧ c ≠ 'V' := by
  obtain ⟨dimensions, base⟩ := t
  rw [chars]
  rcases dimensions.toNat with _ | n
  · obtain ⟨c, rest, hchars, -, hc⟩ := base.head_chars
    exact ⟨c, rest, hchars, hc⟩
  · exact ⟨'[', List.replicate n '[' ++ base.chars, rfl, by decide⟩

theorem readParams_ok_iff (done : List FieldType) (s : List Char) {params : List FieldType}
    {rest : List Char} :
    readParams done s = .ok (params, rest) ↔ ∃ more, params = done.reverse ++ more ∧
      (∀ t ∈ more, t.base.Writable) ∧ s = more.flatMap FieldType.chars ++ ')' :: rest := by
  induction done, s using readParams.induct with
  | case1 done s hend =>
    rw [readParams, if_pos hend]
    obtain ⟨after, rfl⟩ : ∃ after, s = ')' :: after := by
      cases s with
      | nil => cases hend
      | cons c after => exact ⟨after, by rw [Option.some.inj hend]⟩
    constructor
    · intro h
      cases h
      exact ⟨[], (List.append_nil _).symm, fun _ ht => (by cases ht), rfl⟩
    · rintro ⟨more, rfl, -, hs⟩
      cases more with
      | nil =>
        cases hs
        rw [List.append_nil]
        rfl
      | cons t more =>
        -- No type begins with the bracket that ends the parameters.
        obtain ⟨c, tail, hchars, -, hc, -⟩ := t.head_chars
        rw [List.flatMap_cons, hchars] at hs
        exact absurd (List.cons.inj hs).1.symm hc
  | case2 done s hend e hread =>
    rw [readParams, if_neg hend]
    split
    case h_1 =>
      constructor
      · intro h
        cases h
      · rintro ⟨more, rfl, hall, rfl⟩
        cases more with
        | nil => exact absurd rfl hend
        | cons t more =>
          rw [List.flatMap_cons, List.append_assoc,
            FieldType.read_ok_iff.2 ⟨hall t (by simp), rfl⟩] at hread
          cases hread
    case h_2 t rest' hok =>
      rw [hread] at hok
      cases hok
  | case3 done s hend t rest' hread hlt ih =>
    obtain ⟨hwritable, rfl⟩ := FieldType.read_ok_iff.1 hread
    rw [readParams, if_neg hend]
    split
    case h_1 e herror =>
      rw [hread] at herror
      cases herror
    case h_2 t' rest'' hok =>
      rw [hread] at hok
      cases hok
      rw [ih]
      constructor
      · rintro ⟨more, rfl, hall, rfl⟩
        refine ⟨t :: more, by simp, List.forall_mem_cons.2 ⟨hwritable, hall⟩, ?_⟩
        rw [List.flatMap_cons, List.append_assoc]
      · rintro ⟨more, rfl, hall, hs⟩
        cases more with
        | nil =>
          obtain ⟨c, tail, hchars, -, hc, -⟩ := t.head_chars
          rw [hchars] at hs
          exact absurd (List.cons.inj hs).1 hc
        | cons u more =>
          rw [List.forall_mem_cons] at hall
          rw [List.flatMap_cons, List.append_assoc] at hs
          -- The type that is read first is the only one that can stand there.
          have hu := FieldType.read_ok_iff.2 ⟨hall.1, hs⟩
          rw [hread] at hu
          obtain ⟨rfl, rfl⟩ := Prod.mk.inj (Except.ok.inj hu)
          exact ⟨more, by simp, hall.2, rfl⟩

theorem readReturn_ok_iff {s rest : List Char} {ret : Option FieldType} :
    readReturn s = .ok (ret, rest) ↔
      (∀ t ∈ ret, t.base.Writable) ∧ s = (ret.map FieldType.chars).getD ['V'] ++ rest := by
  rw [readReturn.eq_def]
  constructor
  · intro h
    split at h
    case h_1 =>
      cases h
      exact ⟨fun _ ht => (by cases ht), rfl⟩
    case h_2 =>
      rcases hread : FieldType.read s with e | ⟨t, rest'⟩
      · rw [hread] at h
        cases h
      · rw [hread] at h
        cases h
        obtain ⟨hwritable, hs⟩ := FieldType.read_ok_iff.1 hread
        exact ⟨fun _ ht => Option.some.inj ht ▸ hwritable, hs⟩
  · rintro ⟨hwritable, rfl⟩
    rcases ret with _ | t
    · rfl
    · obtain ⟨c, tail, hchars, -, -, hc⟩ := t.head_chars
      have hread : FieldType.read (t.chars ++ rest) = .ok (t, rest) :=
        FieldType.read_ok_iff.2 ⟨hwritable t rfl, rfl⟩
      rw [Option.map_some, Option.getD_some]
      split
      case h_1 after heq =>
        rw [hchars] at heq
        exact absurd (List.cons.inj heq).1 hc
      case h_2 =>
        rw [hread]
        rfl

/-- The types of a method can be written. -/
def MethodDescriptor.Writable (d : MethodDescriptor) : Prop :=
  (∀ t ∈ d.params, t.base.Writable) ∧ ∀ t ∈ d.ret, t.base.Writable

theorem MethodDescriptor.read_ok_iff {s rest : List Char} {d : MethodDescriptor} :
    MethodDescriptor.read s = .ok (d, rest) ↔ d.Writable ∧ s = d.chars ++ rest := by
  rw [MethodDescriptor.read.eq_def]
  cases s with
  | nil =>
    constructor
    · intro h
      cases h
    · rintro ⟨-, h⟩
      cases h
  | cons c after =>
    by_cases hc : c = '('
    · subst hc
      dsimp only
      rw [if_neg (not_not.2 rfl)]
      constructor
      · intro h
        obtain ⟨⟨params, middle⟩, hparams, h⟩ := except_bind_ok_iff.1 h
        obtain ⟨⟨ret, rest'⟩, hret, h⟩ := except_bind_ok_iff.1 h
        cases h
        obtain ⟨more, hmore, hall, rfl⟩ := (readParams_ok_iff _ _).1 hparams
        obtain ⟨hwritable, rfl⟩ := readReturn_ok_iff.1 hret
        rw [List.reverse_nil, List.nil_append] at hmore
        refine ⟨⟨hmore ▸ hall, hwritable⟩, ?_⟩
        rw [chars, hmore]
        simp
      · rintro ⟨⟨hall, hwritable⟩, hs⟩
        refine except_bind_ok_iff.2 ⟨_, (readParams_ok_iff _ _).2 ⟨d.params, rfl, hall, ?_⟩,
          except_bind_ok_iff.2 ⟨_, readReturn_ok_iff.2 ⟨hwritable, rfl⟩, rfl⟩⟩
        simpa [chars] using hs
    · constructor
      · intro h
        simp only [ne_eq, hc, not_false_eq_true, if_true] at h
        cases h
      · rintro ⟨-, h⟩
        exact absurd (List.cons.inj h).1 hc

/-! ## Whole texts -/

theorem readEnd_ok_iff {α : Type} {x : Except DescriptorFault (α × List Char)} {a : α} :
    x >>= readEnd = .ok a ↔ x = .ok (a, []) := by
  rcases x with e | ⟨b, _ | ⟨c, rest⟩⟩ <;> simp [bind, Except.bind, readEnd]

theorem FieldType.parse_ok_iff {s : String} {t : FieldType} :
    FieldType.parse s = .ok t ↔ t.base.Writable ∧ s = t.text := by
  rw [FieldType.parse, mapError_ok_iff, readEnd_ok_iff, read_ok_iff, List.append_nil, text,
    ← String.toList_inj, String.toList_ofList]

theorem MethodDescriptor.parse_ok_iff {s : String} {d : MethodDescriptor} :
    MethodDescriptor.parse s = .ok d ↔ d.Writable ∧ s = d.text := by
  rw [MethodDescriptor.parse, mapError_ok_iff, readEnd_ok_iff, read_ok_iff, List.append_nil, text,
    ← String.toList_inj, String.toList_ofList]

/-- No field descriptor begins as that of a method. -/
theorem FieldType.beginsWith_text (t : FieldType) : Text.beginsWith '(' t.text = false := by
  obtain ⟨c, rest, hchars, hc, -⟩ := t.head_chars
  rw [Text.beginsWith, text, String.toList_ofList, hchars]
  simpa using hc

theorem MethodDescriptor.beginsWith_text (d : MethodDescriptor) :
    Text.beginsWith '(' d.text = true := by
  rw [Text.beginsWith, text, String.toList_ofList]
  rfl

namespace Descriptor

/-- All classes that the descriptor names can be written. -/
def Writable (d : Descriptor) : Prop :=
  ∀ name ∈ d.classNames, IsWritable name

instance (d : Descriptor) : Decidable d.Writable :=
  inferInstanceAs (Decidable (∀ name ∈ d.classNames, IsWritable name))

theorem writable_method_iff {d : MethodDescriptor} : (method d).Writable ↔ d.Writable := by
  rw [Writable, classNames, MethodDescriptor.classNames, MethodDescriptor.Writable]
  simp only [List.mem_filterMap, List.mem_append, Option.mem_toList, forall_exists_index, and_imp]
  constructor
  · intro h
    exact ⟨fun t ht name hname => h name t (.inl ht) hname,
      fun t ht name hname => h name t (.inr ht) hname⟩
  · rintro ⟨hparams, hret⟩ name t (ht | ht) hname
    · exact hparams t ht name hname
    · exact hret t ht name hname

theorem writable_field_iff {t : FieldType} : (field t).Writable ↔ t.base.Writable := by
  rw [Writable, classNames, BaseType.Writable]
  simp only [Option.mem_toList, Option.mem_def]

/-- A descriptor is spelled in one way. -/
theorem parse_ok_iff {s : String} {d : Descriptor} : parse s = .ok d ↔ d.Writable ∧ s = d.text := by
  rw [parse]
  by_cases hparen : Text.beginsWith '(' s = true
  · rw [if_pos hparen]
    cases d with
    | method d =>
      rw [writable_method_iff, text, ← MethodDescriptor.parse_ok_iff]
      cases MethodDescriptor.parse s <;> simp [Except.map]
    | field t =>
      constructor
      · intro h
        cases hs : MethodDescriptor.parse s <;> simp [hs, Except.map] at h
      · rintro ⟨-, rfl⟩
        rw [text, t.beginsWith_text] at hparen
        cases hparen
  · rw [if_neg hparen]
    cases d with
    | method d =>
      constructor
      · intro h
        cases hs : FieldType.parse s <;> simp [hs, Except.map] at h
      · rintro ⟨-, rfl⟩
        exact absurd d.beginsWith_text hparen
    | field t =>
      rw [writable_field_iff, text, ← FieldType.parse_ok_iff]
      cases FieldType.parse s <;> simp [Except.map]

/-! ## Renaming -/

variable {f g : String → String}

theorem classNames_rename (d : Descriptor) : (d.rename f).classNames = d.classNames.map f := by
  have hbase : ∀ t : FieldType, (t.rename f).base.className? = t.base.className?.map f := by
    rintro ⟨n, _ | name⟩ <;> rfl
  cases d with
  | field t =>
    rw [rename, classNames, classNames, hbase]
    cases t.base.className? <;> rfl
  | method d =>
    have hmap : (d.params.map (FieldType.rename f) ++ (d.ret.map (FieldType.rename f)).toList) =
        (d.params ++ d.ret.toList).map (FieldType.rename f) := by
      rw [List.map_append]
      cases d.ret <;> rfl
    rw [rename, classNames, classNames, MethodDescriptor.classNames, MethodDescriptor.classNames,
      MethodDescriptor.rename, hmap, List.filterMap_map, List.map_filterMap]
    exact congrArg (List.filterMap · _) (funext hbase)

theorem Writable.rename {d : Descriptor} (h : ∀ name ∈ d.classNames, IsWritable (f name)) :
    (d.rename f).Writable := by
  rw [Writable, classNames_rename]
  exact List.forall_mem_map.2 h

/-- A renaming that gives back the classes of a descriptor gives back the descriptor. -/
theorem rename_eq_self {d : Descriptor} (h : ∀ name ∈ d.classNames, f name = name) :
    d.rename f = d := by
  have hbase : ∀ t : FieldType, (∀ name ∈ t.base.className?, f name = name) → t.rename f = t := by
    rintro ⟨n, _ | name⟩ ht
    · rfl
    · have := ht name rfl
      simp [FieldType.rename, BaseType.rename, this]
  cases d with
  | field t => rw [rename, hbase t fun name hname => h name (by simpa [classNames] using hname)]
  | method d =>
    have hall : ∀ t ∈ d.params ++ d.ret.toList, t.rename f = t := by
      intro t ht
      refine hbase t fun name hname => h name ?_
      exact List.mem_filterMap.2 ⟨t, ht, hname⟩
    obtain ⟨params, ret⟩ := d
    have hparams : params.map (FieldType.rename f) = params := by
      refine (List.map_congr_left fun t ht => ?_).trans (List.map_id params)
      exact hall t (List.mem_append_left _ ht)
    have hret : ret.map (FieldType.rename f) = ret := by
      rcases ret with _ | t
      · rfl
      · exact congrArg some (hall t (by simp))
    rw [rename, MethodDescriptor.rename, hparams, hret]

theorem rename_rename (d : Descriptor) : (d.rename f).rename g = d.rename (g ∘ f) := by
  have hbase : ∀ t : FieldType, (t.rename f).rename g = t.rename (g ∘ f) := by
    rintro ⟨n, _ | name⟩ <;> rfl
  cases d with
  | field t => exact congrArg field (hbase t)
  | method d =>
    have hcomp : FieldType.rename g ∘ FieldType.rename f = FieldType.rename (g ∘ f) := funext hbase
    rw [rename, rename, rename, MethodDescriptor.rename, MethodDescriptor.rename,
      MethodDescriptor.rename, List.map_map, Option.map_map, hcomp]

/-- A renaming that is undone on the classes of a descriptor is undone on the descriptor. -/
theorem rename_inverse {d : Descriptor} (h : ∀ name ∈ d.classNames, g (f name) = name) :
    (d.rename f).rename g = d :=
  (rename_rename d).trans (rename_eq_self h)

end Descriptor

theorem renameDescriptor_ok_iff {f : String → String} {s s' : String} :
    renameDescriptor f s = .ok s' ↔
      ∃ d : Descriptor, d.Writable ∧ s = d.text ∧ s' = (d.rename f).text := by
  rw [renameDescriptor, map_ok_iff]
  constructor
  · rintro ⟨d, hparse, rfl⟩
    obtain ⟨hwritable, hs⟩ := Descriptor.parse_ok_iff.1 hparse
    exact ⟨d, hwritable, hs, rfl⟩
  · rintro ⟨d, hwritable, hs, rfl⟩
    exact ⟨d, Descriptor.parse_ok_iff.2 ⟨hwritable, hs⟩, rfl⟩

/-- A descriptor whose classes all keep their names is written as it was read. -/
theorem renameDescriptor_eq_self {f : String → String} {s s' : String}
    (hf : ∀ d, Descriptor.parse s = .ok d → ∀ name ∈ d.classNames, f name = name)
    (h : renameDescriptor f s = .ok s') : s' = s := by
  obtain ⟨d, hparse, rfl⟩ := map_ok_iff.1 h
  rw [Descriptor.rename_eq_self (hf d hparse)]
  exact (Descriptor.parse_ok_iff.1 hparse).2.symm

/-- The text is a descriptor. -/
def IsDescriptor (s : String) : Prop :=
  ∃ d, Descriptor.parse s = .ok d

theorem isDescriptor_iff {f : String → String} {s : String} :
    IsDescriptor s ↔ ∃ s', renameDescriptor f s = .ok s' := by
  rw [IsDescriptor, renameDescriptor]
  rcases Descriptor.parse s with e | d <;> simp [Except.map]

/-- If the text is a descriptor, the names in it are all in `names`. -/
def NamesOnly (names : Set String) (s : String) : Prop :=
  ∀ d, Descriptor.parse s = .ok d → ∀ name ∈ d.classNames, name ∈ names

/-- What a renaming makes of a descriptor is turned back by one that undoes it on names, if the new
names can be written. -/
theorem NamesOnly.rename_inverse {f g : String → String} {names : Set String} {s s' : String}
    (h : NamesOnly names s) (hwritable : ∀ name ∈ names, IsWritable name → IsWritable (f name))
    (hinverse : ∀ name ∈ names, g (f name) = name) (hs' : renameDescriptor f s = .ok s') :
    renameDescriptor g s' = .ok s := by
  obtain ⟨d, hd, rfl, rfl⟩ := renameDescriptor_ok_iff.1 hs'
  have hnames := h d (Descriptor.parse_ok_iff.2 ⟨hd, rfl⟩)
  refine renameDescriptor_ok_iff.2 ⟨d.rename f, ?_, rfl, ?_⟩
  · exact .rename fun name hname => hwritable name (hnames name hname) (hd name hname)
  · rw [Descriptor.rename_inverse fun name hname => hinverse name (hnames name hname)]

end JarRemap
