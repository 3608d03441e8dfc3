import JarRemap.Proofs.Codec.Bytes
import JarRemap.Proofs.Descriptor

/-!
# What renaming does to a descriptor

Renaming asks for a new name once for each class, from left to right
(`renameDescriptorWith_asking`), and where the answers are known beforehand nothing is asked
(`renameDescriptorWith_pure`). It changes nothing but names, so the descriptor keeps its shape
(`Descriptor.sameShape_rename`), and with it the slots of its parameters, which lie one behind the
other (`MethodDescriptor.slotsLaidOut`) and wrap around where 16 bits cannot number them.
-/

namespace JarRemap

/-! ## Without questions -/

section

variable {m : Type → Type} [Monad m] [LawfulMonad m] (f : String → String)

theorem BaseType.renameWith_pure (t : BaseType) :
    t.renameWith (fun name => (pure (f name) : m String)) = pure (t.rename f) := by
  cases t with
  | primitive p => rfl
  | object name => rw [renameWith, pure_bind, rename]

theorem FieldType.renameWith_pure :
    renameWith (fun name => (pure (f name) : m String)) = fun t => pure (t.rename f) :=
  funext fun t => by rw [renameWith, t.base.renameWith_pure, pure_bind, rename]

theorem MethodDescriptor.renameWith_pure (d : MethodDescriptor) :
    d.renameWith (fun name => (pure (f name) : m String)) = pure (d.rename f) := by
  obtain ⟨params, _ | ret⟩ := d <;>
    simp [renameWith, FieldType.renameWith_pure, rename]

theorem Descriptor.renameWith_pure (d : Descriptor) :
    d.renameWith (fun name => (pure (f name) : m String)) = pure (d.rename f) := by
  cases d with
  | field t => rw [renameWith, FieldType.renameWith_pure, pure_bind, rename]
  | method d => rw [renameWith, d.renameWith_pure, pure_bind, rename]

/-- Renaming a text is asking for new names that are known beforehand. -/
theorem renameDescriptorWith_pure (s : String) :
    renameDescriptorWith (fun name => (pure (f name) : m String)) s =
      pure (renameDescriptor f s) := by
  rw [renameDescriptorWith, renameDescriptor]
  cases Descriptor.parse s with
  | error e => rfl
  | ok d =>
    dsimp only
    rw [d.renameWith_pure, pure_bind, Except.map]

end

/-! ## Questions -/

/-- Answers with the new name, and keeps which names were asked for. -/
def asking (f : String → String) (name : String) : StateM (List String) String := do
  modify (· ++ [name])
  return f name

/-- The computation asks for these names, one after the other, and gives `a`. -/
def AsksFor {α : Type} (x : StateM (List String) α) (names : List String) (a : α) : Prop :=
  ∀ log, x log = (a, log ++ names)

section

variable {α β : Type} (f : String → String)

theorem AsksFor.pure (a : α) : AsksFor (pure a) [] a :=
  fun log => congrArg (Prod.mk a) (List.append_nil log).symm

theorem AsksFor.bind {x : StateM (List String) α} {y : α → StateM (List String) β}
    {names names' : List String} {a : α} {b : β} (hx : AsksFor x names a)
    (hy : AsksFor (y a) names' b) : AsksFor (x >>= y) (names ++ names') b := by
  intro log
  show y (x log).1 (x log).2 = _
  rw [hx log, ← List.append_assoc]
  exact hy (log ++ names)

/-- A computation that goes on without questions. -/
theorem AsksFor.map {x : StateM (List String) α} {names : List String} {a : α} (g : α → β)
    (hx : AsksFor x names a) : AsksFor (do return g (← x)) names (g a) := by
  have hbind := hx.bind (y := fun a => Pure.pure (g a)) (AsksFor.pure (g a))
  rwa [List.append_nil] at hbind

theorem AsksFor.asking (name : String) : AsksFor (asking f name) [name] (f name) :=
  fun _ => rfl

theorem BaseType.renameWith_asking (t : BaseType) :
    AsksFor (t.renameWith (asking f)) t.className?.toList (t.rename f) := by
  cases t with
  | primitive p => exact .pure _
  | object name => exact (AsksFor.asking f name).map BaseType.object

theorem FieldType.renameWith_asking (t : FieldType) :
    AsksFor (t.renameWith (asking f)) t.base.className?.toList (t.rename f) :=
  (t.base.renameWith_asking f).map (FieldType.mk t.dimensions)

theorem FieldType.mapM_renameWith_asking (types : List FieldType) :
    AsksFor (types.mapM (renameWith (asking f))) (types.filterMap fun t => t.base.className?)
      (types.map (rename f)) := by
  rw [List.filterMap_eq_flatMap_toList]
  induction types with
  | nil => exact .pure _
  | cons t types ih =>
    rw [List.mapM_cons, List.flatMap_cons, List.map_cons]
    exact (t.renameWith_asking f).bind
      (y := fun u => do return u :: (← types.mapM (renameWith (asking f))))
      (ih.map (t.rename f :: ·))

theorem MethodDescriptor.renameWith_asking (d : MethodDescriptor) :
    AsksFor (d.renameWith (asking f)) d.classNames (d.rename f) := by
  have hret : AsksFor (d.ret.mapM (FieldType.renameWith (asking f)))
      (d.ret.toList.filterMap fun t => t.base.className?) (d.ret.map (FieldType.rename f)) := by
    rw [List.filterMap_eq_flatMap_toList]
    cases d.ret with
    | none => exact .pure _
    | some t =>
      rw [Option.toList_some, List.flatMap_singleton]
      exact (t.renameWith_asking f).map some
  rw [classNames, List.filterMap_append]
  exact (FieldType.mapM_renameWith_asking f d.params).bind
    (y := fun params => do
      return MethodDescriptor.mk params (← d.ret.mapM (FieldType.renameWith (asking f))))
    (hret.map (MethodDescriptor.mk (d.params.map (FieldType.rename f))))

theorem Descriptor.renameWith_asking (d : Descriptor) :
    AsksFor (d.renameWith (asking f)) d.classNames (d.rename f) := by
  cases d with
  | field t => exact (t.renameWith_asking f).map field
  | method d => exact (d.renameWith_asking f).map method

/-- Renaming the text of a descriptor asks once for each class in it, from left to right. -/
theorem renameDescriptorWith_asking {s : String} {d : Descriptor} (h : Descriptor.parse s = .ok d) :
    AsksFor (renameDescriptorWith (asking f) s) d.classNames (renameDescriptor f s) := by
  rw [renameDescriptorWith, renameDescriptor, h]
  exact (d.renameWith_asking f).map fun d => (.ok d.text : Except DescriptorError String)

end

/-! ## Shape -/

/-- The dimensions of a type, and its primitive type if it has one. -/
def FieldType.shape (t : FieldType) : UInt8 × Option Primitive :=
  (t.dimensions, match t.base with
    | .primitive p => some p
    | .object _ => none)

/-- Two method descriptors differ in the names of classes only. -/
structure MethodDescriptor.SameShape (d e : MethodDescriptor) : Prop where
  params_eq : e.params.map FieldType.shape = d.params.map FieldType.shape
  ret_eq : e.ret.map FieldType.shape = d.ret.map FieldType.shape
  paramSlots_eq : e.paramSlots = d.paramSlots
  paramSlotIndices_eq : ∀ isStatic, e.paramSlotIndices isStatic = d.paramSlotIndices isStatic

/-- Two descriptors are of one kind and differ in the names of classes only. -/
def Descriptor.SameShape : Descriptor → Descriptor → Prop
  | .field t, .field u => u.shape = t.shape
  | .method d, .method e => d.SameShape e
  | _, _ => False

section

variable (f : String → String)

theorem FieldType.shape_rename (t : FieldType) : (t.rename f).shape = t.shape := by
  obtain ⟨dimensions, p | name⟩ := t <;> rfl

theorem FieldType.slotSize_rename (t : FieldType) : (t.rename f).slotSize = t.slotSize := by
  obtain ⟨dimensions, p | name⟩ := t
  · rfl
  · simp [rename, BaseType.rename, slotSize]

theorem slotsFrom_rename (first : UInt16) (types : List FieldType) :
    slotsFrom first (types.map (FieldType.rename f)) = slotsFrom first types := by
  induction types generalizing first with
  | nil => rfl
  | cons t types ih => rw [List.map_cons, slotsFrom, slotsFrom, t.slotSize_rename, ih]

theorem MethodDescriptor.paramSlots_rename (d : MethodDescriptor) :
    (d.rename f).paramSlots = d.paramSlots := by
  rw [paramSlots, rename, List.foldl_map]
  simp only [FieldType.slotSize_rename]
  rfl

/-- Renaming keeps the shape of a descriptor. -/
theorem Descriptor.sameShape_rename (d : Descriptor) : d.SameShape (d.rename f) := by
  have hshape : FieldType.shape ∘ FieldType.rename f = FieldType.shape :=
    funext fun t => t.shape_rename f
  cases d with
  | field t => exact t.shape_rename f
  | method d =>
    refine ⟨?_, ?_, d.paramSlots_rename f,
      fun isStatic => congrArg (List.map UInt16.toNat) (slotsFrom_rename f _ d.params)⟩
    · rw [MethodDescriptor.rename, List.map_map, hshape]
    · rw [MethodDescriptor.rename, Option.map_map, hshape]

end

/-! ## Slots -/

/-- How many slots values of these types need, counted without a bound. -/
def slotsNeeded : List FieldType → ℕ
  | [] => 0
  | t :: types => t.slotSize + slotsNeeded types

theorem slotsNeeded_append (types types' : List FieldType) :
    slotsNeeded (types ++ types') = slotsNeeded types + slotsNeeded types' := by
  induction types with
  | nil => exact (Nat.zero_add _).symm
  | cons t types ih => rw [List.cons_append, slotsNeeded, slotsNeeded, ih, Nat.add_assoc]

theorem FieldType.slotSize_pos (t : FieldType) : 0 < t.slotSize := by
  rw [slotSize]
  split <;> decide

theorem length_slotsFrom (first : UInt16) (types : List FieldType) :
    (slotsFrom first types).length = types.length := by
  induction types generalizing first with
  | nil => rfl
  | cons t types ih => rw [slotsFrom, List.length_cons, ih, List.length_cons]

/-- Each slot lies behind what the types before it need, in numbers of 16 bits. -/
theorem getElem?_slotsFrom (first : UInt16) {types : List FieldType} {k : ℕ}
    (h : k < types.length) :
    (slotsFrom first types)[k]? = some (first + UInt16.ofNat (slotsNeeded (types.take k))) := by
  induction types generalizing first k with
  | nil => cases h
  | cons t types ih =>
    cases k with
    | zero => simp [slotsFrom, slotsNeeded]
    | succ k =>
      rw [slotsFrom, List.getElem?_cons_succ, ih _ (Nat.lt_of_succ_lt_succ h), List.take_succ_cons,
        slotsNeeded, UInt16.ofNat_add, UInt16.add_assoc]

theorem MethodDescriptor.paramSlots_eq (d : MethodDescriptor) :
    d.paramSlots = slotsNeeded d.params % UInt16.size := by
  have hsum : ∀ types (slots : UInt16),
      types.foldl (fun slots t => slots + UInt16.ofNat t.slotSize) slots =
        slots + UInt16.ofNat (slotsNeeded types) := by
    intro types
    induction types with
    | nil => simp [slotsNeeded]
    | cons t types ih =>
      intro slots
      rw [List.foldl_cons, ih, slotsNeeded, UInt16.ofNat_add, UInt16.add_assoc]
  rw [paramSlots, hsum, Bytes.toNat_add_ofNat16, UInt16.toNat_zero, Nat.zero_add]

/-- The number of slots in front of the first parameter: the receiver has one. -/
def receiverSlots (isStatic : Bool) : ℕ :=
  if isStatic then 0 else 1

theorem MethodDescriptor.getElem?_paramSlotIndices (d : MethodDescriptor) (isStatic : Bool) {k : ℕ}
    (h : k < d.params.length) :
    (d.paramSlotIndices isStatic)[k]? =
      some ((receiverSlots isStatic + slotsNeeded (d.params.take k)) % UInt16.size) := by
  rw [paramSlotIndices, List.getElem?_map, getElem?_slotsFrom _ h, Option.map_some,
    Bytes.toNat_add_ofNat16, receiverSlots]
  cases isStatic <;> rfl

theorem slotsNeeded_take_le (types : List FieldType) (k : ℕ) :
    slotsNeeded (types.take k) ≤ slotsNeeded types := by
  conv_rhs => rw [← List.take_append_drop k types, slotsNeeded_append]
  exact Nat.le_add_right _ _

theorem slotsNeeded_take_succ {types : List FieldType} {k : ℕ} (h : k < types.length) :
    slotsNeeded (types.take (k + 1)) = slotsNeeded (types.take k) + types[k].slotSize := by
  rw [List.take_add_one, List.getElem?_eq_getElem h, slotsNeeded_append]
  rfl

theorem slotsNeeded_take_lt {types : List FieldType} {i j : ℕ} (hij : i < j)
    (hj : j ≤ types.length) : slotsNeeded (types.take i) < slotsNeeded (types.take j) := by
  have hi : i < types.length := by omega
  calc slotsNeeded (types.take i)
    _ < slotsNeeded (types.take i) + types[i].slotSize :=
      Nat.lt_add_of_pos_right types[i].slotSize_pos
    _ = slotsNeeded (types.take (i + 1)) := (slotsNeeded_take_succ hi).symm
    _ = slotsNeeded ((types.take j).take (i + 1)) := by rw [List.take_take, Nat.min_eq_left hij]
    _ ≤ slotsNeeded (types.take j) := slotsNeeded_take_le _ _

/-- Every parameter of a method has its slots to itself, one parameter behind the other. -/
structure MethodDescriptor.SlotsInOrder (d : MethodDescriptor) (isStatic : Bool) : Prop where
  increasing : (d.paramSlotIndices isStatic).Pairwise (· < ·)
  next : ∀ k (h : k + 1 < d.params.length), ∃ slot,
    (d.paramSlotIndices isStatic)[k]? = some slot ∧
    (d.paramSlotIndices isStatic)[k + 1]? = some (slot + d.params[k].slotSize)
  paramSlots_eq : d.paramSlots = slotsNeeded d.params

/-- The parameters of a method have a slot each. The first one is that behind the receiver, and each
other one lies behind the parameter before it, in numbers of 16 bits. -/
structure MethodDescriptor.SlotsLaidOut (d : MethodDescriptor) (isStatic : Bool) : Prop where
  length_eq : (d.paramSlotIndices isStatic).length = d.params.length
  first : ∀ slot ∈ (d.paramSlotIndices isStatic).head?, slot = receiverSlots isStatic
  next : ∀ k (h : k + 1 < d.params.length), ∃ slot,
    (d.paramSlotIndices isStatic)[k]? = some slot ∧
    (d.paramSlotIndices isStatic)[k + 1]? = some ((slot + d.params[k].slotSize) % UInt16.size)
  paramSlots_eq : d.paramSlots = slotsNeeded d.params % UInt16.size
  /-- Nothing wraps around if 16 bits can count the slots of the parameters. -/
  inOrder : slotsNeeded d.params < UInt16.size → d.SlotsInOrder isStatic

theorem MethodDescriptor.length_paramSlotIndices (d : MethodDescriptor) (isStatic : Bool) :
    (d.paramSlotIndices isStatic).length = d.params.length := by
  rw [paramSlotIndices, List.length_map, length_slotsFrom]

theorem MethodDescriptor.slotsInOrder {d : MethodDescriptor} {isStatic : Bool}
    (h : slotsNeeded d.params < UInt16.size) : d.SlotsInOrder isStatic := by
  have hreceiver : receiverSlots isStatic ≤ 1 := by
    cases isStatic <;> decide
  have hslot : ∀ k < d.params.length, (d.paramSlotIndices isStatic)[k]? =
      some (receiverSlots isStatic + slotsNeeded (d.params.take k)) := by
    intro k hk
    -- The parameter itself makes up for the slot of the receiver.
    have hlt := slotsNeeded_take_lt hk le_rfl
    rw [List.take_length] at hlt
    rw [d.getElem?_paramSlotIndices isStatic hk, Nat.mod_eq_of_lt (by omega)]
  refine ⟨List.pairwise_iff_getElem.2 fun i j hi hj hij => ?_, fun k hk => ?_, ?_⟩
  · rw [length_paramSlotIndices] at hi hj
    rw [(List.getElem_eq_iff _).2 (hslot i hi), (List.getElem_eq_iff _).2 (hslot j hj)]
    exact Nat.add_lt_add_left (slotsNeeded_take_lt hij hj.le) _
  · refine ⟨_, hslot k (by omega), ?_⟩
    rw [hslot (k + 1) hk, slotsNeeded_take_succ, Nat.add_assoc]
  · rw [d.paramSlots_eq, Nat.mod_eq_of_lt h]

theorem MethodDescriptor.slotsLaidOut (d : MethodDescriptor) (isStatic : Bool) :
    d.SlotsLaidOut isStatic where
  length_eq := d.length_paramSlotIndices isStatic
  first := by
    rw [paramSlotIndices, receiverSlots]
    cases d.params <;> cases isStatic <;> simp [slotsFrom]
  next := by
    intro k hk
    refine ⟨_, d.getElem?_paramSlotIndices isStatic (by omega), ?_⟩
    rw [d.getElem?_paramSlotIndices isStatic hk, slotsNeeded_take_succ, Nat.mod_add_mod,
      Nat.add_assoc]
  paramSlots_eq := d.paramSlots_eq
  inOrder := slotsInOrder

/-! ## Texts -/

/-- The text is read as the descriptor of a field exactly if it is read as a field type. -/
theorem Descriptor.parse_field_iff {s : String} {t : FieldType} :
    Descriptor.parse s = .ok (.field t) ↔ FieldType.parse s = .ok t := by
  rw [parse_ok_iff, writable_field_iff, FieldType.parse_ok_iff, text]

theorem Descriptor.parse_method_iff {s : String} {d : MethodDescriptor} :
    Descriptor.parse s = .ok (.method d) ↔ MethodDescriptor.parse s = .ok d := by
  rw [parse_ok_iff, writable_method_iff, MethodDescriptor.parse_ok_iff, text]

/-- The readers of descriptors accept a text exactly if it is what a type is written as whose class
names can be told from what follows them. Renaming an accepted text leaves it alone if all names
stay; it asks for a new name once for each class, from left to right, and if these can be written,
gives a text that is read as a descriptor of the same shape, of which a second renaming makes what
both of them make of the first text at once. The slots of parameters lie one behind the other as far
as 16 bits can number them. -/
theorem descriptor_texts_exact :
    (∀ s t, FieldType.parse s = .ok t ↔ t.base.Writable ∧ s = t.text) ∧
    (∀ s d, MethodDescriptor.parse s = .ok d ↔ d.Writable ∧ s = d.text) ∧
    (∀ s t, Descriptor.parse s = .ok (.field t) ↔ FieldType.parse s = .ok t) ∧
    (∀ s d, Descriptor.parse s = .ok (.method d) ↔ MethodDescriptor.parse s = .ok d) ∧
    (∀ s d, Descriptor.parse s = .ok d →
      renameDescriptor id s = .ok s ∧
      ∀ f, (∀ name ∈ d.classNames, IsWritable (f name)) → ∃ s' d',
        renameDescriptor f s = .ok s' ∧
        AsksFor (renameDescriptorWith (asking f) s) d.classNames (.ok s') ∧
        Descriptor.parse s' = .ok d' ∧ d.SameShape d' ∧
        ∀ g, ∃ s'', renameDescriptor g s' = .ok s'' ∧ renameDescriptor (g ∘ f) s = .ok s'') ∧
    ∀ (d : MethodDescriptor) (isStatic : Bool), d.SlotsLaidOut isStatic := by
  refine ⟨fun _ _ => FieldType.parse_ok_iff, fun _ _ => MethodDescriptor.parse_ok_iff,
    fun _ _ => Descriptor.parse_field_iff, fun _ _ => Descriptor.parse_method_iff, ?_,
    MethodDescriptor.slotsLaidOut⟩
  intro s d hparse
  have hrename : ∀ f, renameDescriptor f s = .ok (d.rename f).text :=
    fun f => map_ok_iff.2 ⟨d, hparse, rfl⟩
  refine ⟨?_, fun f hf => ?_⟩
  · have hself : d.rename id = d := Descriptor.rename_eq_self fun _ _ => rfl
    rw [hrename, hself]
    exact congrArg Except.ok (Descriptor.parse_ok_iff.1 hparse).2.symm
  · have hparse' : Descriptor.parse (d.rename f).text = .ok (d.rename f) :=
      Descriptor.parse_ok_iff.2 ⟨Descriptor.Writable.rename hf, rfl⟩
    refine ⟨_, d.rename f, hrename f, ?_, hparse', d.sameShape_rename f, fun g => ?_⟩
    · rw [← hrename f]
      exact renameDescriptorWith_asking f hparse
    · refine ⟨_, map_ok_iff.2 ⟨_, hparse', rfl⟩, ?_⟩
      rw [hrename, Descriptor.rename_rename]

/-- The method of this text takes two classes, one of them in an array, and two wide types. -/
theorem descriptor_texts_exact_wide :
    ∃ d : MethodDescriptor, MethodDescriptor.parse "(La;J[[Lb;D)Lc;" = .ok d ∧
      d.paramSlotIndices false = [1, 2, 4, 5] ∧ d.SlotsInOrder false ∧
      renameDescriptor id "(La;J[[Lb;D)Lc;" = .ok "(La;J[[Lb;D)Lc;" ∧
      (∀ name ∈ d.classNames, IsWritable ("x/" ++ name)) ∧
      ∃ s' d', renameDescriptor ("x/" ++ ·) "(La;J[[Lb;D)Lc;" = .ok s' ∧
        AsksFor (renameDescriptorWith (asking ("x/" ++ ·)) "(La;J[[Lb;D)Lc;") ["a", "b", "c"]
          (.ok s') ∧
        Descriptor.parse s' = .ok d' ∧ Descriptor.SameShape (.method d) d' := by
  let d : MethodDescriptor :=
    { params := [⟨0, .object "a"⟩, ⟨0, .primitive .long⟩, ⟨2, .object "b"⟩, ⟨0, .primitive .double⟩]
      ret := some ⟨0, .object "c"⟩ }
  have hparse : MethodDescriptor.parse "(La;J[[Lb;D)Lc;" = .ok d :=
    (descriptor_texts_exact.2.1 _ _).2 ⟨Descriptor.writable_method_iff.1 (by decide), by decide⟩
  obtain ⟨hself, hrename⟩ :=
    descriptor_texts_exact.2.2.2.2.1 _ (.method d) ((descriptor_texts_exact.2.2.2.1 _ _).2 hparse)
  have hnames : ∀ name ∈ d.classNames, IsWritable ("x/" ++ name) := by decide
  obtain ⟨s', d', hrenamed, hasks, hparse', hshape, -⟩ := hrename ("x/" ++ ·) hnames
  have hslots := (descriptor_texts_exact.2.2.2.2.2 d false).inOrder (by decide)
  exact ⟨d, hparse, by decide, hslots, hself, hnames, s', d', hrenamed, hasks, hparse', hshape⟩

end JarRemap
