import JarRemap.ClassFile.Edit
import JarRemap.Proofs.Codec.ClassFile
import JarRemap.Proofs.Pool.Grow

/-!
# Classes that are built

A class under construction stands on a workbench, with the attributes that have been made and not
lost. `BuildStep` lists what can be done there. Every step keeps the workbench *sound*: the pool is
valid, and all names of the class, its members and its attributes resolve. Steps that fail are no
exception, for what they leave behind is only more pool.
-/

namespace JarRemap

open ConstantPool

/-! ## Steps -/

/-- Where an attribute is put. -/
inductive AttributePlace where
  | ofClass
  | ofField (position : ℕ)
  | ofMethod (position : ℕ)
  deriving DecidableEq, Repr

/-- Changes the attributes in a place, if the class has it. -/
def AttributePlace.change (f : List Attribute → List Attribute) :
    AttributePlace → ClassFile → ClassFile
  | .ofClass, c => { c with attributes := f c.attributes }
  | .ofField i, c =>
    { c with fields := c.fields.modify i fun m => { m with attributes := f m.attributes } }
  | .ofMethod i, c =>
    { c with methods := c.methods.modify i fun m => { m with attributes := f m.attributes } }

/-- A class under construction, and the attributes that have been made for it. -/
structure Workbench where
  built : ClassFile
  made : List Attribute

/-- One step of building a class. An attribute that has been made is named by its number. -/
inductive BuildStep where
  | addInterface (name : String)
  | addField (access : AccessFlags) (name descriptor : String)
  | addMethod (access : AccessFlags) (name descriptor : String)
  | addFieldRef (owner name descriptor : String)
  | addMethodRef (owner name descriptor : String) (ofInterface : Bool)
  | putConstant (k : Constant)
  | makeAttribute (name : String) (info : Bytes)
  | makeTextAttribute (name text : String)
  | appendAttribute (number : ℕ) (place : AttributePlace)
  | setAttribute (number : ℕ) (place : AttributePlace)

namespace Workbench

/-- Edits the class, whatever the edit gives. -/
def edit {α : Type} (b : Workbench) (x : ClassEdit α) : Workbench :=
  { b with built := (x b.built).2 }

/-- Keeps the attribute that an edit makes, if it makes one. -/
def make (b : Workbench) (x : ClassEdit Attribute) : Workbench :=
  match x b.built with
  | (.ok a, c) => ⟨c, b.made ++ [a]⟩
  | (.error _, c) => ⟨c, b.made⟩

/-- Puts an attribute that has been made into a place. -/
def put (b : Workbench) (f : Attribute → List Attribute → List Attribute) (number : ℕ)
    (place : AttributePlace) : Workbench :=
  match b.made[number]? with
  | some a => { b with built := place.change (f a) b.built }
  | none => b

/-- Takes a step. -/
def step (b : Workbench) : BuildStep → Workbench
  | .addInterface name => b.edit (ClassEdit.addInterface name)
  | .addField access name descriptor => b.edit (ClassEdit.addField access name descriptor)
  | .addMethod access name descriptor => b.edit (ClassEdit.addMethod access name descriptor)
  | .addFieldRef owner name descriptor => b.edit (ClassEdit.addFieldRef owner name descriptor)
  | .addMethodRef owner name descriptor ofInterface =>
    b.edit (ClassEdit.addMethodRef owner name descriptor ofInterface)
  | .putConstant k => b.edit (ClassEdit.onPool (PoolEdit.put k))
  | .makeAttribute name info => b.make (ClassEdit.makeAttribute name info)
  | .makeTextAttribute name text => b.make (ClassEdit.makeTextAttribute name text)
  | .appendAttribute number place => b.put (fun a attributes => attributes ++ [a]) number place
  | .setAttribute number place => b.put JarRemap.setAttribute number place

/-- Takes steps one after the other. -/
def run (b : Workbench) (steps : List BuildStep) : Workbench :=
  steps.foldl step b

end Workbench

/-- Whether a step puts no bytes into the pool as a text. -/
def BuildStep.putsText : BuildStep → Bool
  | .putConstant (.rawUtf8 _) => false
  | _ => true

/-! ## Soundness -/

/-- The name of the attribute is the text that it refers to. -/
def Attribute.Named (pool : ConstantPool) (a : Attribute) : Prop :=
  pool.text a.nameIndex = .ok a.name

/-- The member and its attributes have names. -/
structure Member.Named (pool : ConstantPool) (m : Member) : Prop where
  name_ok : ∃ s, pool.text m.name = .ok s
  descriptor_ok : ∃ s, pool.text m.descriptor = .ok s
  attributes_named : ∀ a ∈ m.attributes, a.Named pool

/-- The pool is valid, and everything on the workbench has a name in it. -/
structure Workbench.Sound (b : Workbench) : Prop where
  valid : b.built.pool.Valid
  size_le : b.built.pool.size ≤ maxSize
  this_ok : ∃ s, b.built.pool.className b.built.thisClass = .ok s
  super_ok : b.built.superClass = 0 ∨ ∃ s, b.built.pool.className b.built.superClass = .ok s
  interfaces_ok : ∀ i ∈ b.built.interfaces, ∃ s, b.built.pool.className i = .ok s
  fields_named : ∀ m ∈ b.built.fields, m.Named b.built.pool
  methods_named : ∀ m ∈ b.built.methods, m.Named b.built.pool
  attributes_named : ∀ a ∈ b.built.attributes, a.Named b.built.pool
  made_named : ∀ a ∈ b.made, a.Named b.built.pool

/-- What a class under construction adds to its pool is anything. -/
abbrev anyConstant : Constant → Prop := fun _ => True

variable {pool pool' : ConstantPool}

theorem Attribute.Named.grow {a : Attribute} (h : a.Named pool)
    (hgrows : pool.Grows anyConstant pool') :
    a.Named pool' :=
  hgrows.text h

theorem Member.Named.grow {m : Member} (h : m.Named pool) (hgrows : pool.Grows anyConstant pool') :
    m.Named pool' := by
  obtain ⟨⟨s, hs⟩, ⟨t, ht⟩, hattributes⟩ := h
  exact ⟨⟨s, hgrows.text hs⟩, ⟨t, hgrows.text ht⟩, fun a ha => (hattributes a ha).grow hgrows⟩

/-- More pool does no harm. -/
theorem Workbench.Sound.grow {b : Workbench} (h : b.Sound)
    (hgrows : b.built.pool.Grows anyConstant pool') :
    Workbench.Sound { b with built := { b.built with pool := pool' } } := by
  obtain ⟨s, hthis⟩ := h.this_ok
  refine ⟨hgrows.valid, ?_, ⟨s, hgrows.className hthis⟩, ?_, ?_, ?_, ?_, ?_, ?_⟩
  · exact hgrows.le_maxSize h.size_le
  · rcases h.super_ok with hzero | ⟨t, ht⟩
    · exact .inl hzero
    · exact .inr ⟨t, hgrows.className ht⟩
  · intro i hi
    obtain ⟨t, ht⟩ := h.interfaces_ok i hi
    exact ⟨t, hgrows.className ht⟩
  · exact fun m hm => (h.fields_named m hm).grow hgrows
  · exact fun m hm => (h.methods_named m hm).grow hgrows
  · exact fun a ha => (h.attributes_named a ha).grow hgrows
  · exact fun a ha => (h.made_named a ha).grow hgrows

/-! ## Edits of a class that only add to its pool -/

namespace ClassEdit

variable {α β : Type} {c : ClassFile}

/-- Started on `c`, the edit changes nothing but the pool, which grows, and `post` holds of what it
gives. -/
def Adds (c : ClassFile) (x : ClassEdit α) (post : ConstantPool → α → Prop) : Prop :=
  c.pool.Valid → ∀ outcome c', x c = (outcome, c') →
    ∃ pool', c' = { c with pool := pool' } ∧ c.pool.Grows anyConstant pool' ∧
      ∀ a, outcome = .ok a → post pool' a

theorem adds_onPool {x : PoolEdit α} {post : ConstantPool → α → Prop}
    (h : PoolEdit.Adds anyConstant c.pool x post) : Adds c (onPool x) post := by
  intro hvalid outcome c' hx
  rw [onPool] at hx
  rcases hxp : x c.pool with ⟨outcome', pool'⟩
  rw [hxp] at hx
  obtain ⟨rfl, rfl⟩ := Prod.mk.inj hx
  obtain ⟨hgrows, hpost⟩ := h hvalid _ _ hxp
  exact ⟨pool', rfl, hgrows, hpost⟩

theorem Adds.pure {a : α} {post : ConstantPool → α → Prop} (h : post c.pool a) :
    Adds c (Pure.pure a) post := by
  rintro hvalid _ _ ⟨⟩
  exact ⟨c.pool, rfl, .refl hvalid, fun _ ha => Except.ok.inj ha ▸ h⟩

theorem Adds.bind {x : ClassEdit α} {f : α → ClassEdit β} {post : ConstantPool → α → Prop}
    {post' : ConstantPool → β → Prop} (hx : Adds c x post)
    (hf : ∀ a pool', c.pool.Grows anyConstant pool' → post pool' a →
      Adds { c with pool := pool' } (f a) post') :
    Adds c (x >>= f) post' := by
  intro hvalid outcome c' h
  rw [bind_stateful] at h
  rcases hxc : x c with ⟨e | a, c₁⟩
  · rw [hxc] at h
    obtain ⟨rfl, rfl⟩ := Prod.mk.inj h
    obtain ⟨pool₁, rfl, hgrows, -⟩ := hx hvalid _ _ hxc
    exact ⟨pool₁, rfl, hgrows, fun _ ha => by cases ha⟩
  · rw [hxc] at h
    obtain ⟨pool₁, rfl, hgrows, hpost⟩ := hx hvalid _ _ hxc
    obtain ⟨pool₂, rfl, hgrows', hpost'⟩ :=
      hf a pool₁ hgrows (hpost a rfl) hgrows.valid outcome c' h
    exact ⟨pool₂, rfl, hgrows.trans hgrows', hpost'⟩

theorem makeMember_adds (access : AccessFlags) (name descriptor : String) :
    Adds c (makeMember access name descriptor) fun pool m => m.Named pool := by
  refine (adds_onPool (PoolEdit.putText_adds trivial)).bind fun i pool₁ _ hi => ?_
  refine (adds_onPool (PoolEdit.putText_adds trivial)).bind fun j pool₂ hgrows hj => ?_
  exact .pure ⟨⟨name, hgrows.text hi⟩, ⟨descriptor, hj⟩, by simp⟩

theorem makeAttribute_adds (name : String) (info : Bytes) :
    Adds c (makeAttribute name info) fun pool a => a.Named pool := by
  refine (adds_onPool (PoolEdit.putText_adds trivial)).bind fun i pool₁ _ hi => ?_
  exact .pure hi

theorem makeTextAttribute_adds (name text : String) :
    Adds c (makeTextAttribute name text) fun pool a => a.Named pool :=
  (adds_onPool (PoolEdit.putText_adds (s := text) trivial)).bind fun _ _ _ _ =>
    makeAttribute_adds name _

theorem addFieldRef_adds (owner name descriptor : String) :
    Adds c (addFieldRef owner name descriptor) fun _ _ => True := by
  refine adds_onPool ?_
  refine (PoolEdit.putClass_adds trivial fun _ => trivial).bind fun i pool₁ _ _ => ?_
  refine (PoolEdit.putNameAndType_adds trivial trivial fun _ _ => trivial).bind
    fun j pool₂ _ _ => ?_
  intro hvalid outcome pool₃ h
  exact ⟨(PoolEdit.put_adds (by rintro _ ⟨⟩) trivial hvalid _ _ h).1, fun _ _ => trivial⟩

theorem addMethodRef_adds (owner name descriptor : String) (ofInterface : Bool) :
    Adds c (addMethodRef owner name descriptor ofInterface) fun _ _ => True := by
  refine adds_onPool ?_
  refine (PoolEdit.putClass_adds trivial fun _ => trivial).bind fun i pool₁ _ _ => ?_
  refine (PoolEdit.putNameAndType_adds trivial trivial fun _ _ => trivial).bind
    fun j pool₂ _ _ => ?_
  intro hvalid outcome pool₃ h
  refine ⟨(PoolEdit.put_adds ?_ trivial hvalid _ _ h).1, fun _ _ => trivial⟩
  cases ofInterface <;> rintro _ ⟨⟩

end ClassEdit

/-! ## Every step is sound -/

namespace Workbench

variable {b : Workbench}

theorem Sound.edit {α : Type} (h : b.Sound) {x : ClassEdit α} {post : ConstantPool → α → Prop}
    (hx : ClassEdit.Adds b.built x post) : (b.edit x).Sound := by
  rcases hxb : x b.built with ⟨outcome, c'⟩
  obtain ⟨pool', rfl, hgrows, -⟩ := hx h.valid _ _ hxb
  rw [Workbench.edit, hxb]
  exact h.grow hgrows

theorem Sound.make (h : b.Sound) {x : ClassEdit Attribute}
    (hx : ClassEdit.Adds b.built x fun pool a => a.Named pool) : (b.make x).Sound := by
  rcases hxb : x b.built with ⟨outcome, c'⟩
  obtain ⟨pool', rfl, hgrows, hpost⟩ := hx h.valid _ _ hxb
  rw [Workbench.make, hxb]
  rcases outcome with e | a
  · exact h.grow hgrows
  · have hgrown := h.grow hgrows
    refine { hgrown with made_named := ?_ }
    simpa [or_imp, forall_and] using ⟨hgrown.made_named, hpost a rfl⟩

/-- An edit that adds to the pool and then changes the class by what it has got. -/
theorem Sound.edit_bind {α β : Type} (h : b.Sound) {x : ClassEdit α}
    {post : ConstantPool → α → Prop} (hx : ClassEdit.Adds b.built x post) {f : α → ClassEdit β}
    (hf : ∀ a, ∀ b' : Workbench, b'.Sound → post b'.built.pool a → (b'.edit (f a)).Sound) :
    (b.edit (x >>= f)).Sound := by
  rcases hxb : x b.built with ⟨e | a, c'⟩
  · obtain ⟨pool', rfl, hgrows, -⟩ := hx h.valid _ _ hxb
    rw [Workbench.edit, bind_stateful, hxb]
    exact h.grow hgrows
  · obtain ⟨pool', rfl, hgrows, hpost⟩ := hx h.valid _ _ hxb
    rw [Workbench.edit, bind_stateful, hxb]
    exact hf a _ (h.grow hgrows) (hpost a rfl)

theorem sound_addInterface (h : b.Sound) (name : String) :
    (b.edit (ClassEdit.addInterface name)).Sound := by
  refine h.edit_bind (ClassEdit.adds_onPool
    (PoolEdit.putClass_adds (s := name) trivial fun _ => trivial)) fun i b' h' hi => ?_
  refine { h' with interfaces_ok := ?_ }
  rintro j hj
  rcases List.mem_append.1 hj with hj | hj
  · exact h'.interfaces_ok j hj
  · exact ⟨name, List.mem_singleton.1 hj ▸ hi⟩

theorem sound_addField (h : b.Sound) (access : AccessFlags) (name descriptor : String) :
    (b.edit (ClassEdit.addField access name descriptor)).Sound := by
  refine h.edit_bind (ClassEdit.makeMember_adds access name descriptor) fun m b' h' hm => ?_
  refine { h' with fields_named := ?_ }
  intro n hn
  rcases List.mem_append.1 hn with hn | hn
  · exact h'.fields_named n hn
  · exact List.mem_singleton.1 hn ▸ hm

theorem sound_addMethod (h : b.Sound) (access : AccessFlags) (name descriptor : String) :
    (b.edit (ClassEdit.addMethod access name descriptor)).Sound := by
  refine h.edit_bind (ClassEdit.makeMember_adds access name descriptor) fun m b' h' hm => ?_
  refine { h' with methods_named := ?_ }
  intro n hn
  rcases List.mem_append.1 hn with hn | hn
  · exact h'.methods_named n hn
  · exact List.mem_singleton.1 hn ▸ hm

theorem mem_setAttribute {new a : Attribute} {attributes : List Attribute}
    (h : a ∈ JarRemap.setAttribute new attributes) : a = new ∨ a ∈ attributes := by
  induction attributes with
  | nil => exact .inl (List.mem_singleton.1 h)
  | cons b rest ih =>
    rw [JarRemap.setAttribute] at h
    split at h
    · rcases List.mem_cons.1 h with rfl | h
      · exact .inl rfl
      · exact .inr (List.mem_cons_of_mem b h)
    · rcases List.mem_cons.1 h with rfl | h
      · exact .inr List.mem_cons_self
      · exact (ih h).imp_right (List.mem_cons_of_mem b)

theorem named_modify {members : List Member} (h : ∀ m ∈ members, m.Named pool)
    {f : List Attribute → List Attribute}
    (hf : ∀ attributes, (∀ a ∈ attributes, a.Named pool) → ∀ a ∈ f attributes, a.Named pool)
    (i : ℕ) :
    ∀ m ∈ members.modify i fun m => { m with attributes := f m.attributes }, m.Named pool := by
  intro m hm
  obtain ⟨j, hj⟩ := List.mem_iff_getElem?.1 hm
  rw [List.getElem?_modify] at hj
  obtain ⟨n, hn, rfl⟩ := Option.map_eq_some_iff.1 hj
  have hnamed := h n (List.mem_of_getElem? hn)
  split
  · exact ⟨hnamed.name_ok, hnamed.descriptor_ok, hf _ hnamed.attributes_named⟩
  · exact hnamed

theorem Sound.put (h : b.Sound) {f : Attribute → List Attribute → List Attribute}
    (hf : ∀ new attributes, ∀ a ∈ f new attributes, a = new ∨ a ∈ attributes) (number : ℕ)
    (place : AttributePlace) : (b.put f number place).Sound := by
  rw [Workbench.put]
  rcases hmade : b.made[number]? with _ | new
  · exact h
  have hnew := h.made_named new (List.mem_of_getElem? hmade)
  have hnamed : ∀ attributes, (∀ a ∈ attributes, a.Named b.built.pool) →
      ∀ a ∈ f new attributes, a.Named b.built.pool := by
    intro attributes hattributes a ha
    rcases hf new attributes a ha with rfl | ha
    · exact hnew
    · exact hattributes a ha
  cases place with
  | ofClass => exact { h with attributes_named := hnamed _ h.attributes_named }
  | ofField i => exact { h with fields_named := named_modify h.fields_named hnamed i }
  | ofMethod i => exact { h with methods_named := named_modify h.methods_named hnamed i }

theorem Sound.step (h : b.Sound) {s : BuildStep} (hs : s.putsText = true) : (b.step s).Sound := by
  cases s with
  | addInterface name => exact sound_addInterface h name
  | addField access name descriptor => exact sound_addField h access name descriptor
  | addMethod access name descriptor => exact sound_addMethod h access name descriptor
  | addFieldRef owner name descriptor =>
    exact h.edit (ClassEdit.addFieldRef_adds owner name descriptor)
  | addMethodRef owner name descriptor ofInterface =>
    exact h.edit (ClassEdit.addMethodRef_adds owner name descriptor ofInterface)
  | putConstant k =>
    -- Bytes that are no text are the only entries that could be put and not be read back.
    refine h.edit (ClassEdit.adds_onPool (PoolEdit.put_adds ?_ trivial))
    rintro bytes rfl
    cases hs
  | makeAttribute name info => exact h.make (ClassEdit.makeAttribute_adds name info)
  | makeTextAttribute name text => exact h.make (ClassEdit.makeTextAttribute_adds name text)
  | appendAttribute number place =>
    refine h.put (fun new attributes a ha => ?_) number place
    rcases List.mem_append.1 ha with ha | ha
    · exact .inr ha
    · exact .inl (List.mem_singleton.1 ha)
  | setAttribute number place => exact h.put (fun _ _ _ => mem_setAttribute) number place

theorem Sound.run (h : b.Sound) {steps : List BuildStep} (hs : ∀ s ∈ steps, s.putsText = true) :
    (b.run steps).Sound := by
  induction steps generalizing b with
  | nil => exact h
  | cons s steps ih => exact ih (h.step (hs s (by simp))) fun s' hs' => hs s' (by simp [hs'])

/-- The names of a new class resolve. -/
theorem createNames_adds (name : String) (superName : Option String) :
    PoolEdit.Adds anyConstant ConstantPool.empty
      (do
        let thisClass ← PoolEdit.putClass name
        let superClass ←
          match superName with
          | some s => PoolEdit.putClass s
          | none => pure 0
        return (thisClass, superClass))
      fun pool names => pool.className names.1 = .ok name ∧
        (names.2 = 0 ∨ ∃ s, pool.className names.2 = .ok s) := by
  refine (PoolEdit.putClass_adds trivial fun _ => trivial).bind fun i pool₁ _ hi => ?_
  cases superName with
  | none => exact .pure ⟨hi, .inl rfl⟩
  | some s =>
    refine (PoolEdit.putClass_adds (s := s) trivial fun _ => trivial).bind
      fun j pool₂ hgrows hj => ?_
    exact .pure ⟨hgrows.className hi, .inr ⟨s, hj⟩⟩

/-- A new class is sound. -/
theorem sound_create {access : AccessFlags} {name : String} {superName : Option String}
    {c : ClassFile} (h : ClassFile.create access name superName = .ok c) :
    (⟨c, []⟩ : Workbench).Sound := by
  rw [ClassFile.create] at h
  have hadds := createNames_adds name superName valid_empty
  split at h
  case h_1 => cases h
  case h_2 i j pool' heq =>
    obtain ⟨hgrows, hpost⟩ := hadds _ _ heq
    obtain ⟨hthis, hsuper⟩ := hpost _ rfl
    cases h
    have hsize := hgrows.le_maxSize (by decide)
    exact ⟨hgrows.valid, hsize, ⟨name, hthis⟩, hsuper, by simp, by simp, by simp, by simp, by simp⟩

end Workbench

end JarRemap
