import JarRemap.Proofs.Rename.AttributePass
import JarRemap.Proofs.Repair.Attribute

/-!
# Parts that are repaired

What a repair is about stands in a part of a class, and that in another one, up to the class. For
every kind of part it is said when such a part is settled (`RepairTarget`). A repair mends a part:
it leaves the part alone or changes it for good, and either way the part is settled then. If all
parts of a list are mended, so is the list; and if what the body of an attribute spells is mended,
so is the attribute.
-/

namespace JarRemap

open ConstantPool

/-- A kind of part that is repaired: when such a part is settled, and which parts a repair may make
of it. -/
structure RepairTarget (α : Type) where
  Settled : ConstantPool → α → Prop
  SameShape : α → α → Prop
  settled_mono : ∀ {pool pool' a}, pool.Keeps pool' → Settled pool a → Settled pool' a
  sameShape_refl : ∀ a, SameShape a a

namespace RepairTarget

variable {α ε : Type} {t : RepairTarget α} {pool pool' pool'' : ConstantPool}
  {changed changed' : Bool}

/-- The part has become a settled one, and another one if and only if it has been changed. -/
structure Mends (t : RepairTarget α) (pool : ConstantPool) (a : α) (pool' : ConstantPool) (a' : α)
    (changed : Bool) : Prop where
  grows : pool.Grows anyConstant pool'
  sameShape : t.SameShape a a'
  settled : t.Settled pool' a'
  kept : changed = false → pool' = pool ∧ a' = a
  differs : changed = true → a' ≠ a

theorem Mends.idle {a : α} (hvalid : pool.Valid) (h : t.Settled pool a) :
    t.Mends pool a pool a false :=
  ⟨.refl hvalid, t.sameShape_refl a, h, fun _ => ⟨rfl, rfl⟩, nofun⟩

/-! ## Lists -/

/-- A list of such parts. -/
def list (t : RepairTarget α) : RepairTarget (List α) where
  Settled pool l := ∀ a ∈ l, t.Settled pool a
  SameShape := List.Forall₂ t.SameShape
  settled_mono hkeeps h a ha := t.settled_mono hkeeps (h a ha)
  sameShape_refl _ := List.forall₂_same.2 fun a _ => t.sameShape_refl a

theorem Mends.nil (hvalid : pool.Valid) : t.list.Mends pool [] pool [] false :=
  .idle hvalid fun _ ha => nomatch ha

theorem Mends.cons {a a' : α} {l l' : List α} (hhead : t.Mends pool a pool' a' changed)
    (htail : t.list.Mends pool' l pool'' l' changed') :
    t.list.Mends pool (a :: l) pool'' (a' :: l') (changed || changed') := by
  refine ⟨hhead.grows.trans htail.grows, .cons hhead.sameShape htail.sameShape, ?_, ?_, ?_⟩
  · intro b hb
    rcases List.mem_cons.1 hb with rfl | hb
    · exact t.settled_mono htail.grows.kept hhead.settled
    · exact htail.settled b hb
  · intro h
    obtain ⟨hhead', htail'⟩ := Bool.or_eq_false_iff.1 h
    obtain ⟨rfl, rfl⟩ := hhead.kept hhead'
    obtain ⟨rfl, rfl⟩ := htail.kept htail'
    exact ⟨rfl, rfl⟩
  · intro h heq
    obtain ⟨ha, hl⟩ := List.cons.inj heq
    rcases Bool.or_eq_true_iff.1 h with h | h
    · exact hhead.differs h ha
    · exact htail.differs h hl

/-- Repairs of such parts that note in a flag whether they have changed one. -/
structure MendedBy (t : RepairTarget α)
    (f : α → StateM (ConstantPool × Bool) (α × Option ε)) : Prop where
  idle : ∀ {pool changed a}, t.Settled pool a → f a (pool, changed) = ((a, none), (pool, changed))
  mends : ∀ {pool changed a pool' flag a'}, pool.Valid →
    f a (pool, changed) = ((a', none), (pool', flag)) →
    ∃ now, flag = (changed || now) ∧ t.Mends pool a pool' a' now

/-- The first part of a list is repaired, and then the others. -/
theorem repairEach_cons_ok_iff {σ : Type} {f : α → StateM σ (α × Option ε)} {a : α} {l l' : List α}
    {s s' : σ} :
    repairEach f (a :: l) s = ((l', none), s') ↔
      ∃ a₁ s₁ l₁, f a s = ((a₁, none), s₁) ∧ repairEach f l s₁ = ((l₁, none), s') ∧
        l' = a₁ :: l₁ := by
  have hcons : repairEach f (a :: l) s =
      match f a s with
      | ((a₁, some e), s₁) => ((a₁ :: l, some e), s₁)
      | ((a₁, none), s₁) =>
        match repairEach f l s₁ with
        | ((l₁, failure), s₂) => ((a₁ :: l₁, failure), s₂) := by
    rcases hfirst : f a s with ⟨⟨a₁, _ | e⟩, s₁⟩
    · simp only [repairEach, bind, StateT.bind, hfirst]
      rfl
    · simp only [repairEach, bind, StateT.bind, hfirst]
      rfl
  rw [hcons]
  rcases f a s with ⟨⟨a₁, _ | e⟩, s₁⟩
  · show (match repairEach f l s₁ with
      | ((l₁, failure), s₂) => ((a₁ :: l₁, failure), s₂)) = _ ↔ _
    rcases hrest : repairEach f l s₁ with ⟨⟨l₁, failure⟩, s₂⟩
    constructor
    · rintro ⟨⟩
      exact ⟨a₁, s₁, l₁, rfl, hrest, rfl⟩
    · rintro ⟨_, _, l₂, ⟨⟩, hrest', rfl⟩
      cases hrest.symm.trans hrest'
      rfl
  · exact iff_of_false nofun fun ⟨_, _, _, h, _⟩ => nomatch h

theorem MendedBy.each {f : α → StateM (ConstantPool × Bool) (α × Option ε)} (h : t.MendedBy f) :
    t.list.MendedBy (repairEach f) := by
  constructor
  · intro pool changed l hl
    induction l with
    | nil => rfl
    | cons a l ih =>
      have hrest := ih fun b hb => hl b (List.mem_cons_of_mem a hb)
      exact repairEach_cons_ok_iff.2 ⟨a, _, l, h.idle (hl a List.mem_cons_self), hrest, rfl⟩
  · intro pool changed l pool' flag l' hvalid hl
    induction l generalizing pool changed l' with
    | nil =>
      cases hl
      exact ⟨false, (Bool.or_false _).symm, .nil hvalid⟩
    | cons a l ih =>
      obtain ⟨a₁, ⟨pool₁, flag₁⟩, l₁, hfirst, hrest, rfl⟩ := repairEach_cons_ok_iff.1 hl
      obtain ⟨now, rfl, hmends⟩ := h.mends hvalid hfirst
      obtain ⟨later, rfl, hmends'⟩ := ih hmends.grows.valid hrest
      exact ⟨now || later, Bool.or_assoc _ _ _, hmends.cons hmends'⟩

/-! ## Parts with something to repair inside -/

section

variable {β : Type} {get : β → α} {set : β → α → β}

/-- What is repaired in its part `get` only. -/
def within (t : RepairTarget α) (get : β → α) (set : β → α → β) (hset : ∀ b, set b (get b) = b) :
    RepairTarget β where
  Settled pool b := t.Settled pool (get b)
  SameShape b b' := b' = set b (get b') ∧ t.SameShape (get b) (get b')
  settled_mono hkeeps h := t.settled_mono hkeeps h
  sameShape_refl b := ⟨(hset b).symm, t.sameShape_refl (get b)⟩

theorem Mends.within (hset : ∀ b, set b (get b) = b) (hget : ∀ b a, get (set b a) = a) {b : β}
    {a : α} (h : t.Mends pool (get b) pool' a changed) :
    (t.within get set hset).Mends pool b pool' (set b a) changed := by
  have ha : get (set b a) = a := hget b a
  refine ⟨h.grows, ⟨?_, ?_⟩, ?_, fun hsame => ?_, fun hchanged heq => ?_⟩
  · rw [ha]
  · show t.SameShape (get b) (get (set b a))
    rw [ha]
    exact h.sameShape
  · show t.Settled pool' (get (set b a))
    rw [ha]
    exact h.settled
  · obtain ⟨hpool, rfl⟩ := h.kept hsame
    exact ⟨hpool, hset b⟩
  · exact h.differs hchanged (ha.symm.trans (congrArg get heq))

end

end RepairTarget

/-! ## Attributes -/

/-- A kind of attribute that is repaired in its body only, which stays as long as it is. -/
structure AttributeTarget extends RepairTarget Attribute where
  reencoded : ∀ {a a'}, SameShape a a' → a.Reencoded a'

namespace AttributeTarget

variable {pool pool' : ConstantPool} {changed : Bool} {a a' : Attribute}

/-- Attributes that are not repaired. -/
def untouched : AttributeTarget where
  Settled _ _ := True
  SameShape a a' := a' = a
  settled_mono _ h := h
  sameShape_refl _ := rfl
  reencoded := by
    rintro a _ rfl
    exact ⟨rfl, rfl, rfl⟩

/-- Attributes with this name are repaired like `t`, others like `rest`. -/
def named (name : String) (t rest : AttributeTarget) : AttributeTarget where
  Settled pool a := (a.name = name → t.Settled pool a) ∧ (a.name ≠ name → rest.Settled pool a)
  SameShape a a' := (a.name = name → t.SameShape a a') ∧ (a.name ≠ name → rest.SameShape a a')
  settled_mono hkeeps h :=
    ⟨fun hname => t.settled_mono hkeeps (h.1 hname),
      fun hname => rest.settled_mono hkeeps (h.2 hname)⟩
  sameShape_refl a := ⟨fun _ => t.sameShape_refl a, fun _ => rest.sameShape_refl a⟩
  reencoded := by
    intro a a' h
    by_cases hname : a.name = name
    · exact t.reencoded (h.1 hname)
    · exact rest.reencoded (h.2 hname)

section

variable {name : String} {t rest : AttributeTarget}

theorem mends_named_of_eq (hname : a.name = name) (h : t.Mends pool a pool' a' changed) :
    (named name t rest).Mends pool a pool' a' changed := by
  have hname' : a'.name = name := (t.reencoded h.sameShape).name_eq.trans hname
  refine ⟨h.grows, ⟨fun _ => h.sameShape, fun hne => absurd hname hne⟩, ?_, h.kept, h.differs⟩
  exact ⟨fun _ => h.settled, fun hne => absurd hname' hne⟩

theorem mends_named_of_ne (hname : a.name ≠ name) (h : rest.Mends pool a pool' a' changed) :
    (named name t rest).Mends pool a pool' a' changed := by
  have hname' : a'.name ≠ name := (rest.reencoded h.sameShape).name_eq ▸ hname
  refine ⟨h.grows, ⟨fun heq => absurd heq hname, fun _ => h.sameShape⟩, ?_, h.kept, h.differs⟩
  exact ⟨fun heq => absurd heq hname', fun _ => h.settled⟩

end

/-! ## Their bodies -/

section

variable {α : Type} {t : RepairTarget α} {format : AttributeFormat α}
  {fits : ConstantPool → α → Prop}

/-- Attributes whose bodies spell such parts. -/
def ofBody (t : RepairTarget α) (format : AttributeFormat α) {fits : ConstantPool → α → Prop}
    (hexact : format.ExactFor fits)
    (hmono : ∀ {pool pool' body}, pool.Keeps pool' → fits pool body → fits pool' body) :
    AttributeTarget where
  Settled pool a := ∃ body, format.parse pool a.info = .ok body ∧ t.Settled pool body
  SameShape := Attribute.Reencoded
  settled_mono := by
    rintro pool pool' a hkeeps ⟨body, hparse, hbody⟩
    obtain ⟨hfits, hinfo⟩ := (AttributeFormat.parse_ok_iff hexact).1 hparse
    exact ⟨body, (AttributeFormat.parse_ok_iff hexact).2 ⟨hmono hkeeps hfits, hinfo⟩,
      t.settled_mono hkeeps hbody⟩
  sameShape_refl _ := ⟨rfl, rfl, rfl⟩
  reencoded h := h

/-- What a mended part is spelled as makes a mended attribute. -/
theorem mends_ofBody (hexact : format.ExactFor fits)
    (hmono : ∀ {pool pool' body}, pool.Keeps pool' → fits pool body → fits pool' body)
    {body body' : α} (hparse : format.parse pool a.info = .ok body)
    (h : t.Mends pool body pool' body' changed)
    (hkeeps : t.SameShape body body' → fits pool' body →
      (format.encode body').length = (format.encode body).length ∧ fits pool' body') :
    (ofBody t format hexact hmono).Mends pool a pool'
      (if changed then { a with info := format.encode body' } else a) changed := by
  obtain ⟨hfits, hinfo⟩ := (AttributeFormat.parse_ok_iff hexact).1 hparse
  have hfits₁ : fits pool' body := hmono h.grows.kept hfits
  obtain ⟨hlength, hfits'⟩ := hkeeps h.sameShape hfits₁
  have hparse' : format.parse pool' (format.encode body') = .ok body' :=
    (AttributeFormat.parse_ok_iff hexact).2 ⟨hfits', rfl⟩
  cases changed with
  | false =>
    -- A part that is left alone is not spelled anew.
    obtain ⟨rfl, rfl⟩ := h.kept rfl
    exact .idle h.grows.valid ⟨_, hparse, h.settled⟩
  | true =>
    refine ⟨h.grows, .of_info (hinfo ▸ hlength), ⟨_, hparse', h.settled⟩, nofun, fun _ heq => ?_⟩
    have hinfo' : format.encode body' = a.info := congrArg Attribute.info heq
    have hsame : body' = body := (hexact pool').write_inj hfits' hfits₁ (hinfo'.trans hinfo)
    exact h.differs rfl hsame

end

end AttributeTarget

end JarRemap
