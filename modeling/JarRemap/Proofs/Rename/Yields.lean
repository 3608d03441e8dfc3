import JarRemap.Proofs.Pool.Replace
import JarRemap.Proofs.Rename.Memory

/-!
# What a pass yields

The passes over a class read old names from the pool as it was parsed and put new ones into the pool
as it becomes. What they put there are *anchors*, texts and names with descriptors, and no anchor is
ever replaced: a slot that resolves to a text at some point does so in the end.

`Yields` states what a step of a pass gives in terms of the pool in the end, whichever pool it is
started on. Steps are composed with `Yields.bind` and `Yields.mapM`.
-/

namespace JarRemap

/-- An entry that a renaming may append and does not replace. -/
def Constant.IsAnchor : Constant → Prop
  | .utf8 _ | .nameAndType _ _ => True
  | _ => False

namespace ConstantPool

/-- The second pool has the anchors of the first. -/
def Carries (pool pool' : ConstantPool) : Prop :=
  ∀ i k, k.IsAnchor → pool.entry? i = some k → pool'.entry? i = some k

namespace Carries

variable {pool pool' pool'' : ConstantPool}

protected theorem refl (pool : ConstantPool) : pool.Carries pool :=
  fun _ _ _ h => h

protected theorem trans (h : pool.Carries pool') (h' : pool'.Carries pool'') :
    pool.Carries pool'' :=
  fun i k hk hi => h' i k hk (h i k hk hi)

theorem text (h : pool.Carries pool') {i : UInt16} {s : String} (hs : pool.text i = .ok s) :
    pool'.text i = .ok s :=
  text_ok_iff.2 (h i _ trivial (text_ok_iff.1 hs))

theorem nameAndType (h : pool.Carries pool') {i : UInt16} {s t : String}
    (hst : pool.nameAndType i = .ok (s, t)) : pool'.nameAndType i = .ok (s, t) := by
  obtain ⟨name, descriptor, hi, hname, hdescriptor⟩ := nameAndType_ok_iff.1 hst
  exact nameAndType_ok_iff.2 ⟨name, descriptor, h i _ trivial hi, h.text hname, h.text hdescriptor⟩

end Carries

theorem Grows.carries {allowed : Constant → Prop} {pool pool' : ConstantPool}
    (h : pool.Grows allowed pool') : pool.Carries pool' :=
  fun i k _ hi => h.kept i k hi

end ConstantPool

open ConstantPool RenamePass

/-- The passes over a class that a renaming makes. -/
def Remapper.pass (r : Remapper) (source : ConstantPool) (owner : String) : RenamePass Renaming :=
  { table := r.table, memberName := Renaming.memberName r, source, owner }

/-- Started on a valid pool that has the anchors of `source`, the step only appends anchors. If it
succeeds and its anchors are still there in `final`, then `post` holds of what it gives. -/
def Yields {α : Type} (r : Remapper) (source final : ConstantPool) (x : PoolPass Renaming α)
    (post : α → Prop) : Prop :=
  ∀ pool, pool.Valid → source.Carries pool → Renaming.Ensures r (x pool) fun result =>
    pool.Grows Constant.IsAnchor result.2 ∧ (result.2.Carries final → post result.1)

/-- Reading from the source leaves the pool alone. -/
theorem read_ensures {α : Type} {r : Remapper} (x : Except ClassError α) (pool : ConstantPool) :
    Renaming.Ensures r ((RenamePass.read x : PoolPass Renaming α) pool) fun result =>
      x = .ok result.1 ∧ result.2 = pool := by
  cases x with
  | error e => exact .throw
  | ok a => exact .pure ⟨rfl, rfl⟩

namespace Yields

variable {r : Remapper} {source final : ConstantPool} {owner : String} {α β : Type}

/-! ## Composition -/

theorem pure {a : α} {post : α → Prop} (h : post a) :
    Yields r source final (Pure.pure a) post :=
  fun _ hvalid _ => .pure ⟨.refl hvalid, fun _ => h⟩

theorem bind {x : PoolPass Renaming α} {f : α → PoolPass Renaming β} {post : α → Prop}
    {post' : β → Prop} (hx : Yields r source final x post)
    (hf : ∀ a, Yields r source final (f a) fun b => post a → post' b) :
    Yields r source final (x >>= f) post' := by
  intro pool hvalid hsource
  refine (hx pool hvalid hsource).bind fun ⟨a, pool₁⟩ ⟨hgrows, hpost⟩ => ?_
  refine (hf a pool₁ hgrows.valid (hsource.trans hgrows.carries)).mono ?_
  rintro ⟨b, pool₂⟩ ⟨hgrows', hpost'⟩
  refine ⟨hgrows.trans hgrows', fun hfinal => hpost' hfinal (hpost ?_)⟩
  exact hgrows'.carries.trans hfinal

theorem mono {x : PoolPass Renaming α} {post post' : α → Prop} (hx : Yields r source final x post)
    (h : ∀ a, post a → post' a) : Yields r source final x post' := by
  intro pool hvalid hsource
  refine (hx pool hvalid hsource).mono fun result hresult => ?_
  exact ⟨hresult.1, fun hfinal => h _ (hresult.2 hfinal)⟩

/-- A step whose result is put into something greater. -/
theorem map {x : PoolPass Renaming α} {f : α → β} {post : α → Prop} {post' : β → Prop}
    (hx : Yields r source final x post) (h : ∀ a, post a → post' (f a)) :
    Yields r source final (do return f (← x)) post' :=
  hx.bind fun a => .pure (h a)

theorem mapM {f : α → PoolPass Renaming β} {rel : α → β → Prop} {l : List α}
    (hf : ∀ a ∈ l, Yields r source final (f a) (rel a)) :
    Yields r source final (l.mapM f) (List.Forall₂ rel l) := by
  induction l with
  | nil => exact .pure .nil
  | cons a l ih =>
    rw [List.mapM_cons]
    refine (hf a (by simp)).bind fun b => ?_
    refine (ih fun a ha => hf a (by simp [ha])).bind fun bs => ?_
    exact .pure fun hl ha => .cons ha hl

/-! ## Steps -/

theorem orFail {ε : Type} (wrap : ε → TransformError) (x : Except ε α) :
    Yields r source final (JarRemap.orFail wrap x) fun a => x = .ok a := by
  cases x with
  | error e => exact fun _ _ _ => Renaming.Ensures.throw
  | ok a => exact .pure rfl

theorem read (x : Except ClassError α) :
    Yields r source final (RenamePass.read x) fun a => x = .ok a :=
  orFail .classFile x

/-- Reading first, where what is read matters for how to go on. -/
theorem read_bind {x : Except ClassError α} {f : α → PoolPass Renaming β} {post : β → Prop}
    (hf : ∀ a, x = .ok a → Yields r source final (f a) post) :
    Yields r source final (RenamePass.read x >>= f) post := by
  intro pool hvalid hsource
  refine (read_ensures x pool).bind ?_
  rintro ⟨a, pool'⟩ ⟨ha, hpool⟩
  obtain rfl : pool' = pool := hpool
  exact hf a ha pool' hvalid hsource

theorem edit {x : PoolEdit α} {post : ConstantPool → α → Prop} {post' : α → Prop}
    (hx : ∀ pool, PoolEdit.Adds Constant.IsAnchor pool x post)
    (h : ∀ pool a, pool.Carries final → post pool a → post' a) :
    Yields r source final (RenamePass.edit x) post' := by
  intro pool hvalid _
  rw [RenamePass.edit]
  rcases hrun : x pool with ⟨e | a, pool'⟩
  · exact .throw
  · obtain ⟨hgrows, hpost⟩ := hx pool hvalid _ _ hrun
    exact .pure ⟨hgrows, fun hfinal => h pool' a hfinal (hpost a rfl)⟩

theorem putText (s : String) :
    Yields r source final (RenamePass.edit (PoolEdit.putText s)) fun i => final.text i = .ok s :=
  edit (fun _ => PoolEdit.putText_adds trivial) fun _ _ hfinal h => hfinal.text h

theorem putNameAndType (s t : String) :
    Yields r source final (RenamePass.edit (PoolEdit.putNameAndType s t))
      fun i => final.nameAndType i = .ok (s, t) :=
  edit (fun _ => PoolEdit.putNameAndType_adds trivial trivial fun _ _ => trivial)
    fun _ _ hfinal h => hfinal.nameAndType h

/-- What a pass knows about the pool that it ends with: it has the anchors of the source. -/
theorem carries {x : PoolPass Renaming α} {post : α → Prop}
    (hx : Yields r source final x fun a => source.Carries final → post a) :
    Yields r source final x post := by
  intro pool hvalid hsource
  refine (hx pool hvalid hsource).mono fun result hresult => ?_
  refine ⟨hresult.1, fun hfinal => hresult.2 hfinal ?_⟩
  exact hsource.trans (hresult.1.carries.trans hfinal)

theorem newMemberName (kind : MemberKind) (holder name descriptor : String) :
    Yields r source final ((r.pass source owner).newMemberName kind holder name descriptor)
      fun n => r.memberName ⟨kind, holder, name, descriptor⟩ = .ok n :=
  fun _ hvalid _ => (Renaming.Ensures.memberName _).bind fun _ hn =>
    .pure ⟨.refl hvalid, fun _ => hn⟩

theorem newDescriptor (descriptor : String) :
    Yields r source final ((r.pass source owner).newDescriptor descriptor)
      fun d => renameDescriptor r.table.newClassName descriptor = .ok d :=
  orFail .descriptor _

theorem replaceText (index : UInt16) (new : String) :
    Yields r source final ((r.pass source owner).replaceText index new)
      fun i => (∃ old, source.text index = .ok old) ∧ final.text i = .ok new := by
  refine carries ((read _).bind fun old => ?_)
  by_cases hsame : old = new
  · rw [if_pos hsame]
    exact .pure fun hold hfinal => ⟨⟨old, hold⟩, hsame ▸ hfinal.text hold⟩
  · rw [if_neg hsame]
    exact (putText new).mono fun i hi hold _ => ⟨⟨old, hold⟩, hi⟩

end Yields

end JarRemap
