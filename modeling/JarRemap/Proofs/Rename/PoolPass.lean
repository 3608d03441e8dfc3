import JarRemap.Proofs.Rename.Renamed
import JarRemap.Proofs.Rename.Yields

/-!
# The pass over the pool

The pass goes through the entries of the pool that was parsed and replaces those that change, while
the pool grows at its end. A step turns one slot: it may put another entry there, and leaves every
other slot alone (`Turns`). As every slot is turned once, and what it was turned to stays, the pool
in the end has in every slot the new form of its entry.
-/

namespace JarRemap

open ConstantPool RenamePass

/-! ## Turning slots -/

/-- The second pool has the entries of the first but perhaps in the given slots, and what it has
beyond them are anchors. -/
structure Turns (slots : List UInt16) (pool pool' : ConstantPool) : Prop where
  valid : pool'.Valid
  size_le : pool.size ≤ pool'.size
  size_le_max : pool'.size ≤ max pool.size maxSize
  carries : pool.Carries pool'
  kept : ∀ i k, i ∉ slots → pool.entry? i = some k → pool'.entry? i = some k
  added : ∀ i k, i ∉ slots → pool'.entry? i = some k →
    pool.entry? i = some k ∨ pool.size ≤ i.toNat ∧ k.IsAnchor

namespace Turns

variable {pool pool' pool'' : ConstantPool} {slots slots' : List UInt16}

theorem of_grows (h : pool.Grows Constant.IsAnchor pool') : Turns slots pool pool' :=
  ⟨h.valid, h.size_le, h.size_le_max, h.carries, fun i k _ hk => h.kept i k hk,
    fun i k _ hk => h.added i k hk⟩

theorem trans (h : Turns slots pool pool') (h' : Turns slots' pool' pool'') :
    Turns (slots ++ slots') pool pool'' := by
  refine ⟨h'.valid, h.size_le.trans h'.size_le, ?_, h.carries.trans h'.carries, ?_, ?_⟩
  · exact h'.size_le_max.trans (max_le h.size_le_max (le_max_right _ _))
  · intro i k hi hk
    rw [List.mem_append, not_or] at hi
    exact h'.kept i k hi.2 (h.kept i k hi.1 hk)
  · intro i k hi hk
    rw [List.mem_append, not_or] at hi
    rcases h'.added i k hi.2 hk with hk | ⟨hle, hk⟩
    · exact h.added i k hi.1 hk
    · exact .inr ⟨h.size_le.trans hle, hk⟩

theorem replace {i : UInt16} {current k : Constant} (hvalid : pool.Valid)
    (hi : pool.entry? i = some current) (hwide : current.isWide = k.isWide) (hk : k.Storable)
    (hanchor : ¬ current.IsAnchor) : Turns [i] pool (pool.replace i k) := by
  refine ⟨hvalid.replace hi hwide hk, by rw [size_replace], ?_, ?_, ?_, ?_⟩
  · rw [size_replace]
    exact le_max_left _ _
  · intro j k' hk' hj
    have hne : j ≠ i := by
      rintro rfl
      rw [hi] at hj
      exact hanchor (Option.some.inj hj ▸ hk')
    rwa [entry?_replace_of_ne k hne]
  · intro j k' hj hk'
    rwa [entry?_replace_of_ne k (by simpa using hj)]
  · intro j k' hj hk'
    rw [entry?_replace_of_ne k (by simpa using hj)] at hk'
    exact .inl hk'

end Turns

/-- The step turns the slot, which holds `k` so far. If it succeeds and its anchors are still there
in `final`, then `post` holds of what the slot holds then. -/
def TurnsTo (r : Remapper) (source final : ConstantPool) (slot : UInt16) (k : Constant)
    (x : PoolPass Renaming Unit) (post : Constant → Prop) : Prop :=
  ∀ pool, pool.Valid → source.Carries pool → pool.entry? slot = some k →
    Renaming.Ensures r (x pool) fun result => Turns [slot] pool result.2 ∧
      (result.2.Carries final → ∃ k', ConstantPool.entry? result.2 slot = some k' ∧ post k')

namespace TurnsTo

variable {r : Remapper} {source final : ConstantPool} {owner : String} {slot : UInt16}
  {k : Constant} {α : Type}

theorem stay {post : Constant → Prop} (h : post k) :
    TurnsTo r source final slot k (pure ()) post :=
  fun _ hvalid _ hslot => .pure ⟨.of_grows (.refl hvalid), fun _ => ⟨k, hslot, h⟩⟩

theorem bind {x : PoolPass Renaming α} {f : α → PoolPass Renaming Unit} {post : α → Prop}
    {post' : Constant → Prop} (hx : Yields r source final x post)
    (hf : ∀ a, TurnsTo r source final slot k (f a) fun k' => post a → post' k') :
    TurnsTo r source final slot k (x >>= f) post' := by
  intro pool hvalid hsource hslot
  refine (hx pool hvalid hsource).bind fun ⟨a, pool₁⟩ ⟨hgrows, hpost⟩ => ?_
  refine (hf a pool₁ hgrows.valid (hsource.trans hgrows.carries) (hgrows.kept _ _ hslot)).mono ?_
  rintro ⟨⟨⟩, pool₂⟩ ⟨hturns, hpost'⟩
  have hnone : Turns [] pool pool₁ := .of_grows hgrows
  refine ⟨hnone.trans hturns, fun hfinal => ?_⟩
  obtain ⟨k', hk', himp⟩ := hpost' hfinal
  exact ⟨k', hk', himp (hpost (hturns.carries.trans hfinal))⟩

theorem mono {x : PoolPass Renaming Unit} {post post' : Constant → Prop}
    (hx : TurnsTo r source final slot k x post) (h : ∀ k', post k' → post' k') :
    TurnsTo r source final slot k x post' := by
  intro pool hvalid hsource hslot
  refine (hx pool hvalid hsource hslot).mono fun result hresult => ?_
  refine ⟨hresult.1, fun hfinal => ?_⟩
  obtain ⟨k', hk', hpost⟩ := hresult.2 hfinal
  exact ⟨k', hk', h k' hpost⟩

/-- What a pass knows about the pool that it ends with: it has the anchors of the source. -/
theorem carries {x : PoolPass Renaming Unit} {post : Constant → Prop}
    (hx : TurnsTo r source final slot k x fun k' => source.Carries final → post k') :
    TurnsTo r source final slot k x post := by
  intro pool hvalid hsource hslot
  refine (hx pool hvalid hsource hslot).mono fun result ⟨hturns, hpost⟩ => ?_
  refine ⟨hturns, fun hfinal => ?_⟩
  obtain ⟨k', hk', himp⟩ := hpost hfinal
  exact ⟨k', hk', himp (hsource.trans (hturns.carries.trans hfinal))⟩

/-- An entry that is no text takes the place of one that is no anchor. -/
theorem set {k' : Constant} {post : Constant → Prop} (hanchor : ¬ k.IsAnchor)
    (hk' : k'.Storable) (h : post k') :
    TurnsTo r source final slot k (RenamePass.edit (PoolEdit.set slot k')) post := by
  intro pool hvalid _ hslot
  rw [RenamePass.edit]
  rcases hrun : PoolEdit.set slot k' pool with ⟨e | ⟨⟩, pool'⟩
  · exact .throw
  · obtain ⟨rfl, -, current, hcurrent, hwide⟩ := PoolEdit.set_ok hrun
    obtain rfl : k = current := Option.some.inj (hslot.symm.trans hcurrent)
    refine .pure ⟨.replace hvalid hslot hwide hk' hanchor, fun _ => ?_⟩
    exact ⟨k', entry?_replace_self hslot, h⟩

end TurnsTo

/-! ## Entries -/

section

variable {r : Remapper} {source final : ConstantPool} {owner : String}
  {attributes : List Attribute} {slot : UInt16}

theorem Yields.replaceDescriptor (index : UInt16) :
    Yields r source final ((r.pass source owner).replaceDescriptor index)
      fun i => DescriptorRenamed r source final index i := by
  refine (Yields.read _).bind fun d => ?_
  refine (Yields.newDescriptor d).bind fun d' => ?_
  exact (Yields.replaceText index d').mono fun i hi hd' hd => ⟨d, d', hd, hd', hi.2⟩

theorem Yields.retarget (nat : UInt16) (newName : String) :
    Yields r source final ((r.pass source owner).retarget nat newName) fun fresh =>
      ∃ n d d', source.nameAndType nat = .ok (n, d) ∧
        renameDescriptor r.table.newClassName d = .ok d' ∧
        final.nameAndType (fresh.getD nat) = .ok (newName, d') := by
  refine Yields.carries ((Yields.read _).bind fun ⟨n, d⟩ => ?_)
  refine (Yields.newDescriptor d).bind fun d' => ?_
  split
  case isTrue hsame =>
    rw [Bool.and_eq_true, decide_eq_true_iff, decide_eq_true_iff] at hsame
    obtain ⟨rfl, rfl⟩ := hsame
    exact .pure fun hd hnat hfinal => ⟨_, _, _, hnat, hd, hfinal.nameAndType hnat⟩
  case isFalse =>
    exact (Yields.putNameAndType newName d').map fun i hi hd hnat _ => ⟨n, d, d', hnat, hd, hi⟩

/-- An entry that is stored again with the name and descriptor that its own ones are renamed to. -/
theorem turnsTo_retarget {build : UInt16 → Constant}
    {store : Option UInt16 → PoolPass Renaming Unit} {nat : UInt16} {newName : String}
    {post : Constant → Prop} (hnone : store none = pure ())
    (hsome : ∀ i, store (some i) = RenamePass.edit (PoolEdit.set slot (build i)))
    (hanchor : ¬ (build nat).IsAnchor) (hstorable : ∀ i, (build i).Storable)
    (hpost : ∀ i n d d', source.nameAndType nat = .ok (n, d) →
      renameDescriptor r.table.newClassName d = .ok d' →
      final.nameAndType i = .ok (newName, d') → post (build i)) :
    TurnsTo r source final slot (build nat)
      ((r.pass source owner).retarget nat newName >>= store) post := by
  refine .bind (Yields.retarget nat newName) fun fresh => ?_
  rcases fresh with _ | fresh
  · rw [hnone]
    exact .stay fun ⟨n, d, d', hnat, hd, hfinal⟩ => hpost nat n d d' hnat hd hfinal
  · rw [hsome]
    exact .set hanchor (hstorable fresh)
      fun ⟨n, d, d', hnat, hd, hfinal⟩ => hpost fresh n d d' hnat hd hfinal

theorem turnsTo_renameReference (kind : MemberKind) (build : UInt16 → UInt16 → Constant)
    {holder nat : UInt16} (hanchor : ∀ nat, ¬ (build holder nat).IsAnchor)
    (hstorable : ∀ nat, (build holder nat).Storable) :
    TurnsTo r source final slot (build holder nat)
      ((r.pass source owner).renameReference kind build slot holder nat) fun k' =>
        ∃ nat', k' = build holder nat' ∧ ReferenceRenamed r source final kind holder nat nat' := by
  refine .bind (Yields.read _) fun o => ?_
  refine .bind (Yields.read _) fun ⟨n, d⟩ => ?_
  refine .bind (Yields.newMemberName kind o n d) fun n' => ?_
  refine turnsTo_retarget rfl (fun _ => rfl) (hanchor nat) hstorable ?_
  intro nat' n₁ d₁ d' hnat' hd' hfinal hn' hnat ho
  cases hnat.symm.trans hnat'
  exact ⟨nat', rfl, o, n, d, n', d', ho, hnat, hn', hd', hfinal⟩

/-- Where one of the conditions for a lambda fails, the call site keeps its name. -/
theorem siteNamed_of_not {bootstrap : UInt16} {n d : String}
    (h : ∀ interfaceName erased, ¬ LambdaSite source attributes bootstrap d interfaceName erased) :
    SiteNamed r source attributes bootstrap n d ((none : Option String).getD n) :=
  .inr ⟨h, rfl⟩

/-- What the site of a lambda is, where the bootstrap methods are known. -/
theorem LambdaSite.linked_by {bootstraps : List BootstrapMethod} {bootstrap : UInt16}
    {d interfaceName erased : String}
    (h : LambdaSite source attributes bootstrap d interfaceName erased)
    (hbootstraps :
      AttributeFormat.bootstrapMethods.parseAmong source attributes = .ok (some bootstraps)) :
    ∃ linker kind reference factory first index, bootstraps[bootstrap.toNat]? = some linker ∧
      source.get linker.method = .ok (.methodHandle kind reference) ∧
      source.memberReference reference = .ok factory ∧
      factory.owner = lambdaFactory ∧ factory.name ∈ lambdaLinkers ∧
      linker.arguments.head? = some first ∧ source.get first = .ok (.methodType index) ∧
      source.text index = .ok erased := by
  obtain ⟨bs, linker, kind, reference, factory, first, index, hbs, hlinker, hmethod, hfactory,
    howner, hname, hfirst, htype, htext⟩ := h.linked
  cases hbootstraps.symm.trans hbs
  exact ⟨linker, kind, reference, factory, first, index, hlinker, get_ok_iff.2 hmethod, hfactory,
    howner, hname, hfirst, get_ok_iff.2 htype, htext⟩

theorem Yields.lambdaName {bootstraps : List BootstrapMethod}
    (hbootstraps :
      AttributeFormat.bootstrapMethods.parseAmong source attributes = .ok (some bootstraps))
    (bootstrap : UInt16) (n d : String) :
    Yields r source final ((r.pass source owner).lambdaName bootstraps bootstrap n d)
      fun name => SiteNamed r source attributes bootstrap n d (name.getD n) := by
  rw [RenamePass.lambdaName]
  -- Each test that fails refutes one condition on the site of a lambda.
  split
  case h_2 hlinker =>
    refine .pure (siteNamed_of_not fun interfaceName erased hsite => ?_)
    obtain ⟨linker, _, _, _, _, _, hlinker', -⟩ := hsite.linked_by hbootstraps
    exact hlinker linker hlinker'
  case h_1 linker hlinker =>
  refine (Yields.read _).bind fun k => ?_
  split
  case h_2 hkind =>
    refine .pure fun hk => siteNamed_of_not fun interfaceName erased hsite => ?_
    obtain ⟨_, kind, reference, _, _, _, hlinker', hk', -⟩ := hsite.linked_by hbootstraps
    cases hlinker.symm.trans hlinker'
    cases hk.symm.trans hk'
    exact hkind kind reference rfl
  case h_1 kind reference =>
  refine (Yields.read _).bind fun factory => ?_
  split
  case isTrue hfactory =>
    refine .pure fun hfactory' hk => siteNamed_of_not fun interfaceName erased hsite => ?_
    obtain ⟨_, _, _, _, _, _, hlinker', hk', hfactory'', howner, hname, -⟩ :=
      hsite.linked_by hbootstraps
    cases hlinker.symm.trans hlinker'
    cases hk.symm.trans hk'
    cases hfactory'.symm.trans hfactory''
    simp [howner, hname] at hfactory
  case isFalse hfactory =>
  have hfactory : factory.owner = lambdaFactory ∧ factory.name ∈ lambdaLinkers := by
    simpa using hfactory
  split
  case h_2 hfirst =>
    refine .pure fun _ _ => siteNamed_of_not fun interfaceName erased hsite => ?_
    obtain ⟨_, _, _, _, first, _, hlinker', -, -, -, -, hfirst', -⟩ := hsite.linked_by hbootstraps
    cases hlinker.symm.trans hlinker'
    exact hfirst first hfirst'
  case h_1 first hfirst =>
  refine (Yields.read _).bind fun type => ?_
  split
  case h_2 htype =>
    refine .pure fun htype' _ _ => siteNamed_of_not fun interfaceName erased hsite => ?_
    obtain ⟨_, _, _, _, _, index, hlinker', -, -, -, -, hfirst', htype'', -⟩ :=
      hsite.linked_by hbootstraps
    cases hlinker.symm.trans hlinker'
    cases hfirst.symm.trans hfirst'
    cases htype'.symm.trans htype''
    exact htype index rfl
  case h_1 index =>
  refine (Yields.orFail _ _).bind fun site => ?_
  split
  case h_2 hret =>
    refine .pure fun hsite' _ _ _ => siteNamed_of_not fun interfaceName erased hsite => ?_
    obtain ⟨params, hparse⟩ := hsite.returned
    cases hsite'.symm.trans hparse
    exact hret interfaceName rfl
  case h_1 interfaceName hret =>
  refine (Yields.read _).bind fun erased => ?_
  refine (Yields.newMemberName .method interfaceName n erased).map fun name hname => ?_
  intro herased hparse htype hmember hk
  obtain ⟨params, ret⟩ := site
  obtain rfl : ret = _ := hret
  refine .inl ⟨interfaceName, erased, ⟨⟨bootstraps, linker, kind, reference, factory, first, index,
    hbootstraps, hlinker, get_ok_iff.1 hk, hmember, hfactory.1, hfactory.2, hfirst,
    get_ok_iff.1 htype, herased⟩, params, hparse⟩, hname⟩

/-- Without bootstrap methods there is no lambda. -/
theorem siteNamed_of_none
    (hbootstraps : AttributeFormat.bootstrapMethods.parseAmong source attributes = .ok none)
    (bootstrap : UInt16) (n d : String) : SiteNamed r source attributes bootstrap n d n := by
  refine siteNamed_of_not fun interfaceName erased hsite => ?_
  obtain ⟨bs, _, _, _, _, _, _, hbs, -⟩ := hsite.linked
  cases hbootstraps.symm.trans hbs

/-- Renaming the entry in a slot turns the slot to the new form of the entry. -/
theorem turnsTo_renameConstant {bootstraps : Option (List BootstrapMethod)}
    (hbootstraps :
      AttributeFormat.bootstrapMethods.parseAmong source attributes = .ok bootstraps)
    (k : Constant) :
    TurnsTo r source final slot k ((r.pass source owner).renameConstant bootstraps slot k)
      (EntryRenamed r source final attributes k) := by
  cases k
  case classEntry name =>
    refine .carries (.bind (Yields.read _) fun old => ?_)
    refine .bind (Yields.orFail _ _) fun new => ?_
    by_cases hsame : new ≠ old
    · rw [if_pos hsame]
      refine .bind (Yields.putText new) fun name' => ?_
      exact .set id trivial fun hname' hnew hold _ => .classEntry hold hnew hname'
    · rw [if_neg hsame]
      obtain rfl : new = old := not_not.1 hsame
      exact .stay fun hnew hold hfinal => .classEntry hold hnew (hfinal.text hold)
  case fieldRef holder nat =>
    refine (turnsTo_renameReference .field .fieldRef (fun _ => id) fun _ => trivial).mono ?_
    rintro _ ⟨nat', rfl, h⟩
    exact .fieldRef h
  case methodRef holder nat =>
    refine (turnsTo_renameReference .method .methodRef (fun _ => id) fun _ => trivial).mono ?_
    rintro _ ⟨nat', rfl, h⟩
    exact .methodRef h
  case interfaceMethodRef holder nat =>
    refine (turnsTo_renameReference .method .interfaceMethodRef (fun _ => id)
      fun _ => trivial).mono ?_
    rintro _ ⟨nat', rfl, h⟩
    exact .interfaceMethodRef h
  case methodType descriptor =>
    refine .bind (Yields.replaceDescriptor descriptor) fun new => ?_
    by_cases hsame : new ≠ descriptor
    · rw [if_pos hsame]
      exact .set id trivial .methodType
    · rw [if_neg hsame]
      obtain rfl : new = descriptor := not_not.1 hsame
      exact .stay .methodType
  case dynamic bootstrap nat =>
    refine .bind (Yields.read _) fun ⟨n, d⟩ => ?_
    refine turnsTo_retarget rfl (fun _ => rfl) id (fun _ => trivial) ?_
    intro nat' n₁ d₁ d' hnat' hd' hfinal hnat
    cases hnat.symm.trans hnat'
    exact .dynamic hnat hd' hfinal
  case invokeDynamic bootstrap nat =>
    refine .bind (Yields.read _) fun ⟨n, d⟩ => ?_
    have hpost : ∀ name : Option String, ∀ nat' n₁ d₁ d', source.nameAndType nat = .ok (n₁, d₁) →
        renameDescriptor r.table.newClassName d₁ = .ok d' →
        final.nameAndType nat' = .ok (name.getD n, d') →
        SiteNamed r source attributes bootstrap n d (name.getD n) →
        source.nameAndType nat = .ok (n, d) →
        EntryRenamed r source final attributes (.invokeDynamic bootstrap nat)
          (.invokeDynamic bootstrap nat') := by
      intro name nat' n₁ d₁ d' hnat' hd' hfinal hsite hnat
      cases hnat.symm.trans hnat'
      exact .invokeDynamic hnat hsite hd' hfinal
    -- What is stored is the same either way; the ways differ in how the name is found.
    rcases bootstraps with _ | bootstraps
    · have hkept : Yields r source final (pure none) fun name : Option String =>
          SiteNamed r source attributes bootstrap n d (name.getD n) :=
        .pure (siteNamed_of_none hbootstraps bootstrap n d)
      refine .bind hkept fun name => ?_
      exact turnsTo_retarget rfl (fun _ => rfl) id (fun _ => trivial) (hpost name)
    · refine .bind (Yields.lambdaName hbootstraps bootstrap n d) fun name => ?_
      exact turnsTo_retarget rfl (fun _ => rfl) id (fun _ => trivial) (hpost name)
  all_goals exact .stay (.kept trivial)

/-! ## The whole pool -/

variable (owner final) in
/-- Renaming entries in different slots turns each slot to the new form of its entry. -/
theorem renameEntries_ensures {bootstraps : Option (List BootstrapMethod)}
    (hbootstraps :
      AttributeFormat.bootstrapMethods.parseAmong source attributes = .ok bootstraps)
    (l : List (UInt16 × Constant)) (hnodup : (l.map Prod.fst).Nodup) (pool : ConstantPool)
    (hvalid : pool.Valid) (hsource : source.Carries pool)
    (hl : ∀ p ∈ l, pool.entry? p.1 = some p.2) :
    Renaming.Ensures r
      ((l.forM fun (i, k) => (r.pass source owner).renameConstant bootstraps i k :
        PoolPass Renaming Unit) pool)
      fun result => Turns (l.map Prod.fst) pool result.2 ∧ (result.2.Carries final →
        ∀ p ∈ l, ∃ k', ConstantPool.entry? result.2 p.1 = some k' ∧
          EntryRenamed r source final attributes p.2 k') := by
  -- The entries behind the first one are untouched by its step, since their slots differ, so they
  -- can be renamed in the pool that the step leaves.
  induction l generalizing pool with
  | nil => exact .pure ⟨.of_grows (.refl hvalid), fun _ _ hp => by cases hp⟩
  | cons p l ih =>
    obtain ⟨i, k⟩ := p
    rw [List.map_cons, List.nodup_cons] at hnodup
    obtain ⟨hi, hnodup⟩ := hnodup
    have hslot : pool.entry? i = some k := hl (i, k) (by simp)
    have hstep : TurnsTo r source final i k
        ((r.pass source owner).renameConstant bootstraps i k) _ :=
      turnsTo_renameConstant hbootstraps k
    refine (hstep pool hvalid hsource hslot).bind ?_
    rintro ⟨⟨⟩, pool₁⟩ ⟨hturns, hpost⟩
    have hrest : ∀ p ∈ l, entry? pool₁ p.1 = some p.2 := by
      intro p hp
      have hne : p.1 ∉ [i] := by
        intro heq
        have hmem : p.1 ∈ l.map Prod.fst := List.mem_map_of_mem hp
        exact hi (List.mem_singleton.1 heq ▸ hmem)
      exact hturns.kept p.1 p.2 hne (hl p (by simp [hp]))
    refine (ih hnodup pool₁ hturns.valid (hsource.trans hturns.carries) hrest).mono ?_
    rintro ⟨⟨⟩, pool₂⟩ ⟨hturns', hpost'⟩
    refine ⟨hturns.trans hturns', fun hfinal => List.forall_mem_cons.2 ⟨?_, hpost' hfinal⟩⟩
    obtain ⟨k', hk', hrenamed⟩ := hpost (hturns'.carries.trans hfinal)
    exact ⟨k', hturns'.kept i k' hi hk', hrenamed⟩

end

/-- A pool that is no longer than slot numbers reach lists its entries with their slots. -/
theorem mem_toList_iff {pool : ConstantPool} (hsize : pool.size ≤ maxSize) {i : UInt16}
    {k : Constant} : (i, k) ∈ pool.toList ↔ pool.entry? i = some k := by
  rw [toList, List.mem_filterMap, ConstantPool.entry?, Option.join_eq_some_iff,
    ← Array.getElem?_toList]
  constructor
  · rintro ⟨⟨slot, n⟩, hmem, heq⟩
    rw [List.mk_mem_zipIdx_iff_getElem?] at hmem
    obtain ⟨k', rfl, heq'⟩ := Option.map_eq_some_iff.1 heq
    obtain ⟨rfl, rfl⟩ := Prod.mk.inj heq'
    have hn := (List.getElem?_eq_some_iff.1 hmem).1
    rw [Array.length_toList] at hn
    rwa [toNat_ofNat_slot hsize hn]
  · intro h
    refine ⟨(some k, i.toNat), List.mk_mem_zipIdx_iff_getElem?.2 h, ?_⟩
    show some (UInt16.ofNat i.toNat, k) = some (i, k)
    rw [UInt16.ofNat_toNat]

theorem nodup_toList {pool : ConstantPool} (hsize : pool.size ≤ maxSize) :
    (pool.toList.map Prod.fst).Nodup := by
  have hlt : (pool.slots.toList.zipIdx).Pairwise fun a b => a.2 < b.2 := by
    rw [← List.pairwise_map (f := Prod.snd) (R := (· < ·)), List.zipIdx_map_snd]
    exact List.pairwise_lt_range'
  rw [List.Nodup, List.pairwise_map, toList, List.pairwise_filterMap]
  refine List.Pairwise.imp_of_mem ?_ hlt
  rintro ⟨slot, m⟩ ⟨slot', n⟩ hm hn hmn ⟨i, k⟩ hi ⟨j, k'⟩ hj heq
  obtain ⟨_, -, hi⟩ := Option.map_eq_some_iff.1 hi
  obtain ⟨_, -, hj⟩ := Option.map_eq_some_iff.1 hj
  obtain ⟨rfl, rfl⟩ := Prod.mk.inj hi
  obtain ⟨rfl, rfl⟩ := Prod.mk.inj hj
  have hm' := (List.getElem?_eq_some_iff.1 (List.mk_mem_zipIdx_iff_getElem?.1 hm)).1
  have hn' := (List.getElem?_eq_some_iff.1 (List.mk_mem_zipIdx_iff_getElem?.1 hn)).1
  rw [Array.length_toList] at hm' hn'
  have heq' := congrArg UInt16.toNat heq
  rw [toNat_ofNat_slot hsize hm', toNat_ofNat_slot hsize hn'] at heq'
  exact absurd heq' (Nat.ne_of_lt hmn)

/-! ## What the pass leaves -/

/-- Every entry of the source has its new form in the new pool, and all other entries of the new
pool are anchors behind those of the source. -/
structure PoolTurned (r : Remapper) (attributes : List Attribute)
    (source new final : ConstantPool) : Prop where
  valid : new.Valid
  size_le : source.size ≤ new.size
  size_le_max : new.size ≤ max source.size maxSize
  carries : source.Carries new
  renamed : ∀ i k, source.entry? i = some k →
    ∃ k', new.entry? i = some k' ∧ EntryRenamed r source final attributes k k'
  added : ∀ i k, source.entry? i = none → new.entry? i = some k →
    source.size ≤ i.toNat ∧ k.IsAnchor

theorem renamePool_ensures {r : Remapper} {source : ConstantPool} (owner : String)
    (attributes : List Attribute) (hvalid : source.Valid) (hsize : source.size ≤ maxSize) :
    Renaming.Ensures r ((r.pass source owner).renamePool attributes source) fun result =>
      ∀ final, result.2.Carries final → PoolTurned r attributes source result.2 final := by
  have hmem : ∀ {i k}, source.entry? i = some k → (i, k) ∈ source.toList :=
    (mem_toList_iff hsize).2
  refine .all fun final => (read_ensures _ source).bind ?_
  rintro ⟨bootstraps, pool⟩ ⟨hbootstraps, hpool⟩
  obtain rfl : pool = source := hpool
  refine (renameEntries_ensures final owner hbootstraps _ (nodup_toList hsize) pool hvalid
    (.refl pool) fun p hp => (mem_toList_iff hsize).1 hp).mono ?_
  rintro ⟨⟨⟩, new⟩ ⟨hturns, hpost⟩ hfinal
  refine ⟨hturns.valid, hturns.size_le, hturns.size_le_max, hturns.carries, ?_, ?_⟩
  · intro i k hk
    exact hpost hfinal (i, k) (hmem hk)
  · intro i k hnone hk
    have hi : i ∉ pool.toList.map Prod.fst := by
      intro hi
      obtain ⟨⟨j, k'⟩, hj, rfl⟩ := List.mem_map.1 hi
      rw [(mem_toList_iff hsize).1 hj] at hnone
      cases hnone
    rcases hturns.added i k hi hk with hk | hadded
    · rw [hnone] at hk
      cases hk
    · exact hadded

end JarRemap
