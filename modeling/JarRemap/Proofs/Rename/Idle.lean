import JarRemap.Proofs.Rename.Alike
import JarRemap.Proofs.Rename.Asked
import JarRemap.Proofs.Signature.Renamed

/-!
# A renaming that renames nothing

Where every name that a class asks for is given back, no step of the passes over it does anything:
each gives what it was given and leaves the pool alone. For a step that edits, this is so because it
edits only what changes; for one that decodes a body and writes it again, because the formats are
exact.
-/

namespace JarRemap

open ConstantPool RenamePass

/-- Started on any pool, the step leaves it alone, and if it succeeds, `post` holds of what it
gives. -/
def Idle {α : Type} (r : Remapper) (x : PoolPass Renaming α) (post : α → Prop) : Prop :=
  ∀ pool, Renaming.Ensures r (x pool) fun result => result.2 = pool ∧ post result.1

namespace Idle

variable {r : Remapper} {source : ConstantPool} {owner : String} {α β : Type}

/-! ## Composition -/

theorem pure {a : α} {post : α → Prop} (h : post a) : Idle r (Pure.pure a) post :=
  fun _ => .pure ⟨rfl, h⟩

theorem bind {x : PoolPass Renaming α} {f : α → PoolPass Renaming β} {post : α → Prop}
    {post' : β → Prop} (hx : Idle r x post) (hf : ∀ a, post a → Idle r (f a) post') :
    Idle r (x >>= f) post' := by
  intro pool
  refine (hx pool).bind ?_
  rintro ⟨a, pool'⟩ ⟨hpool, ha⟩
  obtain rfl : pool' = pool := hpool
  exact hf a ha pool'

/-- A step whose result is put into something greater. -/
theorem map {x : PoolPass Renaming α} {f : α → β} {a : α} (hx : Idle r x (· = a)) :
    Idle r (do return f (← x)) (· = f a) :=
  hx.bind fun _ ha => .pure (congrArg f ha)

theorem mapM {f : α → PoolPass Renaming α} {l : List α} (hf : ∀ a ∈ l, Idle r (f a) (· = a)) :
    Idle r (l.mapM f) (· = l) := by
  induction l with
  | nil => exact .pure rfl
  | cons a l ih =>
    rw [List.forall_mem_cons] at hf
    rw [List.mapM_cons]
    refine hf.1.bind ?_
    rintro _ rfl
    refine (ih hf.2).bind ?_
    rintro _ rfl
    exact .pure rfl

theorem forM {f : α → PoolPass Renaming Unit} {l : List α}
    (hf : ∀ a ∈ l, Idle r (f a) fun _ => True) : Idle r (l.forM f) fun _ => True := by
  induction l with
  | nil => exact .pure trivial
  | cons a l ih =>
    rw [List.forall_mem_cons] at hf
    exact hf.1.bind fun _ _ => ih hf.2

theorem orFail {ε : Type} (wrap : ε → TransformError) (x : Except ε α) :
    Idle r (JarRemap.orFail wrap x) fun a => x = .ok a := by
  cases x with
  | error e => exact fun _ => Renaming.Ensures.throw
  | ok a => exact .pure rfl

theorem read (x : Except ClassError α) : Idle r (RenamePass.read x) fun a => x = .ok a :=
  orFail .classFile x

/-! ## Steps -/

theorem newMemberName {kind : MemberKind} {holder n d : String}
    (h : r.GivesBack (.memberName ⟨kind, holder, n, d⟩)) :
    Idle r ((r.pass source owner).newMemberName kind holder n d) (· = n) :=
  fun _ => (Renaming.Ensures.memberName _).bind fun name hname => .pure ⟨rfl, h name hname⟩

theorem newDescriptor {s : String} (h : ∀ q, DescriptorAsks s q → r.GivesBack q) :
    Idle r ((r.pass source owner).newDescriptor s) (· = s) := by
  intro pool
  refine (orFail .descriptor _ pool).mono fun result hresult => ⟨hresult.1, ?_⟩
  exact renameDescriptor_eq_self (fun d hd name hname => h _ (.mk hd hname)) hresult.2

theorem replaceText {i : UInt16} {s : String} (hs : source.text i = .ok s) :
    Idle r ((r.pass source owner).replaceText i s) (· = i) := by
  refine (read _).bind fun old hold => ?_
  obtain rfl : old = s := Except.ok.inj (hold.symm.trans hs)
  rw [if_pos rfl]
  exact .pure rfl

theorem replaceDescriptor {i : UInt16}
    (h : ∀ q, SlotAsks source DescriptorAsks i q → r.GivesBack q) :
    Idle r ((r.pass source owner).replaceDescriptor i) (· = i) := by
  refine (read _).bind fun s hs => ?_
  refine (newDescriptor fun q hq => h q (.mk hs hq)).bind ?_
  rintro _ rfl
  exact replaceText hs

/-- A slot for a descriptor whose text is known. -/
theorem replaceDescriptorOf {i : UInt16} {d : String} (hd : source.text i = .ok d)
    (h : ∀ q, DescriptorAsks d q → r.GivesBack q) :
    Idle r ((r.pass source owner).replaceDescriptor i) (· = i) := by
  refine replaceDescriptor ?_
  rintro q ⟨hd', hq⟩
  cases hd.symm.trans hd'
  exact h q hq

theorem replaceSignature {kind : SignatureKind} {i : UInt16}
    (h : ∀ q, SlotAsks source (SignatureAsks kind) i q → r.GivesBack q) :
    Idle r ((r.pass source owner).replaceSignature kind i) (· = i) := by
  refine (read _).bind fun s hs => ?_
  refine (orFail _ _).bind fun s' hs' => ?_
  obtain rfl : s' = s :=
    renameSignature_eq_self (fun sig hsig name hname => h _ (.mk hs (.mk hsig hname))) hs'
  exact replaceText hs

theorem retarget {nat : UInt16} {n d : String} (hnat : source.nameAndType nat = .ok (n, d))
    (h : ∀ q, DescriptorAsks d q → r.GivesBack q) :
    Idle r ((r.pass source owner).retarget nat n) (· = none) := by
  refine (read _).bind ?_
  rintro ⟨n', d'⟩ hnat'
  cases hnat.symm.trans hnat'
  refine (newDescriptor h).bind ?_
  rintro _ rfl
  rw [if_pos (by simp)]
  exact .pure rfl

/-! ## The pool -/

theorem lambdaName {attributes : List Attribute} {bootstraps : List BootstrapMethod}
    (hbootstraps :
      AttributeFormat.bootstrapMethods.parseAmong source attributes = .ok (some bootstraps))
    {bootstrap : UInt16} {n d : String}
    (h : ∀ interfaceName erased, LambdaSite source attributes bootstrap d interfaceName erased →
      r.GivesBack (.memberName ⟨.method, interfaceName, n, erased⟩)) :
    Idle r ((r.pass source owner).lambdaName bootstraps bootstrap n d) (·.getD n = n) := by
  rw [RenamePass.lambdaName]
  split
  case h_2 => exact .pure rfl
  case h_1 linker hlinker =>
  refine (read _).bind fun k hk => ?_
  split
  case h_2 => exact .pure rfl
  case h_1 kind reference =>
  refine (read _).bind fun factory hmember => ?_
  split
  case isTrue => exact .pure rfl
  case isFalse hfactory =>
  have hfactory : factory.owner = lambdaFactory ∧ factory.name ∈ lambdaLinkers := by
    simpa using hfactory
  split
  case h_2 => exact .pure rfl
  case h_1 first hfirst =>
  refine (read _).bind fun type htype => ?_
  split
  case h_2 => exact .pure rfl
  case h_1 index =>
  refine (orFail _ _).bind fun site hparse => ?_
  split
  case h_2 => exact .pure rfl
  case h_1 interfaceName hret =>
  refine (read _).bind fun erased herased => ?_
  obtain ⟨params, ret⟩ := site
  obtain rfl : ret = _ := hret
  refine (newMemberName (h interfaceName erased ?_)).bind ?_
  · exact ⟨⟨bootstraps, linker, kind, reference, factory, first, index, hbootstraps, hlinker,
      get_ok_iff.1 hk, hmember, hfactory.1, hfactory.2, hfirst, get_ok_iff.1 htype, herased⟩,
      params, hparse⟩
  · rintro _ rfl
    exact .pure rfl

theorem renameReference {kind : MemberKind} {build : UInt16 → UInt16 → Constant}
    {slot holder nat : UInt16}
    (h : ∀ o n d q, source.className holder = .ok o → source.nameAndType nat = .ok (n, d) →
      MemberAsks kind o n d q → r.GivesBack q) :
    Idle r ((r.pass source owner).renameReference kind build slot holder nat) fun _ => True := by
  refine (read _).bind fun o ho => ?_
  refine (read _).bind ?_
  rintro ⟨n, d⟩ hnat
  refine (newMemberName (h o n d _ ho hnat .name)).bind fun name hname => ?_
  rw [hname]
  refine (retarget hnat fun q hq => h o n d q ho hnat (.descriptor hq)).bind ?_
  rintro _ rfl
  exact .pure trivial

theorem renameConstant {attributes : List Attribute} {bootstraps : Option (List BootstrapMethod)}
    (hbootstraps :
      AttributeFormat.bootstrapMethods.parseAmong source attributes = .ok bootstraps)
    (slot : UInt16) {k : Constant} (h : ∀ q, ConstantAsks source attributes k q → r.GivesBack q) :
    Idle r ((r.pass source owner).renameConstant bootstraps slot k) fun _ => True := by
  cases k
  case classEntry i =>
    refine (read _).bind fun old hold => ?_
    refine (orFail _ _).bind fun new hnew => ?_
    obtain rfl : new = old := by
      rw [RenameTable.newClassConstant] at hnew
      split at hnew
      case isTrue harray =>
        exact renameDescriptor_eq_self
          (fun d hd name hname => h _ (.arrayName hold harray (.mk hd hname))) hnew
      case isFalse hclass =>
        cases hnew
        exact h _ (.className hold (by simpa using hclass))
    rw [if_neg (by simp)]
    exact .pure trivial
  case fieldRef holder nat =>
    exact renameReference fun o n d q ho hnat hq => h q (.reference rfl rfl ho hnat hq)
  case methodRef holder nat =>
    exact renameReference fun o n d q ho hnat hq => h q (.reference rfl rfl ho hnat hq)
  case interfaceMethodRef holder nat =>
    exact renameReference fun o n d q ho hnat hq => h q (.reference rfl rfl ho hnat hq)
  case methodType i =>
    refine (replaceDescriptor fun q hq => h q (.methodType hq)).bind ?_
    rintro _ rfl
    rw [if_neg (by simp)]
    exact .pure trivial
  case invokeDynamic bootstrap nat =>
    refine (read _).bind ?_
    rintro ⟨n, d⟩ hnat
    have hdescriptor : ∀ q, DescriptorAsks d q → r.GivesBack q :=
      fun q hq => h q (.invokeDynamic hnat hq)
    cases bootstraps with
    | none =>
      have hkept : Idle r (Pure.pure none) (· = (none : Option String)) := .pure rfl
      refine hkept.bind ?_
      rintro _ rfl
      refine (retarget hnat hdescriptor).bind ?_
      rintro _ rfl
      exact .pure trivial
    | some bootstraps =>
      refine (lambdaName hbootstraps fun i e hsite => h _ (.lambda hnat hsite)).bind ?_
      intro newName hname
      dsimp only
      rw [hname]
      refine (retarget hnat hdescriptor).bind ?_
      rintro _ rfl
      exact .pure trivial
  case dynamic bootstrap nat =>
    refine (read _).bind ?_
    rintro ⟨n, d⟩ hnat
    refine (retarget hnat fun q hq => h q (.dynamic hnat hq)).bind ?_
    rintro _ rfl
    exact .pure trivial
  all_goals exact .pure trivial

theorem renamePool {attributes : List Attribute}
    (h : ∀ i k q, (i, k) ∈ source.toList → ConstantAsks source attributes k q → r.GivesBack q) :
    Idle r ((r.pass source owner).renamePool attributes) fun _ => True := by
  refine (read _).bind fun bootstraps hbootstraps => ?_
  exact forM fun ⟨i, k⟩ hk => renameConstant hbootstraps i fun q hq => h i k q hk hq

/-! ## Annotations -/

mutual

theorem renameUse : ∀ use : AnnotationUse, (∀ q, UseAsks source use q → r.GivesBack q) →
    Idle r ((r.pass source owner).renameUse use) (· = use)
  | .mk type elements, h => by
    rw [RenamePass.renameUse]
    refine (replaceDescriptor fun q hq => h q (.type hq)).bind ?_
    rintro _ rfl
    exact (renamePairs elements fun q hq => h q (.elements hq)).map

theorem renamePairs : ∀ elements : List ElementPair,
    (∀ q, PairsAsks source elements q → r.GivesBack q) →
      Idle r ((r.pass source owner).renamePairs elements) (· = elements)
  | [], _ => by
    rw [RenamePass.renamePairs]
    exact .pure rfl
  | .mk name value :: more, h => by
    rw [RenamePass.renamePairs]
    refine (renameValue value fun q hq => h q (.value hq)).bind ?_
    rintro _ rfl
    exact (renamePairs more fun q hq => h q (.more hq)).map

theorem renameValue : ∀ v : ElementValue, (∀ q, ValueAsks source v q → r.GivesBack q) →
    Idle r ((r.pass source owner).renameValue v) (· = v)
  | .constant tag value, _ => by
    rw [RenamePass.renameValue]
    exact .pure rfl
  | .enumConstant typeName constantName, h => by
    rw [RenamePass.renameValue]
    refine (read _).bind fun d hd => ?_
    refine (read _).bind fun n hn => ?_
    refine (orFail _ _).bind fun t ht => ?_
    refine (newMemberName (h _ (.enumConstant hd hn ht .name))).bind fun name hname => ?_
    rw [hname]
    refine (replaceText hn).bind ?_
    rintro _ rfl
    exact (replaceDescriptorOf hd fun q hq => h q (.enumConstant hd hn ht (.descriptor hq))).map
  | .classLiteral descriptor, h => by
    rw [RenamePass.renameValue]
    refine (read _).bind fun d hd => ?_
    by_cases hnone : d = "V"
    · rw [if_pos hnone]
      exact .pure rfl
    · rw [if_neg hnone]
      exact (replaceDescriptorOf hd fun q hq => h q (.classLiteral hd hnone hq)).map
  | .nested use, h => by
    rw [RenamePass.renameValue]
    exact (renameUse use fun q hq => h q (.nested hq)).map
  | .array values, h => by
    rw [RenamePass.renameValue]
    exact (renameValues values fun q hq => h q (.array hq)).map

theorem renameValues : ∀ values : List ElementValue,
    (∀ q, ValuesAsks source values q → r.GivesBack q) →
      Idle r ((r.pass source owner).renameValues values) (· = values)
  | [], _ => by
    rw [RenamePass.renameValues]
    exact .pure rfl
  | v :: more, h => by
    rw [RenamePass.renameValues]
    refine (renameValue v fun q hq => h q (.value hq)).bind ?_
    rintro _ rfl
    exact (renameValues more fun q hq => h q (.more hq)).map

end

/-! ## Rows of tables -/

theorem replaceParameterName {method descriptor : String} {slot : ℕ} {i : UInt16}
    (h : ∀ s, source.text i = .ok s →
      r.GivesBack (.parameterName owner method descriptor slot s)) :
    Idle r ((r.pass source owner).replaceParameterName method descriptor slot i) (· = i) := by
  refine (read _).bind fun s hs => ?_
  have hname : r.table.newParameterName owner method descriptor slot s = s := h s hs
  change Idle r ((r.pass source owner).replaceText i
    (r.table.newParameterName owner method descriptor slot s)) _
  rw [hname]
  exact replaceText hs

theorem renameVariable {method descriptor : String} {slots : List ℕ}
    {replaceType : UInt16 → PoolPass Renaming UInt16} {type : UInt16 → Question → Prop}
    (htype : ∀ i, (∀ q, type i q → r.GivesBack q) → Idle r (replaceType i) (· = i))
    (v : LocalVariable)
    (h : ∀ q, VariableAsks source owner method descriptor slots type v q → r.GivesBack q) :
    Idle r ((r.pass source owner).renameVariable method descriptor slots replaceType v)
      (· = v) := by
  have hrest : ∀ name, name = v.name → Idle r
      (do
        let type ← replaceType v.descriptor
        return { v with name, descriptor := type }) (· = v) := by
    rintro _ rfl
    exact (htype v.descriptor fun q hq => h q (.type hq)).map
  rw [RenamePass.renameVariable]
  split
  case isTrue hparam =>
    rw [Bool.and_eq_true, decide_eq_true_iff, List.contains_iff_mem] at hparam
    exact (replaceParameterName fun s hs => h _ (.name hparam.1 hparam.2 hs)).bind hrest
  case isFalse =>
    rw [pure_bind]
    exact hrest _ rfl

theorem renameParameters {method descriptor : String} : ∀ (params : List MethodParameter)
    (slots : List ℕ),
    (∀ q, ParametersAsk source owner method descriptor params slots q → r.GivesBack q) →
      Idle r ((r.pass source owner).renameParameters method descriptor params slots) (· = params)
  | [], _, _ => .pure rfl
  | _ :: _, [], _ => .pure rfl
  | p :: params, slot :: slots, h => by
    have hrest : ∀ name, name = p.name → Idle r
        (do
          let params ← (r.pass source owner).renameParameters method descriptor params slots
          return { p with name } :: params) (· = p :: params) := by
      rintro _ rfl
      exact (renameParameters params slots fun q hq => h q (.more hq)).map
    rw [RenamePass.renameParameters]
    split
    case isTrue =>
      rw [pure_bind]
      exact hrest _ rfl
    case isFalse hname =>
      exact (replaceParameterName fun s hs => h _ (.name hname hs)).bind hrest

theorem renameInnerClass {c : InnerClass} (h : ∀ q, InnerClassAsks source c q → r.GivesBack q) :
    Idle r ((r.pass source owner).renameInnerClass c) (· = c) := by
  rw [RenamePass.renameInnerClass]
  split
  case isTrue => exact .pure rfl
  case isFalse hnone =>
    refine (read _).bind fun name hname => ?_
    refine (read _).bind fun simple hsimple => ?_
    have hsame : (r.pass source owner).table.newSimpleName name simple = simple := by
      rw [RenameTable.newSimpleName]
      exact if_pos (h _ (.mk hnone hname))
    rw [hsame]
    exact (replaceText hsimple).map

theorem renameEnclosing {e : EnclosingMethod} (h : ∀ q, EnclosingAsks source e q → r.GivesBack q) :
    Idle r ((r.pass source owner).renameEnclosing e) (· = e) := by
  rw [RenamePass.renameEnclosing]
  split
  case isTrue => exact .pure rfl
  case isFalse hnone =>
    refine (read _).bind fun holder hholder => ?_
    refine (read _).bind ?_
    rintro ⟨n, d⟩ hnat
    refine (newMemberName (h _ (.mk hnone hholder hnat .name))).bind fun name hname => ?_
    rw [hname]
    exact (retarget hnat fun q hq => h q (.mk hnone hholder hnat (.descriptor hq))).map

theorem renameComponent {nested : Attribute → PoolPass Renaming Attribute} {c : RecordComponent}
    (hnested : ∀ a, (∀ q, AttributeAsks source owner .ofComponent a q → r.GivesBack q) →
      Idle r (nested a) (· = a))
    (h : ∀ q, ComponentAsks source owner c q → r.GivesBack q) :
    Idle r ((r.pass source owner).renameComponent nested c) (· = c) := by
  refine (read _).bind fun n hn => ?_
  refine (read _).bind fun d hd => ?_
  refine (newMemberName (h _ (.component hn hd .name))).bind fun name hname => ?_
  rw [hname]
  refine (replaceText hn).bind ?_
  rintro _ rfl
  refine (replaceDescriptorOf hd fun q hq => h q (.component hn hd (.descriptor hq))).bind ?_
  rintro _ rfl
  exact (mapM fun a ha => hnested a fun q hq => h q (.attribute ha hq)).map

/-! ## Bodies -/

/-- A body of an exact format is written as it was read. -/
theorem renameBody {format : AttributeFormat α} {fits : ConstantPool → α → Prop}
    {rename : α → PoolPass Renaming α} {info : Bytes} (hexact : format.ExactFor fits)
    (hrename : ∀ body, format.parse source info = .ok body → Idle r (rename body) (· = body)) :
    Idle r ((r.pass source owner).renameBody format rename info) (· = info) := by
  refine (read _).bind fun body hparse => ?_
  rw [((AttributeFormat.parse_ok_iff hexact).1 hparse).2]
  exact (hrename body hparse).map

theorem renameVariables {method descriptor : String} {slots : List ℕ}
    {format : AttributeFormat (List LocalVariable)}
    {fits : ConstantPool → List LocalVariable → Prop} (hexact : format.ExactFor fits)
    {replaceType : UInt16 → PoolPass Renaming UInt16} {type : UInt16 → Question → Prop}
    (htype : ∀ i, (∀ q, type i q → r.GivesBack q) → Idle r (replaceType i) (· = i))
    (a : Attribute)
    (h : ∀ rows v q, format.parse source a.info = .ok rows → v ∈ rows →
      VariableAsks source owner method descriptor slots type v q → r.GivesBack q) :
    Idle r ((r.pass source owner).renameVariables method descriptor slots format replaceType a)
      (· = a) := by
  refine (read _).bind fun rows hparse => ?_
  have hinfo := ((AttributeFormat.parse_ok_iff hexact).1 hparse).2
  refine (mapM fun v hv => renameVariable htype v fun q => h rows v q hparse hv).bind ?_
  rintro _ rfl
  exact .pure (by rw [← hinfo])

theorem renameCodeAttribute {method descriptor : String} {slots : List ℕ} (a : Attribute)
    (h : ∀ q, CodeAttributeAsks source owner method descriptor slots a q → r.GivesBack q) :
    Idle r ((r.pass source owner).renameCodeAttribute method descriptor slots a) (· = a) := by
  rw [RenamePass.renameCodeAttribute]
  split
  case isTrue hname =>
    exact renameVariables AttributeFormat.localVariables_exact (fun i => replaceDescriptor) a
      fun rows v q hrows hv hq => h q (.localVariables hname hrows hv hq)
  split
  case isTrue hname =>
    exact renameVariables AttributeFormat.localVariableTypes_exact (fun i => replaceSignature) a
      fun rows v q hrows hv hq => h q (.localVariableTypes hname hrows hv hq)
  case isFalse => exact .pure rfl

theorem renameCodeAttributes {site : AttributeSite} {attributes : List Attribute}
    (h : ∀ method descriptor isStatic slots b q, site = .ofMethod method descriptor isStatic →
      parameterSlots descriptor isStatic = .ok slots → b ∈ attributes →
      CodeAttributeAsks source owner method descriptor slots b q → r.GivesBack q) :
    Idle r ((r.pass source owner).renameCodeAttributes site attributes) (· = attributes) := by
  cases site with
  | ofMethod method descriptor isStatic =>
    refine (orFail _ _).bind fun slots hslots => ?_
    exact mapM fun b hb => renameCodeAttribute b fun q => h _ _ _ slots b q rfl hslots hb
  | _ => exact .pure rfl

theorem renameMethodParameters {site : AttributeSite} {params : List MethodParameter}
    (h : ∀ method descriptor isStatic slots q, site = .ofMethod method descriptor isStatic →
      parameterSlots descriptor isStatic = .ok slots →
      ParametersAsk source owner method descriptor params slots q → r.GivesBack q) :
    Idle r ((r.pass source owner).renameMethodParameters site params) (· = params) := by
  cases site with
  | ofMethod method descriptor isStatic =>
    refine (orFail _ _).bind fun slots hslots => ?_
    exact renameParameters params slots fun q => h _ _ _ slots q rfl hslots
  | _ => exact .pure rfl

/-! ## Attributes -/

theorem renameInfo {nested : Attribute → PoolPass Renaming Attribute} {site : AttributeSite}
    {a : Attribute}
    (hnested : ∀ b, (∀ q, AttributeAsks source owner .ofComponent b q → r.GivesBack q) →
      Idle r (nested b) (· = b))
    (h : ∀ q, AttributeAsks source owner site a q → r.GivesBack q) :
    Idle r ((r.pass source owner).renameInfo nested site a) (· = a.info) := by
  rw [RenamePass.renameInfo]
  split
  case isTrue hname =>
    refine (read _).bind fun i hi => ?_
    rw [Attribute.index_ok_iff.1 hi]
    exact (replaceSignature fun q hq => h q (.signature hname hi hq)).map
  split
  case isTrue hname =>
    refine (read _).bind fun uses hparse => ?_
    rw [(AnnotationUse.parse_ok_iff.1 hparse).2]
    exact (mapM fun use huse => renameUse use fun q hq =>
      h q (.annotations (List.contains_iff_mem.1 hname) hparse huse hq)).map
  split
  case isTrue hname =>
    refine (read _).bind fun params hparse => ?_
    rw [(AnnotationUse.parseForParameters_ok_iff.1 hparse).2]
    exact (mapM fun uses huses => mapM fun use huse => renameUse use fun q hq =>
      h q (.parameterAnnotations (List.contains_iff_mem.1 hname) hparse huses huse hq)).map
  split
  case isTrue hname =>
    exact renameBody AttributeFormat.annotationDefault_exact fun v hparse =>
      renameValue v fun q hq => h q (.annotationDefault hname hparse hq)
  split
  case isTrue hname =>
    refine renameBody AttributeFormat.code_exact fun body hparse => (renameCodeAttributes ?_).map
    rintro method descriptor isStatic slots b q rfl hslots hb hq
    exact h q (.code hname hparse hslots hb hq)
  split
  case isTrue hname =>
    refine renameBody AttributeFormat.methodParameters_exact fun params hparse =>
      renameMethodParameters ?_
    rintro method descriptor isStatic slots q rfl hslots hq
    exact h q (.methodParameters hname hparse hslots hq)
  split
  case isTrue hname =>
    exact renameBody AttributeFormat.recordComponents_exact fun rows hparse =>
      mapM fun c hc => renameComponent hnested fun q hq =>
        h q (.recordComponents hname hparse hc hq)
  split
  case isTrue hname =>
    exact renameBody AttributeFormat.innerClasses_exact fun rows hparse =>
      mapM fun c hc => renameInnerClass fun q hq => h q (.innerClasses hname hparse hc hq)
  split
  case isTrue hname =>
    exact renameBody AttributeFormat.enclosingMethod_exact fun e hparse =>
      renameEnclosing fun q hq => h q (.enclosingMethod hname hparse hq)
  case isFalse => exact .pure rfl

theorem renameAttributeWithin (depth : ℕ) : ∀ (site : AttributeSite) (a : Attribute),
    (∀ q, AttributeAsks source owner site a q → r.GivesBack q) →
      Idle r ((r.pass source owner).renameAttributeWithin depth site a) (· = a) := by
  induction depth with
  | zero => exact fun site a h => (renameInfo (fun _ _ => .pure rfl) h).map
  | succ depth ih => exact fun site a h => (renameInfo (ih .ofComponent) h).map

theorem renameAttribute {site : AttributeSite} {a : Attribute}
    (h : ∀ q, AttributeAsks source owner site a q → r.GivesBack q) :
    Idle r ((r.pass source owner).renameAttribute site a) (· = a) :=
  renameAttributeWithin _ site a h

/-! ## Members and the class -/

theorem renameMember {kind : MemberKind} {site : String → String → AttributeSite} {m : Member}
    (h : ∀ q, DeclarationAsks source owner kind site m q → r.GivesBack q) :
    Idle r ((r.pass source owner).renameMember kind site m) (· = m) := by
  refine (read _).bind fun n hn => ?_
  refine (read _).bind fun d hd => ?_
  refine (newMemberName (h _ (.member hn hd .name))).bind fun name hname => ?_
  rw [hname]
  refine (replaceText hn).bind ?_
  rintro _ rfl
  refine (replaceDescriptorOf hd fun q hq => h q (.member hn hd (.descriptor hq))).bind ?_
  rintro _ rfl
  exact (mapM fun a ha => renameAttribute fun q hq => h q (.attribute hn hd ha hq)).map

theorem renameClass {c : ClassFile} (h : ∀ q, c.Asks owner q → r.GivesBack q) :
    Idle r ((r.pass c.pool owner).renameClass c) (· = c) := by
  refine (renamePool fun i k q hk hq => h q (.constant hk hq)).bind fun _ _ => ?_
  refine (mapM fun m hm => renameMember fun q hq => h q (.field hm hq)).bind ?_
  rintro _ rfl
  refine (mapM fun m hm => renameMember fun q hq => h q (.method hm hq)).bind ?_
  rintro _ rfl
  exact (mapM fun a ha => renameAttribute fun q hq => h q (.attribute ha hq)).map

end Idle

/-! ## Entries of an archive -/

namespace Renaming

variable {r : Remapper} {owner : String}

/-- A class whose names are all given back is renamed to itself, its pool included. -/
theorem Ensures.rename_eq_self {c : ClassFile} (h : ∀ q, c.Asks owner q → r.GivesBack q) :
    Ensures r (c.rename r.table (Renaming.memberName r) owner) (· = c) := by
  refine (Idle.renameClass h c.pool).bind ?_
  rintro ⟨c', pool⟩ ⟨hpool, hc⟩
  obtain rfl : pool = c.pool := hpool
  obtain rfl : c' = c := hc
  exact .pure rfl

/-- The computations that leave the count of changed classes alone. -/
def uncounted : Alike Renaming Renaming where
  rel x _ := ∀ s, (x s).2.changed = s.changed
  pure _ _ := rfl
  throw _ _ := rfl
  bind {_ _ x _ f _} hx hf s := by
    have hfirst := hx s
    rw [bind_stateful]
    rcases hrun : x s with ⟨e | a, s₁⟩
    · rw [hrun] at hfirst
      exact hfirst
    · rw [hrun] at hfirst
      exact (hf a s₁).trans hfirst

/-- Until it is known whether a class changes, nothing is counted. -/
theorem changed_rename? (e : ClassEntry) (s : RenamingState) :
    (e.rename? r.table (Renaming.memberName r) Renaming.note s).2.changed = s.changed := by
  have hname : ∀ k, uncounted.rel (Renaming.memberName r k) (Renaming.memberName r k) :=
    fun _ _ => rfl
  have hnote : ∀ line, uncounted.rel (Renaming.note line) (Renaming.note line) := fun _ _ => rfl
  exact Alike.rename? hname r.table hnote e s

theorem Ensures.rename?_eq {e : ClassEntry} {c : ClassFile}
    (hparse : ClassFile.parse e.data = .ok c) (howner : c.name = .ok owner)
    (h : ∀ q, c.Asks owner q → r.GivesBack q) :
    Ensures r (e.rename? r.table (Renaming.memberName r) Renaming.note) fun found =>
      found = if c.encode = e.data then none
        else some { e with name := r.table.newClassName owner, data := c.encode } := by
  refine (Ensures.orFail _ _).bind fun c' hc => ?_
  cases hparse.symm.trans hc
  refine (Ensures.orFail _ _).bind fun owner' ho => ?_
  cases howner.symm.trans ho
  refine (Ensures.forM (fun method => ?_) c.methods).bind fun _ _ => ?_
  · refine (Ensures.parameterLine? r.table c.pool method).bind fun line _ => ?_
    rcases line with _ | line
    · exact .pure trivial
    · exact .note line
  refine (rename_eq_self h).bind ?_
  rintro _ rfl
  dsimp only
  split
  case isTrue => exact .pure rfl
  case isFalse => exact .pure rfl

/-- At any point of a renaming, a class whose names are all given back, as those of every class are
by the table without rows, is renamed to itself: pool, members and attributes stay. What is written
is what was read, and if the entry held nothing else, it is returned as it is and no change is
counted. -/
theorem processClass_renames_nothing (r : Remapper) {s s' : RenamingState} {e e' : ClassEntry}
    {c : ClassFile} {owner : String} (hs : Reachable r s)
    (h : processClass r e s = (.ok e', s')) (hparse : ClassFile.parse e.data = .ok c)
    (howner : c.name = .ok owner)
    (hback : r.table = .empty ∨ ∀ q, c.Asks owner q → r.GivesBack q) :
    Ensures r (c.rename r.table (Renaming.memberName r) owner) (· = c) ∧
    (e' = if c.encode = e.data then e
      else { e with name := r.table.newClassName owner, data := c.encode }) ∧
    s'.changed = if c.encode = e.data then s.changed else s.changed + 1 := by
  have hasked : ∀ q, c.Asks owner q → r.GivesBack q := by
    rcases hback with hempty | hback
    · exact fun q _ => Remapper.givesBack_of_keeps (hempty ▸ RenameTable.keeps_empty) q
    · exact hback
  refine ⟨.rename_eq_self hasked, ?_⟩
  have hcounted := changed_rename? (r := r) e s
  obtain ⟨-, hfound⟩ := Ensures.rename?_eq hparse howner hasked s hs.good
  rw [processClass, ClassEntry.renamed, bind_stateful] at h
  rcases hrun : e.rename? r.table (Renaming.memberName r) Renaming.note s with ⟨f | found, s₁⟩
  · rw [hrun] at h
    cases h
  · rw [hrun] at h hfound hcounted
    have heq := hfound found rfl
    dsimp only at hcounted
    split at heq
    case isTrue hsame =>
      subst heq
      cases h
      rw [if_pos hsame, if_pos hsame]
      exact ⟨rfl, hcounted⟩
    case isFalse hsame =>
      subst heq
      cases h
      rw [if_neg hsame, if_neg hsame]
      exact ⟨rfl, congrArg (· + 1) hcounted⟩

/-- A table that names a class and its members as they are named, on an archive with the class. -/
def keepingRemapper : Remapper where
  table := ⟨[⟨"A", "A", [⟨"x", "x", none⟩], [⟨"m", "(LA;)V", "m", []⟩]⟩]⟩
  classPath := ⟨[Entry.classSource [.ofClass swappedEntry]]⟩

theorem processClass_renames_nothing_kept :
    ∃ e' s', processClass keepingRemapper swappedEntry .start = (.ok e', s') ∧
    ∃ owner c, ClassFile.parse swappedEntry.data = .ok c ∧ c.name = .ok owner ∧
      (keepingRemapper.table = .empty ∨ ∀ q, c.Asks owner q → keepingRemapper.GivesBack q) ∧
      Ensures keepingRemapper
        (c.rename keepingRemapper.table (Renaming.memberName keepingRemapper) owner) (· = c) ∧
      (e' = if c.encode = swappedEntry.data then swappedEntry
        else { swappedEntry with
          name := keepingRemapper.table.newClassName owner, data := c.encode }) ∧
      s'.changed = if c.encode = swappedEntry.data then 0 else 1 := by
  have hok : (processClass keepingRemapper swappedEntry .start).1.toOption.isSome = true := by
    decide +kernel
  rcases hrun : processClass keepingRemapper swappedEntry .start with ⟨e | e', s'⟩
  · rw [hrun] at hok
    cases hok
  obtain ⟨owner, c, _, hbecomes⟩ := Reachable.start.becomes hrun
  have hback : keepingRemapper.table = .empty ∨ ∀ q, c.Asks owner q → keepingRemapper.GivesBack q :=
    .inr fun q _ => Remapper.givesBack_of_keeps (by decide) q
  exact ⟨e', s', rfl, owner, c, hbecomes.parse_eq, hbecomes.name_eq, hback,
    processClass_renames_nothing keepingRemapper .start hrun hbecomes.parse_eq hbecomes.name_eq
      hback⟩

end Renaming

end JarRemap
