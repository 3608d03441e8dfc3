import JarRemap.Proofs.Rename.MemberName
import JarRemap.Proofs.Rename.Memory

/-!
# Memories are invisible

Classes come from providers, of which the first one that has a class counts, and each of which may
fail to be read. A resolver remembers the shapes and the members that it has found out, also where a
walk then fails or stops early. Nobody can tell: any sequence of calls gives what each call would
give if nothing were remembered, and that is what the providers, the rows and the course of the walk
say (`Resolver.Answered`).
-/

namespace JarRemap

open Remapper Walk

/-! ## Providers -/

/-- A source of class files, as an archive or a library. It says the same whenever it is asked, and
lists the names of all its classes. -/
structure ClassProvider where
  names : List String
  read : String → Except HierarchyError (Option Bytes)
  mem_names : ∀ name data, read name = .ok (some data) → name ∈ names

/-- The bytes of the first provider that has a class. -/
def firstBytes (name : String) : List ClassProvider → Except HierarchyError (Option Bytes)
  | [] => .ok none
  | p :: providers => do
    match ← p.read name with
    | some data => return some data
    | none => firstBytes name providers

/-- A rename table and the providers of the classes that it is used on. -/
structure Resolver where
  table : RenameTable
  providers : List ClassProvider

/-- A call to a resolver. -/
inductive ResolverCall where
  | shape (name : String)
  | member (k : MemberKey)
  deriving DecidableEq

/-- What a call gives. -/
inductive ResolverReply where
  | shape (outcome : Except HierarchyError (Option ClassShape))
  | member (outcome : Except HierarchyError String)
  deriving DecidableEq

namespace Resolver

variable (r : Resolver)

/-- The names of all classes. -/
def names : List String :=
  r.providers.flatMap ClassProvider.names

/-- The shape of a class. Arrays have none, and neither has a file that is no class file. -/
def shape (name : String) : Except HierarchyError (Option ClassShape) :=
  if Text.beginsWith '[' name then .ok none
  else (firstBytes name r.providers).map (·.bind fun data => (ClassShape.parse data).toOption)

/-- The new name that the owner of a member or an ancestor of it gives. Classes are looked up with
`lookup`, which fails where a provider does. -/
def searchWith {m : Type → Type} [Monad m]
    (lookup : String → ExceptT HierarchyError m (Option ClassShape)) (k : MemberKey) :
    m (Except HierarchyError (Option String)) := do
  return (← (r.table.search r.names lookup k).run).bind id

/-! ## Calls with a memory -/

/-- The shape of a class, from memory if it has been found out before. -/
def recallShape (name : String) : ExceptT HierarchyError (StateM Memory) (Option ClassShape) :=
  memoized (fun name => return (← get).shapes.lookup name)
    (fun name found =>
      modify fun memory => { memory with shapes := (name, found) :: memory.shapes })
    (fun name => ExceptT.mk (pure (r.shape name))) name

/-- The new name of a member, from memory if it has been found out before. -/
def recallMember : MemberKey → StateM Memory (Except HierarchyError String) :=
  MemberKey.nameWith (fun k => return (← get).members.lookup k)
    (fun k found => modify fun memory => { memory with members := (k, found) :: memory.members })
    (r.searchWith r.recallShape)

/-- Answers a call. -/
def reply : ResolverCall → StateM Memory ResolverReply
  | .shape name => return .shape (← (r.recallShape name).run)
  | .member k => return .member (← r.recallMember k)

/-! ## Calls without a memory -/

/-- The new name that the owner of a member or an ancestor of it gives. -/
def plainSearch (k : MemberKey) : Except HierarchyError (Option String) :=
  Id.run (r.searchWith (fun name => ExceptT.mk (pure (r.shape name))) k)

/-- The new name of a member. -/
def plainName (k : MemberKey) : Except HierarchyError String :=
  if k.isFixed then .ok k.name else (r.plainSearch k).map (·.getD k.name)

/-- Answers a call where nothing is remembered. -/
def plainReply : ResolverCall → ResolverReply
  | .shape name => .shape (r.shape name)
  | .member k => .member (r.plainName k)

end Resolver

/-! ## What calls give -/

namespace Resolver

/-- What the providers say about a class. -/
inductive Says (r : Resolver) (name : String) :
    Except HierarchyError (Option ClassShape) → Prop where
  | array (harray : Text.beginsWith '[' name = true) : Says r name (.ok none)
  | missing (harray : Text.beginsWith '[' name = false)
      (hnone : ∀ p ∈ r.providers, p.read name = .ok none) : Says r name (.ok none)
  | read {before after : List ClassProvider} {p : ClassProvider} {data : Bytes}
      (harray : Text.beginsWith '[' name = false) (hproviders : r.providers = before ++ p :: after)
      (hbefore : ∀ q ∈ before, q.read name = .ok none) (hread : p.read name = .ok (some data)) :
      Says r name (.ok (ClassShape.parse data).toOption)
  | unread {before after : List ClassProvider} {p : ClassProvider} {e : HierarchyError}
      (harray : Text.beginsWith '[' name = false) (hproviders : r.providers = before ++ p :: after)
      (hbefore : ∀ q ∈ before, q.read name = .ok none) (hread : p.read name = .error e) :
      Says r name (.error e)

end Resolver

/-- An ancestor gives a member a new name: it declares the member for others to see and has a row
for it. -/
def RenameTable.Gives (t : RenameTable) (k : MemberKey) (ancestor : ClassShape) (new : String) :
    Prop :=
  ∃ m, ancestor.declared? k = some m ∧ m.access.contains .privateFlag = false ∧
    t.memberName? { k with owner := ancestor.name } = some new

namespace Resolver

/-- What a call gives. -/
inductive Answered (r : Resolver) : ResolverCall → ResolverReply → Prop where
  | shape {name : String} {outcome : Except HierarchyError (Option ClassShape)}
      (h : r.Says name outcome) : Answered r (.shape name) (.shape outcome)
  | fixed {k : MemberKey} (h : k.isFixed = true) : Answered r (.member k) (.member (.ok k.name))
  | row {k : MemberKey} {new : String} (hfixed : k.isFixed = false)
      (hrow : r.table.memberName? k = some new) : Answered r (.member k) (.member (.ok new))
  /-- The first of the classes shown that gives a new name decides. -/
  | inherited {k : MemberKey} {before after : List ClassShape} {c : ClassShape} {new : String}
      {ending : Except HierarchyError Unit} (hfixed : k.isFixed = false)
      (hrow : r.table.memberName? k = none)
      (hcourse : CourseFrom r.shape r.names k.owner (before ++ c :: after) ending)
      (hbefore : ∀ b ∈ before, ∀ other, ¬ r.table.Gives k b other) (hc : r.table.Gives k c new) :
      Answered r (.member k) (.member (.ok new))
  /-- If none does, the member keeps its name, or the walk fails. -/
  | unlisted {k : MemberKey} {shown : List ClassShape} {ending : Except HierarchyError Unit}
      (hfixed : k.isFixed = false) (hrow : r.table.memberName? k = none)
      (hcourse : CourseFrom r.shape r.names k.owner shown ending)
      (hshown : ∀ b ∈ shown, ∀ new, ¬ r.table.Gives k b new) :
      Answered r (.member k) (.member (ending.map fun _ => k.name))

end Resolver

/-! ### Shapes -/

section

variable {name : String}

/-- Providers that do not have a class are passed. -/
theorem firstBytes_append {before after : List ClassProvider}
    (hbefore : ∀ q ∈ before, q.read name = .ok none) :
    firstBytes name (before ++ after) = firstBytes name after := by
  induction before with
  | nil => rfl
  | cons q before ih =>
    rw [List.forall_mem_cons] at hbefore
    rw [List.cons_append, firstBytes, hbefore.1]
    exact ih hbefore.2

/-- Either no provider has a class, or there is a first one that has it or fails. -/
theorem none_or_first (name : String) (providers : List ClassProvider) :
    (∀ p ∈ providers, p.read name = .ok none) ∨
      ∃ before p after, providers = before ++ p :: after ∧
        (∀ q ∈ before, q.read name = .ok none) ∧ p.read name ≠ .ok none := by
  induction providers with
  | nil => exact .inl fun p hp => nomatch hp
  | cons p providers ih =>
    by_cases hp : p.read name = .ok none
    · rcases ih with hnone | ⟨before, q, after, rfl, hbefore, hq⟩
      · exact .inl (List.forall_mem_cons.2 ⟨hp, hnone⟩)
      · exact .inr ⟨p :: before, q, after, rfl, List.forall_mem_cons.2 ⟨hp, hbefore⟩, hq⟩
    · exact .inr ⟨[], p, providers, rfl, fun _ hq => (List.not_mem_nil hq).elim, hp⟩

end

namespace Resolver

variable {r : Resolver}

theorem Says.eq_shape {name : String} {outcome : Except HierarchyError (Option ClassShape)}
    (h : r.Says name outcome) : outcome = r.shape name := by
  cases h with
  | array harray => rw [shape, if_pos harray]
  | missing harray hnone =>
    have hbytes : firstBytes name (r.providers ++ []) = .ok none := firstBytes_append hnone
    rw [List.append_nil] at hbytes
    rw [shape, harray, if_neg Bool.false_ne_true, hbytes]
    rfl
  | read harray hproviders hbefore hread =>
    rw [shape, harray, if_neg Bool.false_ne_true, hproviders, firstBytes_append hbefore, firstBytes,
      hread]
    rfl
  | unread harray hproviders hbefore hread =>
    rw [shape, harray, if_neg Bool.false_ne_true, hproviders, firstBytes_append hbefore, firstBytes,
      hread]
    rfl

theorem says_shape (r : Resolver) (name : String) : r.Says name (r.shape name) := by
  have hsays : ∃ outcome, r.Says name outcome := by
    rcases harray : Text.beginsWith '[' name with _ | _
    · rcases none_or_first name r.providers with hnone | ⟨before, p, after, hproviders, hbefore, hp⟩
      · exact ⟨_, .missing harray hnone⟩
      · rcases hread : p.read name with e | _ | data
        · exact ⟨_, .unread harray hproviders hbefore hread⟩
        · exact (hp hread).elim
        · exact ⟨_, .read harray hproviders hbefore hread⟩
    · exact ⟨_, .array harray⟩
  obtain ⟨outcome, h⟩ := hsays
  exact h.eq_shape ▸ h

end Resolver

/-! ### Searches -/

/-- What a search gives if there is no row for the owner, by the course of the walk. -/
def RenameTable.fromCourse (t : RenameTable) (k : MemberKey) (shown : List ClassShape)
    (ending : Except HierarchyError Unit) : Except HierarchyError (Option String) :=
  Id.run (firstAnswer (fun c => pure (t.nameFrom? k c)) ending shown)

namespace Resolver

variable {r : Resolver} {k : MemberKey}

/-- A search with a row for the owner needs no class. -/
theorem searchWith_of_row {m : Type → Type} [Monad m] (C : ComesTo m)
    (lookup : String → ExceptT HierarchyError m (Option ClassShape)) {new : String}
    (hrow : r.table.memberName? k = some new) :
    C.rel (r.searchWith lookup k) (.ok (some new)) := by
  rw [searchWith, RenameTable.search, hrow]
  exact C.bind (C.pure (Except.ok (Except.ok (some new)))) (C.pure _)

/-- A search without a row gives what the course of its walk says. -/
theorem searchWith_of_course {m : Type → Type} [Monad m] (C : ComesTo m)
    {lookup : String → ExceptT HierarchyError m (Option ClassShape)}
    (hlookup : ∀ name, C.rel (lookup name).run (r.shape name))
    (hrow : r.table.memberName? k = none) {shown : List ClassShape}
    {ending : Except HierarchyError Unit}
    (hcourse : CourseFrom r.shape r.names k.owner shown ending) :
    C.rel (r.searchWith lookup k) (r.table.fromCourse k shown ending) := by
  obtain ⟨z, hz, hend⟩ :=
    (Told.failing C hlookup fun c => C.pure (Except.ok (r.table.nameFrom? k c))).ancestors hcourse
  rw [searchWith, RenameTable.search, hrow, RenameTable.fromCourse, ← hend]
  exact C.bind hz (C.pure _)

theorem plainSearch_of_row {new : String} (hrow : r.table.memberName? k = some new) :
    r.plainSearch k = .ok (some new) :=
  searchWith_of_row ComesTo.plain _ hrow

theorem plainSearch_of_course (hrow : r.table.memberName? k = none) {shown : List ClassShape}
    {ending : Except HierarchyError Unit}
    (hcourse : CourseFrom r.shape r.names k.owner shown ending) :
    r.plainSearch k = r.table.fromCourse k shown ending :=
  searchWith_of_course ComesTo.plain (fun _ => rfl) hrow hcourse

/-- A search whose look-ups come to the shapes comes to what the plain one gives. -/
theorem searchWith_comesTo {m : Type → Type} [Monad m] (C : ComesTo m)
    {lookup : String → ExceptT HierarchyError m (Option ClassShape)}
    (hlookup : ∀ name, C.rel (lookup name).run (r.shape name)) (k : MemberKey) :
    C.rel (r.searchWith lookup k) (r.plainSearch k) := by
  rcases hrow : r.table.memberName? k with _ | new
  · obtain ⟨shown, ending, hcourse⟩ := exists_courseFrom r.shape r.names k.owner
    rw [plainSearch_of_course hrow hcourse]
    exact searchWith_of_course C hlookup hrow hcourse
  · rw [plainSearch_of_row hrow]
    exact searchWith_of_row C lookup hrow

end Resolver

/-! ### Names -/

section

variable {t : RenameTable} {k : MemberKey}

theorem gives_iff {c : ClassShape} {new : String} :
    t.Gives k c new ↔ t.nameFrom? k c = some new :=
  nameFrom?_eq_some_iff.symm

theorem gives_nothing_iff {c : ClassShape} :
    (∀ new, ¬ t.Gives k c new) ↔ t.nameFrom? k c = none := by
  rw [Option.eq_none_iff_forall_ne_some]
  exact forall_congr' fun new => not_congr gives_iff

theorem fromCourse_of_first {before after : List ClassShape} {c : ClassShape} {new : String}
    {ending : Except HierarchyError Unit} (hbefore : ∀ b ∈ before, ∀ other, ¬ t.Gives k b other)
    (hc : t.Gives k c new) : t.fromCourse k (before ++ c :: after) ending = .ok (some new) := by
  have hnone : before.findSome? (t.nameFrom? k) = none :=
    List.findSome?_eq_none_iff.2 fun b hb => gives_nothing_iff.1 (hbefore b hb)
  rw [RenameTable.fromCourse, firstAnswer_pure, List.findSome?_append, hnone, Option.none_or,
    List.findSome?_cons, gives_iff.1 hc]
  rfl

theorem fromCourse_of_nothing {shown : List ClassShape} {ending : Except HierarchyError Unit}
    (hshown : ∀ b ∈ shown, ∀ new, ¬ t.Gives k b new) :
    t.fromCourse k shown ending = ending.map fun _ => none := by
  rw [RenameTable.fromCourse, firstAnswer_pure,
    List.findSome?_eq_none_iff.2 fun b hb => gives_nothing_iff.1 (hshown b hb)]
  rfl

end

namespace Resolver

variable {r : Resolver}

theorem plainName_of_search {k : MemberKey} (hfixed : k.isFixed = false) :
    r.plainName k = (r.plainSearch k).map (·.getD k.name) := by
  rw [plainName, hfixed, if_neg Bool.false_ne_true]

theorem Answered.eq_plainReply {call : ResolverCall} {reply : ResolverReply}
    (h : r.Answered call reply) : reply = r.plainReply call := by
  cases h with
  | shape h => rw [plainReply, h.eq_shape]
  | fixed h => rw [plainReply, plainName, if_pos h]
  | row hfixed hrow =>
    rw [plainReply, plainName_of_search hfixed, plainSearch_of_row hrow]
    rfl
  | inherited hfixed hrow hcourse hbefore hc =>
    rw [plainReply, plainName_of_search hfixed, plainSearch_of_course hrow hcourse,
      fromCourse_of_first hbefore hc]
    rfl
  | @unlisted k shown ending hfixed hrow hcourse hshown =>
    rw [plainReply, plainName_of_search hfixed, plainSearch_of_course hrow hcourse,
      fromCourse_of_nothing hshown]
    cases ending <;> rfl

theorem answered_plainReply (r : Resolver) (call : ResolverCall) :
    r.Answered call (r.plainReply call) := by
  have hanswered : ∃ reply, r.Answered call reply := by
    rcases call with name | k
    · exact ⟨_, .shape (r.says_shape name)⟩
    rcases hfixed : k.isFixed with _ | _
    · rcases hrow : r.table.memberName? k with _ | new
      · obtain ⟨shown, ending, hcourse⟩ := exists_courseFrom r.shape r.names k.owner
        rcases hfound : shown.findSome? (r.table.nameFrom? k) with _ | new
        · have hnone := List.findSome?_eq_none_iff.1 hfound
          exact ⟨_, .unlisted hfixed hrow hcourse fun b hb => gives_nothing_iff.2 (hnone b hb)⟩
        · obtain ⟨before, c, after, rfl, hc, hbefore⟩ := List.findSome?_eq_some_iff.1 hfound
          exact ⟨_, .inherited hfixed hrow hcourse
            (fun b hb => gives_nothing_iff.2 (hbefore b hb)) (gives_iff.2 hc)⟩
      · exact ⟨_, .row hfixed hrow⟩
    · exact ⟨_, .fixed hfixed⟩
  obtain ⟨reply, h⟩ := hanswered
  exact h.eq_plainReply ▸ h

/-! ## Good memories -/

/-- The memory holds nothing but right answers. -/
structure Remembers (r : Resolver) (memory : Memory) : Prop where
  shapes_eq : ∀ name found, memory.shapes.lookup name = some found → r.shape name = .ok found
  members_eq : ∀ k found, memory.members.lookup k = some found → r.plainSearch k = .ok found

theorem remembers_empty : r.Remembers .empty :=
  ⟨fun _ _ h => (Option.some_ne_none _ h.symm).elim,
    fun _ _ h => (Option.some_ne_none _ h.symm).elim⟩

/-- A shape that is not known is kept, unless a provider fails. -/
theorem recallShape_answers (r : Resolver) (name : String) :
    Answers r.Remembers (r.recallShape name).run (r.shape name) := by
  intro memory hgood
  have hget (go : Option (Option ClassShape) →
      ExceptT HierarchyError (StateM Memory) (Option ClassShape)) :
      ((do return (← get).shapes.lookup name) >>= go).run memory =
        (go (memory.shapes.lookup name)).run memory := rfl
  rw [recallShape, memoized, hget]
  rcases hknown : memory.shapes.lookup name with _ | found
  · rcases hshape : r.shape name with e | found
    · exact ⟨rfl, hgood⟩
    · exact ⟨rfl, forall_lookup_cons hgood.shapes_eq hshape, hgood.members_eq⟩
  · exact ⟨(hgood.shapes_eq _ _ hknown).symm, hgood⟩

theorem recallMember_answers (r : Resolver) (k : MemberKey) :
    Answers r.Remembers (r.recallMember k) (r.plainName k) := by
  refine nameWith_answers (fun memory hgood => ⟨hgood, hgood.members_eq k⟩)
    (searchWith_comesTo (Answers.comesTo r.Remembers) r.recallShape_answers k)
    fun found hfound memory hgood => ⟨rfl, hgood.shapes_eq, ?_⟩
  exact forall_lookup_cons hgood.members_eq hfound

theorem reply_answers (r : Resolver) (call : ResolverCall) :
    Answers r.Remembers (r.reply call) (r.plainReply call) := by
  rcases call with name | k
  · exact (r.recallShape_answers name).bind (.pure _)
  · exact (r.recallMember_answers k).bind (.pure _)

end Resolver

/-! ## The remapper -/

/-- The files of a class path as a provider. -/
def ClassSource.provider (source : ClassSource) : ClassProvider where
  names := source.map Prod.fst
  read name := .ok (source.lookup name)
  mem_names name data h := by
    obtain ⟨before, after, rfl, -⟩ := List.lookup_eq_some_iff.1 (Except.ok.inj h)
    simp

namespace Remapper

variable {r : Remapper}

/-- The resolver whose providers are the sources of the class path. -/
def resolver (r : Remapper) : Resolver where
  table := r.table
  providers := r.classPath.sources.map ClassSource.provider

/-- Answers a call. -/
def reply (r : Remapper) : ResolverCall → StateM Memory ResolverReply
  | .shape name => return .shape (.ok (← r.recallShape name))
  | .member k => return .member (← r.recallMember k)

theorem firstBytes_provider (name : String) (sources : List ClassSource) :
    firstBytes name (sources.map ClassSource.provider) =
      .ok (sources.findSome? (·.lookup name)) := by
  induction sources with
  | nil => rfl
  | cons source sources ih =>
    rw [List.map_cons, firstBytes, List.findSome?_cons]
    show (match source.lookup name with
      | some data => _
      | none => _) = _
    rcases source.lookup name with _ | data
    · exact ih
    · rfl

theorem resolver_shape (r : Remapper) (name : String) :
    r.resolver.shape name = .ok (r.classPath.find? name) := by
  rw [Resolver.shape, resolver, firstBytes_provider, ClassPath.find?]
  by_cases harray : Text.beginsWith '[' name = true
  · rw [if_pos harray, if_pos harray]
  · rw [if_neg harray, if_neg harray]
    rfl

theorem resolver_names (r : Remapper) : r.resolver.names = r.classPath.names := by
  rw [Resolver.names, resolver, ClassPath.names, List.flatMap_map]
  rfl

/-- The remapper names members as the resolver does. -/
theorem resolver_plainName (r : Remapper) (k : MemberKey) :
    r.resolver.plainName k = r.memberName k := by
  have hsearch : r.resolver.plainSearch k = r.plainSearch k := by
    rw [plainSearch, search, RenameTable.search]
    rcases hrow : r.table.memberName? k with _ | new
    · obtain ⟨shown, ending, hcourse⟩ :=
        exists_courseFrom (fun name => .ok (r.classPath.find? name)) r.classPath.names k.owner
      have hcourse' : CourseFrom r.resolver.shape r.resolver.names k.owner shown ending := by
        rwa [funext (resolver_shape r), resolver_names]
      rw [Resolver.plainSearch_of_course hrow hcourse']
      exact (congrArg Id.run ((Told.plain r.classPath.find?
        fun c => (pure (r.table.nameFrom? k c) : Id (Option String))).ancestors hcourse)).symm
    · exact Resolver.plainSearch_of_row hrow
  rw [Resolver.plainName, hsearch]
  rfl

theorem reply_answers (r : Remapper) (call : ResolverCall) :
    Answers (Memory.Good r) (r.reply call) (r.resolver.plainReply call) := by
  rcases call with name | k
  · rw [Resolver.plainReply, resolver_shape]
    exact (r.recallShape_answers name).bind (.pure _)
  · rw [Resolver.plainReply, resolver_plainName]
    exact (r.recallMember_answers k).bind (.pure _)

end Remapper

/-- Nobody can tell that a resolver or the remapper remembers what it has found out: any sequence
of calls gives what each call gives without a memory. Which answer that is, the providers, the rows
and the course of the walk say. -/
theorem Resolver.memory_invisible :
    (∀ (r : Resolver) (calls : List ResolverCall),
      ((calls.mapM r.reply).run .empty).1 = calls.map r.plainReply) ∧
    (∀ (r : Remapper) (calls : List ResolverCall),
      ((calls.mapM r.reply).run .empty).1 = calls.map r.resolver.plainReply) ∧
    ∀ (r : Resolver) (call : ResolverCall) (reply : ResolverReply),
      r.Answered call reply ↔ reply = r.plainReply call := by
  refine ⟨fun r calls => ?_, fun r calls => ?_, fun r call reply => ⟨fun h => h.eq_plainReply, ?_⟩⟩
  · exact (Answers.mapM r.reply_answers calls _ remembers_empty).1
  · exact (Answers.mapM r.reply_answers calls _ good_empty).1
  · rintro rfl
    exact r.answered_plainReply call

end JarRemap
