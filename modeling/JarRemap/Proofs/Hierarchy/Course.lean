import JarRemap.Hierarchy.Walk
import JarRemap.Proofs.Hierarchy.Memory
import JarRemap.Proofs.SideBySide

/-!
# The course of a walk

Which classes a walk shows to its visit, and how it ends if no visit gives an answer, depends on how
classes are looked up alone (`Walk.Course`). So a walk is a course that is broken off at the first
answer (`Walk.firstAnswer`), in whatever monad it is run and whatever a memory holds. A look-up may
fail here, which ends the walk.
-/

namespace JarRemap

namespace Walk

variable {α : Type}

/-- Shows classes to a visit, one after the other, until it gives an answer. If it gives none, the
outcome is the ending. -/
def firstAnswer {m : Type → Type} [Monad m] (visit : ClassShape → m (Option α))
    (ending : Except HierarchyError Unit) :
    List ClassShape → m (Except HierarchyError (Option α))
  | [] => pure (ending.map fun _ => none)
  | c :: shown => do
    match ← visit c with
    | some a => return .ok (some a)
    | none => firstAnswer visit ending shown

/-- A visit without side effects answers for the first class that it has an answer for. -/
theorem firstAnswer_pure {m : Type → Type} [Monad m] [LawfulMonad m]
    (visit : ClassShape → Option α) (ending : Except HierarchyError Unit)
    (shown : List ClassShape) :
    firstAnswer (m := m) (fun c => pure (visit c)) ending shown =
      pure (match shown.findSome? visit with
        | some a => .ok (some a)
        | none => ending.map fun _ => none) := by
  induction shown with
  | nil => rfl
  | cons c shown ih =>
    rw [firstAnswer, pure_bind, List.findSome?_cons]
    rcases visit c with _ | a
    · exact ih
    · rfl

/-- The classes that a walk shows from some frames on, and how it ends, if no visit gives an
answer. -/
inductive Course (find : String → Except HierarchyError (Option ClassShape)) :
    List Frame → List String → List ClassShape → Except HierarchyError Unit → Prop where
  | done (unmet : List String) : Course find [] unmet [] (.ok ())
  /-- No supertype waits any more. -/
  | leave {branch : List String} {frames : List Frame} {unmet : List String}
      {shown : List ClassShape} {ending : Except HierarchyError Unit}
      (rest : Course find frames unmet shown ending) :
      Course find (⟨branch, []⟩ :: frames) unmet shown ending
  /-- The next supertype is on the branch itself. -/
  | cycle {branch : List String} {parent : String} {waiting : List String} {frames : List Frame}
      {unmet : List String} (hbranch : parent ∈ branch) :
      Course find (⟨branch, parent :: waiting⟩ :: frames) unmet [] (.error (.cycle parent))
  /-- The next supertype cannot be looked up. -/
  | unread {branch : List String} {parent : String} {waiting : List String} {frames : List Frame}
      {unmet : List String} {e : HierarchyError} (hbranch : parent ∉ branch)
      (hfind : find parent = .error e) :
      Course find (⟨branch, parent :: waiting⟩ :: frames) unmet [] (.error e)
  /-- The next supertype was met before, or has no class file and is looked up once more. -/
  | again {branch : List String} {parent : String} {waiting : List String} {frames : List Frame}
      {unmet : List String} {found : Option ClassShape} {shown : List ClassShape}
      {ending : Except HierarchyError Unit} (hbranch : parent ∉ branch) (hmet : parent ∉ unmet)
      (hfind : find parent = .ok found)
      (rest : Course find (⟨branch, waiting⟩ :: frames) unmet shown ending) :
      Course find (⟨branch, parent :: waiting⟩ :: frames) unmet shown ending
  /-- The next supertype is not found. -/
  | missing {branch : List String} {parent : String} {waiting : List String} {frames : List Frame}
      {unmet : List String} {shown : List ClassShape} {ending : Except HierarchyError Unit}
      (hbranch : parent ∉ branch) (hunmet : parent ∈ unmet) (hfind : find parent = .ok none)
      (rest : Course find (⟨branch, waiting⟩ :: frames) (unmet.filter (· != parent)) shown
        ending) :
      Course find (⟨branch, parent :: waiting⟩ :: frames) unmet shown ending
  /-- The next supertype is shown, and its own supertypes are next. -/
  | enter {branch : List String} {parent : String} {waiting : List String} {frames : List Frame}
      {unmet : List String} {c : ClassShape} {shown : List ClassShape}
      {ending : Except HierarchyError Unit} (hbranch : parent ∉ branch) (hunmet : parent ∈ unmet)
      (hfind : find parent = .ok (some c))
      (rest : Course find (.enter branch c :: ⟨branch, waiting⟩ :: frames)
        (unmet.filter (· != parent)) shown ending) :
      Course find (⟨branch, parent :: waiting⟩ :: frames) unmet (c :: shown) ending

/-- The course of a visit to the ancestors of a class. -/
inductive CourseFrom (find : String → Except HierarchyError (Option ClassShape))
    (names : List String) (start : String) :
    List ClassShape → Except HierarchyError Unit → Prop where
  | unread {e : HierarchyError} (hfind : find start = .error e) :
      CourseFrom find names start [] (.error e)
  | missing (hfind : find start = .ok none) : CourseFrom find names start [] (.ok ())
  | entered {c : ClassShape} {shown : List ClassShape} {ending : Except HierarchyError Unit}
      (hfind : find start = .ok (some c))
      (course : Course find [.enter [] c] names shown ending) :
      CourseFrom find names start shown ending

variable {find : String → Except HierarchyError (Option ClassShape)}

/-- Every walk has a course. -/
theorem exists_course (find : String → Except HierarchyError (Option ClassShape))
    (frames : List Frame) (unmet : List String) :
    ∃ shown ending, Course find frames unmet shown ending := by
  induction frames, unmet using run.induct with
  | case1 unmet => exact ⟨[], .ok (), .done unmet⟩
  | case2 unmet branch frames ih =>
    obtain ⟨shown, ending, h⟩ := ih
    exact ⟨shown, ending, .leave h⟩
  | case3 unmet branch parent waiting frames hcycle =>
    exact ⟨[], _, .cycle (List.contains_iff_mem.1 hcycle)⟩
  | case4 unmet branch parent waiting frames frames' hcycle hpassed hentered hskipped =>
    have hbranch : parent ∉ branch := fun hmem => hcycle (List.contains_iff_mem.2 hmem)
    rcases hfind : find parent with e | found
    · exact ⟨[], _, .unread hbranch hfind⟩
    by_cases hunmet : parent ∈ unmet
    · rcases found with _ | c
      · obtain ⟨shown, ending, h⟩ := hpassed hunmet
        exact ⟨shown, ending, .missing hbranch hunmet hfind h⟩
      · obtain ⟨shown, ending, h⟩ := hentered hunmet c
        exact ⟨c :: shown, ending, .enter hbranch hunmet hfind h⟩
    · obtain ⟨shown, ending, h⟩ := hskipped
      exact ⟨shown, ending, .again hbranch hunmet hfind h⟩

theorem exists_courseFrom (find : String → Except HierarchyError (Option ClassShape))
    (names : List String) (start : String) :
    ∃ shown ending, CourseFrom find names start shown ending := by
  rcases hfind : find start with e | _ | c
  · exact ⟨[], _, .unread hfind⟩
  · exact ⟨[], _, .missing hfind⟩
  · obtain ⟨shown, ending, h⟩ := exists_course find [.enter [] c] names
    exact ⟨shown, ending, .entered hfind h⟩

/-! ## Walks in a monad -/

/-- A sense in which a computation that looks classes up with `lookup` and shows them to `ask` comes
to one that shows them to `visit`, when look-ups give what `find` says. -/
structure Told {m n : Type → Type} [Monad m] [Monad n]
    (find : String → Except HierarchyError (Option ClassShape))
    (lookup : String → m (Option ClassShape)) (ask : ClassShape → m (Option α))
    (visit : ClassShape → n (Option α)) where
  rel : m (Except HierarchyError (Option α)) → n (Except HierarchyError (Option α)) → Prop
  pure : ∀ outcome, rel (Pure.pure outcome) (Pure.pure outcome)
  found : ∀ {name : String} {found : Option ClassShape}
    {next : Option ClassShape → m (Except HierarchyError (Option α))}
    {y : n (Except HierarchyError (Option α))}, find name = .ok found → rel (next found) y →
    rel (lookup name >>= next) y
  unread : ∀ {name : String} {e : HierarchyError}
    {next : Option ClassShape → m (Except HierarchyError (Option α))}, find name = .error e →
    rel (lookup name >>= next) (Pure.pure (.error e))
  visited : ∀ (c : ClassShape) {next : Option α → m (Except HierarchyError (Option α))}
    {next' : Option α → n (Except HierarchyError (Option α))},
    (∀ answer, rel (next answer) (next' answer)) → rel (ask c >>= next) (visit c >>= next')

namespace Told

variable {m n : Type → Type} [Monad m] [Monad n] {lookup : String → m (Option ClassShape)}
  {ask : ClassShape → m (Option α)} {visit : ClassShape → n (Option α)} {frames : List Frame}
  {names unmet : List String} {start : String} {shown : List ClassShape}
  {ending : Except HierarchyError Unit}

/-- A walk shows what its course shows, up to the first answer. -/
theorem run (T : Told find lookup ask visit) (h : Course find frames unmet shown ending) :
    T.rel (Walk.run lookup ask frames unmet) (firstAnswer visit ending shown) := by
  induction h with
  | done unmet =>
    rw [Walk.run]
    exact T.pure _
  | leave rest ih =>
    rw [Walk.run]
    exact ih
  | cycle hbranch =>
    rw [Walk.run, if_pos (List.contains_iff_mem.2 hbranch)]
    exact T.pure _
  | unread hbranch hfind =>
    rw [Walk.run, if_neg fun h => hbranch (List.contains_iff_mem.1 h)]
    exact T.unread hfind
  | again hbranch hmet hfind rest ih =>
    rw [Walk.run, if_neg fun h => hbranch (List.contains_iff_mem.1 h)]
    refine T.found hfind ?_
    rw [dif_neg hmet]
    exact ih
  | missing hbranch hunmet hfind rest ih =>
    rw [Walk.run, if_neg fun h => hbranch (List.contains_iff_mem.1 h)]
    refine T.found hfind ?_
    rw [dif_pos hunmet]
    exact ih
  | enter hbranch hunmet hfind rest ih =>
    rw [Walk.run, if_neg fun h => hbranch (List.contains_iff_mem.1 h)]
    refine T.found hfind ?_
    rw [dif_pos hunmet]
    refine T.visited _ fun answer => ?_
    rcases answer with _ | a
    · exact ih
    · exact T.pure _

theorem ancestors (T : Told find lookup ask visit) (h : CourseFrom find names start shown ending) :
    T.rel (Walk.ancestors lookup names ask start) (firstAnswer visit ending shown) := by
  cases h with
  | unread hfind => exact T.unread hfind
  | missing hfind => exact T.found hfind (T.pure _)
  | entered hfind course => exact T.found hfind (T.run course)

/-- Classes are looked up without side effects. -/
def plain {m : Type → Type} [Monad m] [LawfulMonad m] (find : String → Option ClassShape)
    (visit : ClassShape → m (Option α)) :
    Told (fun name => .ok (find name)) (fun name => Pure.pure (find name)) visit visit where
  rel := Eq
  pure _ := rfl
  found {name found next y} hfind hnext := by
    obtain rfl := Except.ok.inj hfind
    rw [pure_bind, hnext]
  unread hfind := by cases hfind
  visited _ _ _ hnext := bind_congr hnext

/-- Classes are looked up in a memory that holds nothing but what the class path says. -/
def recalled {m : Type → Type} [Monad m] [LawfulMonad m] (path : ClassPath)
    (visit : ClassShape → m (Option α)) :
    Told (fun name => .ok (path.find? name))
      (fun name => (modifyGet (path.recall name).run : StateT ShapeMemory m (Option ClassShape)))
      (fun c => StateT.lift (visit c)) visit where
  rel x y := ∀ shapes : ShapeMemory, path.Remembers shapes → Prod.fst <$> x.run shapes = y
  pure outcome shapes _ := by rw [StateT.run_pure, map_pure]
  found {name found next y} hfind hnext shapes hgood := by
    obtain rfl := Except.ok.inj hfind
    obtain ⟨hfound, hkept⟩ := path.recall_answers name shapes hgood
    rw [StateT.run_bind, StateT.run_modifyGet, pure_bind]
    show Prod.fst <$> (next (path.recall name shapes).1).run (path.recall name shapes).2 = y
    rw [hfound]
    exact hnext _ hkept
  unread hfind := by cases hfind
  visited c next next' hnext shapes hgood := by
    rw [StateT.run_bind, StateT.run_lift, bind_assoc, map_bind]
    refine bind_congr fun answer => ?_
    rw [pure_bind]
    exact hnext answer shapes hgood

/-- Look-ups and visits come to plain answers. -/
def comesTo {m : Type → Type} [Monad m] (C : ComesTo m) {lookup : String → m (Option ClassShape)}
    {ask : ClassShape → m (Option α)} {find : String → Option ClassShape}
    {visit : ClassShape → Option α} (hlookup : ∀ name, C.rel (lookup name) (find name))
    (hask : ∀ c, C.rel (ask c) (visit c)) :
    Told (fun name => .ok (find name)) lookup ask
      (fun c => (Pure.pure (visit c) : Id (Option α))) where
  rel x y := C.rel x y.run
  pure outcome := C.pure outcome
  found {name found next y} hfind hnext := by
    obtain rfl := Except.ok.inj hfind
    exact C.bind (hlookup name) hnext
  unread hfind := by cases hfind
  visited c _ _ hnext := C.bind (hask c) (hnext (visit c))

/-- Look-ups that may fail come to what they say, and visits to plain answers. -/
def failing {m : Type → Type} [Monad m] (C : ComesTo m)
    {lookup : String → ExceptT HierarchyError m (Option ClassShape)}
    {ask : ClassShape → ExceptT HierarchyError m (Option α)} {visit : ClassShape → Option α}
    (hlookup : ∀ name, C.rel (lookup name).run (find name))
    (hask : ∀ c, C.rel (ask c).run (.ok (visit c))) :
    Told find lookup ask (fun c => (Pure.pure (visit c) : Id (Option α))) where
  rel x y := ∃ z, C.rel x.run z ∧ z.bind id = y.run
  pure outcome := ⟨.ok outcome, C.pure _, rfl⟩
  found {name found next y} hfind hnext := by
    obtain ⟨z, hz, hy⟩ := hnext
    have hname := hlookup name
    rw [hfind] at hname
    exact ⟨z, C.bind hname hz, hy⟩
  unread {name e next} hfind := by
    have hname := hlookup name
    rw [hfind] at hname
    exact ⟨.error e, C.bind hname (C.pure _), rfl⟩
  visited c _ _ hnext := by
    obtain ⟨z, hz, hy⟩ := hnext (visit c)
    exact ⟨z, C.bind (hask c) hz, hy⟩

end Told

section

variable {find : String → Option ClassShape} {visit : ClassShape → Option α}

/-- A walk whose questions come to the plain answers ends as the plain walk does. -/
theorem ancestors_comesTo {m : Type → Type} [Monad m] (C : ComesTo m)
    {lookup : String → m (Option ClassShape)} {ask : ClassShape → m (Option α)}
    (hlookup : ∀ name, C.rel (lookup name) (find name)) (hask : ∀ c, C.rel (ask c) (visit c))
    (names : List String) (name : String) :
    C.rel (ancestors lookup names ask name)
      (Id.run (ancestors (fun name => pure (find name)) names (fun c => pure (visit c)) name)) := by
  obtain ⟨shown, ending, hcourse⟩ := exists_courseFrom (fun name => .ok (find name)) names name
  rw [(Told.plain find fun c => (pure (visit c) : Id (Option α))).ancestors hcourse]
  exact (Told.comesTo C hlookup hask).ancestors hcourse

/-- A walk answers with nothing but what a visit says. -/
theorem exists_visit_of_ancestors {names : List String} {name : String} {a : α}
    (h : Id.run (ancestors (fun name => pure (find name)) names (fun c => pure (visit c)) name) =
      .ok (some a)) : ∃ c, visit c = some a := by
  obtain ⟨shown, ending, hcourse⟩ := exists_courseFrom (fun name => .ok (find name)) names name
  rw [(Told.plain find fun c => (pure (visit c) : Id (Option α))).ancestors hcourse,
    firstAnswer_pure, Id.run_pure] at h
  rcases hfound : shown.findSome? visit with _ | b
  · rw [hfound] at h
    obtain ⟨_, -, hnone⟩ := map_ok_iff.1 h
    cases hnone
  · rw [hfound] at h
    cases h
    obtain ⟨c, -, hc⟩ := List.exists_of_findSome?_eq_some hfound
    exact ⟨c, hc⟩

end

end Walk

end JarRemap
