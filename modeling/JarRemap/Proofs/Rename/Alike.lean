import JarRemap.Rename.Renaming
import Mathlib.Data.Nat.Notation

/-!
# Passes in two monads

The passes over a class are written over any monad. Whatever relates computations of two monads, and
is respected by the ways in which computations are composed, relates a pass in the one to the same
pass in the other, once it relates how they find the names of members. `Alike` is such a relation;
there is a lemma for every pass, up to `Alike.renamed` for a class of an archive.
-/

namespace JarRemap

/-- A relation between computations of two monads that composing them respects. -/
structure Alike (m n : Type → Type) [Monad m] [MonadExceptOf TransformError m] [Monad n]
    [MonadExceptOf TransformError n] where
  rel : ∀ {α : Type}, m α → n α → Prop
  pure : ∀ {α : Type} (a : α), rel (Pure.pure a) (Pure.pure a)
  throw : ∀ {α : Type} (e : TransformError),
    rel (MonadExcept.throw e : m α) (MonadExcept.throw e : n α)
  bind : ∀ {α β : Type} {x : m α} {y : n α} {f : α → m β} {g : α → n β}, rel x y →
    (∀ a, rel (f a) (g a)) → rel (x >>= f) (y >>= g)

namespace Alike

variable {m n : Type → Type} [Monad m] [MonadExceptOf TransformError m] [Monad n]
  [MonadExceptOf TransformError n] {α β : Type}

/-! ## Composition -/

section

variable (R : Alike m n)

theorem orFail {ε : Type} (wrap : ε → TransformError) (x : Except ε α) :
    R.rel (JarRemap.orFail wrap x) (JarRemap.orFail wrap x) := by
  cases x with
  | error e => exact R.throw _
  | ok a => exact R.pure a

theorem mapM {f : α → m β} {g : α → n β} (h : ∀ a, R.rel (f a) (g a)) (l : List α) :
    R.rel (l.mapM f) (l.mapM g) := by
  have hloop (done : List β) : R.rel (List.mapM.loop f l done) (List.mapM.loop g l done) := by
    induction l generalizing done with
    | nil => exact R.pure _
    | cons a l ih => exact R.bind (h a) fun b => ih (b :: done)
  exact hloop []

theorem forM {f : α → m Unit} {g : α → n Unit} (h : ∀ a, R.rel (f a) (g a)) (l : List α) :
    R.rel (l.forM f) (l.forM g) := by
  induction l with
  | nil => exact R.pure ()
  | cons a l ih => exact R.bind (h a) fun _ => ih

theorem foldlM {f : β → α → m β} {g : β → α → n β} (h : ∀ b a, R.rel (f b a) (g b a)) (b : β)
    (l : List α) : R.rel (l.foldlM f b) (l.foldlM g b) := by
  induction l generalizing b with
  | nil => exact R.pure b
  | cons a l ih => exact R.bind (h b a) ih

/-- The relation between computations with a state that holds from every state. -/
def stateT (σ : Type) : Alike (StateT σ m) (StateT σ n) where
  rel x y := ∀ s, R.rel (x s) (y s)
  pure a s := R.pure (a, s)
  throw e s := R.bind (R.throw e) fun a => R.pure (a, s)
  bind hx hf s := R.bind (hx s) fun (a, s) => hf a s

end

end Alike

/-- The same pass in another monad. -/
def RenamePass.asking {m n : Type → Type} (r : RenamePass m) (memberName : MemberKey → n String) :
    RenamePass n :=
  { table := r.table, memberName, source := r.source, owner := r.owner }

namespace Alike

open RenamePass

variable {m n : Type → Type} [Monad m] [MonadExceptOf TransformError m] [Monad n]
  [MonadExceptOf TransformError n] {R : Alike m n} {r : RenamePass m} {g : MemberKey → n String}
  {α : Type}

/-! ## Steps -/

theorem read (x : Except ClassError α) : (R.stateT ConstantPool).rel (read x) (read x) :=
  orFail _ _ x

theorem edit (x : PoolEdit α) : (R.stateT ConstantPool).rel (edit x) (edit x) := by
  intro pool
  rw [RenamePass.edit, RenamePass.edit]
  split
  · exact R.pure _
  · exact R.throw _

theorem newDescriptor (d : String) :
    (R.stateT _).rel (r.newDescriptor d) ((r.asking g).newDescriptor d) :=
  orFail _ _ _

theorem replaceText (i : UInt16) (new : String) :
    (R.stateT _).rel (r.replaceText i new) ((r.asking g).replaceText i new) := by
  refine (R.stateT _).bind (read _) fun old => ?_
  split
  · exact (R.stateT _).pure _
  · exact edit _

theorem replaceDescriptor (i : UInt16) :
    (R.stateT _).rel (r.replaceDescriptor i) ((r.asking g).replaceDescriptor i) :=
  (R.stateT _).bind (read _) fun _ => (R.stateT _).bind (newDescriptor _) fun _ => replaceText _ _

theorem replaceSignature (kind : SignatureKind) (i : UInt16) :
    (R.stateT _).rel (r.replaceSignature kind i) ((r.asking g).replaceSignature kind i) :=
  (R.stateT _).bind (read _) fun _ => (R.stateT _).bind (orFail _ _ _) fun _ => replaceText _ _

theorem retarget (i : UInt16) (name : String) :
    (R.stateT _).rel (r.retarget i name) ((r.asking g).retarget i name) := by
  refine (R.stateT _).bind (read _) fun (_, _) => ?_
  refine (R.stateT _).bind (newDescriptor _) fun new => ?_
  split
  · exact (R.stateT _).pure _
  · exact (R.stateT _).bind (edit _) fun _ => (R.stateT _).pure _

/-- An entry that refers to a name with a descriptor is redirected if these change. -/
theorem redirect (index i : UInt16) (name : String) (build : UInt16 → Constant) :
    (R.stateT _).rel
      (do
        match ← r.retarget i name with
        | some fresh => RenamePass.edit (PoolEdit.set index (build fresh))
        | none => return ())
      (do
        match ← (r.asking g).retarget i name with
        | some fresh => RenamePass.edit (PoolEdit.set index (build fresh))
        | none => return ()) := by
  refine (R.stateT _).bind (retarget _ _) fun fresh => ?_
  rcases fresh with _ | fresh
  · exact (R.stateT _).pure _
  · exact edit _

variable (h : ∀ k, R.rel (r.memberName k) (g k))
include h

theorem newMemberName (kind : MemberKind) (owner name descriptor : String) :
    (R.stateT _).rel (r.newMemberName kind owner name descriptor)
      ((r.asking g).newMemberName kind owner name descriptor) :=
  fun pool => R.bind (h _) fun new => R.pure (new, pool)

/-! ## The pool -/

theorem lambdaName (bootstraps : List BootstrapMethod) (i : UInt16) (name descriptor : String) :
    (R.stateT _).rel (r.lambdaName bootstraps i name descriptor)
      ((r.asking g).lambdaName bootstraps i name descriptor) := by
  rw [RenamePass.lambdaName, RenamePass.lambdaName]
  split
  case h_2 => exact (R.stateT _).pure _
  refine (R.stateT _).bind (read _) fun handle => ?_
  split
  case h_2 => exact (R.stateT _).pure _
  refine (R.stateT _).bind (read _) fun factory => ?_
  split
  · exact (R.stateT _).pure _
  split
  case h_2 => exact (R.stateT _).pure _
  refine (R.stateT _).bind (read _) fun type => ?_
  split
  case h_2 => exact (R.stateT _).pure _
  refine (R.stateT _).bind (orFail _ _ _) fun site => ?_
  split
  case h_2 => exact (R.stateT _).pure _
  refine (R.stateT _).bind (read _) fun erased => ?_
  exact (R.stateT _).bind (newMemberName h _ _ _ _) fun _ => (R.stateT _).pure _

theorem renameReference (kind : MemberKind) (build : UInt16 → UInt16 → Constant)
    (index owner nat : UInt16) :
    (R.stateT _).rel (r.renameReference kind build index owner nat)
      ((r.asking g).renameReference kind build index owner nat) := by
  refine (R.stateT _).bind (read _) fun holder => ?_
  refine (R.stateT _).bind (read _) fun (name, descriptor) => ?_
  exact (R.stateT _).bind (newMemberName h _ _ _ _) fun _ => redirect _ _ _ _

theorem renameConstant (bootstraps : Option (List BootstrapMethod)) (index : UInt16)
    (k : Constant) :
    (R.stateT _).rel (r.renameConstant bootstraps index k)
      ((r.asking g).renameConstant bootstraps index k) := by
  cases k with
  | classEntry name =>
    refine (R.stateT _).bind (read _) fun old => (R.stateT _).bind (orFail _ _ _) fun new => ?_
    split
    · exact (R.stateT _).bind (edit _) fun _ => edit _
    · exact (R.stateT _).pure _
  | fieldRef owner nat => exact renameReference h _ _ _ _ _
  | methodRef owner nat => exact renameReference h _ _ _ _ _
  | interfaceMethodRef owner nat => exact renameReference h _ _ _ _ _
  | methodType descriptor =>
    refine (R.stateT _).bind (replaceDescriptor _) fun new => ?_
    split
    · exact edit _
    · exact (R.stateT _).pure _
  | invokeDynamic bootstrap nat =>
    refine (R.stateT _).bind (read _) fun (name, descriptor) => ?_
    rcases bootstraps with _ | bootstraps
    · exact (R.stateT _).bind ((R.stateT _).pure _) fun _ => redirect _ _ _ _
    · exact (R.stateT _).bind (lambdaName h _ _ _ _) fun _ => redirect _ _ _ _
  | dynamic bootstrap nat =>
    exact (R.stateT _).bind (read _) fun (_, _) => redirect _ _ _ _
  | _ => exact (R.stateT _).pure _

theorem renamePool (attributes : List Attribute) :
    (R.stateT _).rel (r.renamePool attributes) ((r.asking g).renamePool attributes) := by
  refine (R.stateT _).bind (read _) fun bootstraps => ?_
  exact (R.stateT _).forM (fun (index, k) => renameConstant h bootstraps index k) _

/-! ## Annotations -/

set_option linter.unusedSectionVars false in
mutual

theorem renameUse : ∀ use : AnnotationUse,
    (R.stateT _).rel (r.renameUse use) ((r.asking g).renameUse use)
  | .mk type elements => by
    rw [RenamePass.renameUse, RenamePass.renameUse]
    refine (R.stateT _).bind (replaceDescriptor _) fun _ => ?_
    exact (R.stateT _).bind (renamePairs elements) fun _ => (R.stateT _).pure _

theorem renamePairs : ∀ elements : List ElementPair,
    (R.stateT _).rel (r.renamePairs elements) ((r.asking g).renamePairs elements)
  | [] => by
    rw [RenamePass.renamePairs, RenamePass.renamePairs]
    exact (R.stateT _).pure _
  | .mk name value :: more => by
    rw [RenamePass.renamePairs, RenamePass.renamePairs]
    refine (R.stateT _).bind (renameValue value) fun _ => ?_
    exact (R.stateT _).bind (renamePairs more) fun _ => (R.stateT _).pure _

theorem renameValue : ∀ value : ElementValue,
    (R.stateT _).rel (r.renameValue value) ((r.asking g).renameValue value)
  | .constant tag value => by
    rw [RenamePass.renameValue, RenamePass.renameValue]
    exact (R.stateT _).pure _
  | .enumConstant typeName constantName => by
    rw [RenamePass.renameValue, RenamePass.renameValue]
    refine (R.stateT _).bind (read _) fun _ => (R.stateT _).bind (read _) fun _ => ?_
    refine (R.stateT _).bind (orFail _ _ _) fun type => ?_
    refine (R.stateT _).bind (newMemberName h _ _ _ _) fun new => ?_
    refine (R.stateT _).bind (replaceText _ _) fun _ => ?_
    exact (R.stateT _).bind (replaceDescriptor _) fun _ => (R.stateT _).pure _
  | .classLiteral descriptor => by
    rw [RenamePass.renameValue, RenamePass.renameValue]
    refine (R.stateT _).bind (read _) fun old => ?_
    split
    · exact (R.stateT _).pure _
    · exact (R.stateT _).bind (replaceDescriptor _) fun _ => (R.stateT _).pure _
  | .nested use => by
    rw [RenamePass.renameValue, RenamePass.renameValue]
    exact (R.stateT _).bind (renameUse use) fun _ => (R.stateT _).pure _
  | .array values => by
    rw [RenamePass.renameValue, RenamePass.renameValue]
    exact (R.stateT _).bind (renameValues values) fun _ => (R.stateT _).pure _

theorem renameValues : ∀ values : List ElementValue,
    (R.stateT _).rel (r.renameValues values) ((r.asking g).renameValues values)
  | [] => by
    rw [RenamePass.renameValues, RenamePass.renameValues]
    exact (R.stateT _).pure _
  | v :: more => by
    rw [RenamePass.renameValues, RenamePass.renameValues]
    refine (R.stateT _).bind (renameValue v) fun _ => ?_
    exact (R.stateT _).bind (renameValues more) fun _ => (R.stateT _).pure _

end

/-! ## Parameters and local variables -/

omit h in
theorem replaceParameterName (method descriptor : String) (slot : ℕ) (name : UInt16) :
    (R.stateT _).rel (r.replaceParameterName method descriptor slot name)
      ((r.asking g).replaceParameterName method descriptor slot name) :=
  (R.stateT _).bind (read _) fun _ => replaceText _ _

omit h in
theorem renameVariables (method descriptor : String) (slots : List ℕ)
    (format : AttributeFormat (List LocalVariable)) {replaceType : UInt16 → PoolPass m UInt16}
    {replaceType' : UInt16 → PoolPass n UInt16}
    (htype : ∀ i, (R.stateT _).rel (replaceType i) (replaceType' i)) (a : Attribute) :
    (R.stateT _).rel (r.renameVariables method descriptor slots format replaceType a)
      ((r.asking g).renameVariables method descriptor slots format replaceType' a) := by
  refine (R.stateT _).bind (read _) fun rows => ?_
  refine (R.stateT _).bind ((R.stateT _).mapM (fun v => ?_) rows) fun _ => (R.stateT _).pure _
  rw [RenamePass.renameVariable, RenamePass.renameVariable]
  dsimp only
  split
  · refine (R.stateT _).bind (replaceParameterName _ _ _ _) fun _ => ?_
    exact (R.stateT _).bind (htype _) fun _ => (R.stateT _).pure _
  · refine (R.stateT _).bind ((R.stateT _).pure _) fun _ => ?_
    exact (R.stateT _).bind (htype _) fun _ => (R.stateT _).pure _

omit h in
theorem renameCodeAttributes (site : AttributeSite) (attributes : List Attribute) :
    (R.stateT _).rel (r.renameCodeAttributes site attributes)
      ((r.asking g).renameCodeAttributes site attributes) := by
  cases site with
  | ofMethod method descriptor isStatic =>
    refine (R.stateT _).bind (orFail _ _ _) fun slots => (R.stateT _).mapM (fun a => ?_) attributes
    rw [RenamePass.renameCodeAttribute, RenamePass.renameCodeAttribute]
    split
    · exact renameVariables _ _ _ _ (fun i => replaceDescriptor i) a
    · split
      · exact renameVariables _ _ _ _ (fun i => replaceSignature _ i) a
      · exact (R.stateT _).pure _
  | _ => exact (R.stateT _).pure _

omit h in
theorem renameParameters (method descriptor : String) (params : List MethodParameter)
    (slots : List ℕ) :
    (R.stateT _).rel (r.renameParameters method descriptor params slots)
      ((r.asking g).renameParameters method descriptor params slots) := by
  induction params generalizing slots with
  | nil => exact (R.stateT _).pure _
  | cons p params ih =>
    cases slots with
    | nil => exact (R.stateT _).pure _
    | cons slot slots =>
      rw [RenamePass.renameParameters, RenamePass.renameParameters]
      dsimp only
      split
      · refine (R.stateT _).bind ((R.stateT _).pure _) fun _ => ?_
        exact (R.stateT _).bind (ih slots) fun _ => (R.stateT _).pure _
      · refine (R.stateT _).bind (replaceParameterName _ _ _ _) fun _ => ?_
        exact (R.stateT _).bind (ih slots) fun _ => (R.stateT _).pure _

omit h in
theorem renameMethodParameters (site : AttributeSite) (params : List MethodParameter) :
    (R.stateT _).rel (r.renameMethodParameters site params)
      ((r.asking g).renameMethodParameters site params) := by
  cases site with
  | ofMethod method descriptor isStatic =>
    exact (R.stateT _).bind (orFail _ _ _) fun slots => renameParameters _ _ _ _
  | _ => exact (R.stateT _).pure _

/-! ## Attributes -/

omit h in
theorem renameInnerClass (c : InnerClass) :
    (R.stateT _).rel (r.renameInnerClass c) ((r.asking g).renameInnerClass c) := by
  rw [RenamePass.renameInnerClass, RenamePass.renameInnerClass]
  split
  · exact (R.stateT _).pure _
  refine (R.stateT _).bind (read _) fun name => (R.stateT _).bind (read _) fun simple => ?_
  exact (R.stateT _).bind (replaceText _ _) fun _ => (R.stateT _).pure _

theorem renameEnclosing (e : EnclosingMethod) :
    (R.stateT _).rel (r.renameEnclosing e) ((r.asking g).renameEnclosing e) := by
  rw [RenamePass.renameEnclosing, RenamePass.renameEnclosing]
  split
  · exact (R.stateT _).pure _
  refine (R.stateT _).bind (read _) fun owner => ?_
  refine (R.stateT _).bind (read _) fun (name, descriptor) => ?_
  refine (R.stateT _).bind (newMemberName h _ _ _ _) fun new => ?_
  exact (R.stateT _).bind (retarget _ _) fun _ => (R.stateT _).pure _

section

variable {nested : Attribute → PoolPass m Attribute} {nested' : Attribute → PoolPass n Attribute}
  (hnested : ∀ a, (R.stateT _).rel (nested a) (nested' a))
include hnested

theorem renameComponent (c : RecordComponent) :
    (R.stateT _).rel (r.renameComponent nested c) ((r.asking g).renameComponent nested' c) := by
  refine (R.stateT _).bind (read _) fun _ => (R.stateT _).bind (read _) fun _ => ?_
  refine (R.stateT _).bind (newMemberName h _ _ _ _) fun new => ?_
  refine (R.stateT _).bind (replaceText _ _) fun _ => ?_
  refine (R.stateT _).bind (replaceDescriptor _) fun _ => ?_
  exact (R.stateT _).bind ((R.stateT _).mapM hnested _) fun _ => (R.stateT _).pure _

omit h hnested in
theorem renameBody {α : Type} (format : AttributeFormat α) {rename : α → PoolPass m α}
    {rename' : α → PoolPass n α} (hrename : ∀ a, (R.stateT _).rel (rename a) (rename' a))
    (info : Bytes) :
    (R.stateT _).rel (r.renameBody format rename info)
      ((r.asking g).renameBody format rename' info) :=
  (R.stateT _).bind (read _) fun _ => (R.stateT _).bind (hrename _) fun _ => (R.stateT _).pure _

theorem renameInfo (site : AttributeSite) (a : Attribute) :
    (R.stateT _).rel (r.renameInfo nested site a) ((r.asking g).renameInfo nested' site a) := by
  have huses (uses : List AnnotationUse) : (R.stateT _).rel (uses.mapM r.renameUse)
      (uses.mapM (r.asking g).renameUse) :=
    (R.stateT _).mapM (renameUse h) uses
  rw [RenamePass.renameInfo, RenamePass.renameInfo]
  split
  · refine (R.stateT _).bind (read _) fun _ => ?_
    exact (R.stateT _).bind (replaceSignature _ _) fun _ => (R.stateT _).pure _
  split
  · refine (R.stateT _).bind (read _) fun uses => ?_
    exact (R.stateT _).bind (huses uses) fun _ => (R.stateT _).pure _
  split
  · refine (R.stateT _).bind (read _) fun params => ?_
    exact (R.stateT _).bind ((R.stateT _).mapM huses params) fun _ => (R.stateT _).pure _
  split
  · exact renameBody _ (renameValue h) _
  split
  · refine renameBody _ (fun body => ?_) _
    exact (R.stateT _).bind (renameCodeAttributes _ _) fun _ => (R.stateT _).pure _
  split
  · exact renameBody _ (renameMethodParameters _) _
  split
  · exact renameBody _ ((R.stateT _).mapM (renameComponent h hnested)) _
  split
  · exact renameBody _ ((R.stateT _).mapM renameInnerClass) _
  split
  · exact renameBody _ (renameEnclosing h) _
  · exact (R.stateT _).pure _

end

theorem renameAttribute (site : AttributeSite) (a : Attribute) :
    (R.stateT _).rel (r.renameAttribute site a) ((r.asking g).renameAttribute site a) := by
  have hwithin (depth : ℕ) : ∀ site a, (R.stateT _).rel (r.renameAttributeWithin depth site a)
      ((r.asking g).renameAttributeWithin depth site a) := by
    induction depth with
    | zero =>
      intro site a
      exact (R.stateT _).bind (renameInfo h (R.stateT _).pure site a) fun _ => (R.stateT _).pure _
    | succ depth ih =>
      intro site a
      exact (R.stateT _).bind (renameInfo h (ih .ofComponent) site a) fun _ => (R.stateT _).pure _
  exact hwithin _ site a

/-! ## Members and the class -/

theorem renameMember (kind : MemberKind) (site : String → String → AttributeSite)
    (member : Member) :
    (R.stateT _).rel (r.renameMember kind site member)
      ((r.asking g).renameMember kind site member) := by
  refine (R.stateT _).bind (read _) fun name => (R.stateT _).bind (read _) fun descriptor => ?_
  refine (R.stateT _).bind (newMemberName h _ _ _ _) fun new => ?_
  refine (R.stateT _).bind (replaceText _ _) fun _ => ?_
  refine (R.stateT _).bind (replaceDescriptor _) fun _ => ?_
  refine (R.stateT _).bind ((R.stateT _).mapM (renameAttribute h _) _) fun _ => ?_
  exact (R.stateT _).pure _

theorem renameClass (c : ClassFile) :
    (R.stateT _).rel (r.renameClass c) ((r.asking g).renameClass c) := by
  refine (R.stateT _).bind (renamePool h _) fun _ => ?_
  refine (R.stateT _).bind ((R.stateT _).mapM (renameMember h _ _) _) fun fields => ?_
  refine (R.stateT _).bind ((R.stateT _).mapM (fun method => renameMember h _ _ method) _)
    fun methods => ?_
  refine (R.stateT _).bind ((R.stateT _).mapM (renameAttribute h _) _) fun attributes => ?_
  exact (R.stateT _).pure _

end Alike

/-! ## Classes of an archive -/

namespace Alike

variable {m n : Type → Type} [Monad m] [MonadExceptOf TransformError m] [Monad n]
  [MonadExceptOf TransformError n] {R : Alike m n} {f : MemberKey → m String}
  {g : MemberKey → n String} (h : ∀ k, R.rel (f k) (g k)) (table : RenameTable) (owner : String)
include h

theorem rename (c : ClassFile) :
    R.rel (c.rename table f owner) (c.rename table g owner) := by
  refine R.bind ?_ fun (c, pool) => R.pure _
  exact renameClass (r := { table, memberName := f, source := c.pool, owner }) h c c.pool

theorem parameterLine? (pool : ConstantPool) (method : Member) :
    R.rel (JarRemap.parameterLine? table f owner pool method)
      (JarRemap.parameterLine? table g owner pool method) := by
  rw [JarRemap.parameterLine?, JarRemap.parameterLine?]
  split
  · exact R.pure _
  refine R.bind (R.orFail _ _) fun name => R.bind (R.orFail _ _) fun descriptor => ?_
  refine R.bind (R.orFail _ _) fun type => ?_
  split
  · exact R.pure _
  exact R.bind (h _) fun _ => R.bind (R.orFail _ _) fun _ => R.pure _

/-- Renaming a class of an archive is alike in both monads, if members are named and lines are noted
alike. -/
theorem rename? {note : String → m Unit} {note' : String → n Unit}
    (hnote : ∀ line, R.rel (note line) (note' line)) (e : ClassEntry) :
    R.rel (e.rename? table f note) (e.rename? table g note') := by
  refine R.bind (R.orFail _ _) fun c => R.bind (R.orFail _ _) fun owner => ?_
  refine R.bind (R.forM (fun method => ?_) _) fun _ => ?_
  · refine R.bind (parameterLine? h table owner c.pool method) fun line => ?_
    rcases line with _ | line
    · exact R.pure _
    · exact hnote line
  · refine R.bind (rename h table owner c) fun c => ?_
    dsimp only
    split <;> exact R.pure _

/-- What becomes of a class of an archive is alike in both monads, if members are named, lines are
noted and changes are counted alike. -/
theorem renamed {note : String → m Unit} {note' : String → n Unit} {count : m Unit}
    {count' : n Unit} (hnote : ∀ line, R.rel (note line) (note' line)) (hcount : R.rel count count')
    (e : ClassEntry) :
    R.rel (e.renamed table f note count) (e.renamed table g note' count') := by
  refine R.bind (rename? h table hnote e) fun found => ?_
  rcases found with _ | renamed
  · exact R.pure e
  · exact R.bind hcount fun _ => R.pure renamed

end Alike

end JarRemap
