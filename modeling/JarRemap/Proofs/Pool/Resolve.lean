import JarRemap.ConstantPool.Basic

/-!
# What a slot resolves to

Each way to resolve a slot succeeds exactly when certain entries stand in certain slots. In this
form a resolved name is carried from one pool to another by the entries that both have.
-/

namespace JarRemap

/-- The slots of the owner and of the name and descriptor in a reference to a member. -/
def Constant.reference? : Constant → Option (UInt16 × UInt16)
  | .fieldRef owner nat | .methodRef owner nat | .interfaceMethodRef owner nat => some (owner, nat)
  | _ => none

namespace ConstantPool

variable {pool : ConstantPool} {index : UInt16}

theorem get_ok_iff {k : Constant} : pool.get index = .ok k ↔ pool.entry? index = some k := by
  rw [get]
  cases pool.entry? index <;> simp

theorem text_ok_iff {s : String} :
    pool.text index = .ok s ↔ pool.entry? index = some (.utf8 s) := by
  rw [text, get]
  rcases pool.entry? index with _ | k
  · simp [bind, Except.bind]
  · cases k <;> simp [bind, Except.bind, pure, Except.pure, throw, throwThe, MonadExceptOf.throw]

theorem className_ok_iff {s : String} :
    pool.className index = .ok s ↔
      ∃ name, pool.entry? index = some (.classEntry name) ∧ pool.text name = .ok s := by
  rw [className, get]
  rcases pool.entry? index with _ | k
  · simp [bind, Except.bind]
  · cases k <;> simp [bind, Except.bind, throw, throwThe, MonadExceptOf.throw]

theorem nameAndType_ok_iff {n d : String} :
    pool.nameAndType index = .ok (n, d) ↔
      ∃ name descriptor, pool.entry? index = some (.nameAndType name descriptor) ∧
        pool.text name = .ok n ∧ pool.text descriptor = .ok d := by
  rw [nameAndType, get]
  rcases pool.entry? index with _ | k
  · simp [bind, Except.bind]
  · cases k
    case nameAndType name descriptor =>
      rcases hname : pool.text name with e | s <;>
        rcases hdescriptor : pool.text descriptor with e' | t <;>
        simp [bind, Except.bind, pure, Except.pure, hname, hdescriptor, and_assoc]
    all_goals simp [bind, Except.bind, throw, throwThe, MonadExceptOf.throw]

theorem memberReference_ok_iff {reference : MemberReference} :
    pool.memberReference index = .ok reference ↔
      ∃ k owner nat, pool.entry? index = some k ∧ k.reference? = some (owner, nat) ∧
        pool.className owner = .ok reference.owner ∧
        pool.nameAndType nat = .ok (reference.name, reference.descriptor) := by
  rw [memberReference, get]
  rcases pool.entry? index with _ | k
  · simp [bind, Except.bind]
  · cases k
    case fieldRef owner nat | methodRef owner nat | interfaceMethodRef owner nat =>
      obtain ⟨owner', name', descriptor'⟩ := reference
      rcases hnat : pool.nameAndType nat with e | ⟨s, t⟩ <;>
        rcases howner : pool.className owner with e' | o <;>
        simp [bind, Except.bind, pure, Except.pure, Constant.reference?, hnat, howner, and_assoc]
    all_goals simp [bind, Except.bind, throw, throwThe, MonadExceptOf.throw, Constant.reference?]


end ConstantPool

end JarRemap
