import JarRemap.Proofs.Hierarchy.DepthFirst
import JarRemap.Rename.Remapper

/-!
# The new name of a member

Constructors, initializers and the members of arrays keep their names. Any other member gets the
name in the row of its owner. Without such a row it gets the name that an ancestor gives which
declares it for others to see and has a row for it, and if there is no such ancestor, it keeps its
name.
-/

namespace JarRemap

open Walk

/-- The name of a constructor or of a class initializer. -/
def IsInitializer (name : String) : Prop :=
  name = "<init>" ∨ name = "<clinit>"

theorem MemberKey.isFixed_eq_false_iff {k : MemberKey} :
    k.isFixed = false ↔ ¬ IsInitializer k.name ∧ Text.beginsWith '[' k.owner = false := by
  rw [isFixed, IsInitializer]
  simp [Bool.or_eq_false_iff]

namespace Remapper

variable {r : Remapper} {k : MemberKey}

theorem memberName_of_fixed (h : k.isFixed = true) : r.memberName k = .ok k.name := by
  rw [memberName, if_pos h]

theorem memberName_of_row {new : String} (hfixed : k.isFixed = false)
    (hrow : r.table.memberName? k = some new) : r.memberName k = .ok new := by
  rw [memberName, hfixed, if_neg Bool.false_ne_true, search, RenameTable.search, hrow]
  rfl

/-- Without a row for the owner, the name is that which an ancestor gives, or else the old one. -/
theorem memberName_of_no_row (hfixed : k.isFixed = false) (hrow : r.table.memberName? k = none)
    (hup : Upright r.classPath.find? r.classPath.names k.owner) :
    (∃ new p s, r.memberName k = .ok new ∧ Ancestor r.classPath.find? k.owner p ∧
      r.classPath.find? p = some s ∧ r.table.nameFrom? k s = some new) ∨
    (r.memberName k = .ok k.name ∧ ∀ p s, Ancestor r.classPath.find? k.owner p →
      r.classPath.find? p = some s → r.table.nameFrom? k s = none) := by
  have hname : ∀ found, Id.run (ancestors (fun name => pure (r.classPath.find? name))
      r.classPath.names (fun c => pure (r.table.nameFrom? k c)) k.owner) = .ok found →
      r.memberName k = .ok (found.getD k.name) := by
    intro found hfound
    rw [memberName, hfixed, if_neg Bool.false_ne_true, search, RenameTable.search, hrow]
    exact congrArg (Except.map fun found : Option String => found.getD k.name) hfound
  have hends : EndsWell r.classPath.find? (r.table.nameFrom? k) k.owner _ := ancestors_endsWell hup
  rcases hends with ⟨new, hfound, p, s, hp, hs, hnew⟩ | ⟨hfound, hnone⟩
  · exact .inl ⟨new, p, s, hname _ hfound, hp, hs, hnew⟩
  · exact .inr ⟨hname _ hfound, hnone⟩

theorem nameFrom?_eq_some_iff {t : RenameTable} {s : ClassShape} {new : String} :
    t.nameFrom? k s = some new ↔ ∃ m, s.declared? k = some m ∧
      m.access.contains .privateFlag = false ∧
      t.memberName? { k with owner := s.name } = some new := by
  rw [RenameTable.nameFrom?]
  rcases s.declared? k with _ | m
  · simp
  · rcases hprivate : m.access.contains .privateFlag <;> simp [hprivate]

/-- A member that is listed neither for its owner nor for an ancestor keeps its name. -/
theorem memberName_of_unlisted (hup : Upright r.classPath.find? r.classPath.names k.owner)
    (hnone : ∀ p, p = k.owner ∨ Ancestor r.classPath.find? k.owner p →
      r.table.memberName? { k with owner := p } = none) : r.memberName k = .ok k.name := by
  rcases hfixed : k.isFixed with _ | _
  · rcases memberName_of_no_row hfixed (hnone k.owner (.inl rfl)) hup with
      ⟨new, p, s, -, hp, hs, hfrom⟩ | ⟨hname, -⟩
    · obtain ⟨-, -, -, hrow⟩ := nameFrom?_eq_some_iff.1 hfrom
      rw [hup.name_eq p s hp.to_reflTransGen hs, hnone p (.inr hp)] at hrow
      cases hrow
    · exact hname
  · exact memberName_of_fixed hfixed

end Remapper

end JarRemap
