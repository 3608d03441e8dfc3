import JarRemap.Hierarchy.ClassPath
import Mathlib.Logic.Relation

/-!
# Ancestors

A class has its supertypes and their ancestors as ancestors, as far as they can be found. On a class
path without cycles, where every class is stored under its own name, none is its own ancestor.
-/

namespace JarRemap

namespace Walk

/-- The class with the first name names the second one as a supertype. -/
def Extends (find : String → Option ClassShape) (name parent : String) : Prop :=
  ∃ c, find name = some c ∧ parent ∈ c.parents

/-- The second name is that of an ancestor of the class with the first one. -/
def Ancestor (find : String → Option ClassShape) : String → String → Prop :=
  Relation.TransGen (Extends find)

/-- From this class on upwards, classes are stored under their own names, among the given ones, and
none is its own ancestor. -/
structure Upright (find : String → Option ClassShape) (names : List String) (start : String) :
    Prop where
  name_eq : ∀ p c, Relation.ReflTransGen (Extends find) start p → find p = some c → c.name = p
  mem_names : ∀ p c, Ancestor find start p → find p = some c → p ∈ names
  acyclic : ∀ p, Relation.ReflTransGen (Extends find) start p → ¬ Ancestor find p p

/-- From this class on upwards, classes are stored under their own names, among the given ones. -/
structure Stored (find : String → Option ClassShape) (names : List String) (start : String) :
    Prop where
  name_eq : ∀ p c, Relation.ReflTransGen (Extends find) start p → find p = some c → c.name = p
  mem_names : ∀ p c, Ancestor find start p → find p = some c → p ∈ names

variable {find : String → Option ClassShape} {names : List String} {start p q : String}

theorem Upright.stored (h : Upright find names start) : Stored find names start :=
  ⟨h.name_eq, h.mem_names⟩

theorem Extends.isSome (h : Extends find p q) : (find p).isSome := by
  obtain ⟨c, hc, -⟩ := h
  exact hc ▸ rfl

/-- A class that is not found has no ancestors. -/
theorem Ancestor.isSome (h : Ancestor find p q) : (find p).isSome := by
  obtain ⟨r, hfirst, -⟩ := Relation.TransGen.head'_iff.1 h
  exact hfirst.isSome

end Walk

/-! ## Class paths -/

namespace ClassPath

open Walk

/-- Every class is stored under its own name, and none is its own ancestor. -/
structure Acyclic (path : ClassPath) : Prop where
  name_eq : ∀ p s, path.find? p = some s → s.name = p
  not_ancestor : ∀ p, ¬ Ancestor path.find? p p

theorem mem_names_of_find? {path : ClassPath} {p : String} {s : ClassShape}
    (h : path.find? p = some s) : Text.beginsWith '[' p = false ∧ p ∈ path.names := by
  rw [find?] at h
  rcases hbracket : Text.beginsWith '[' p with _ | _
  · rw [hbracket, if_neg Bool.false_ne_true] at h
    obtain ⟨data, hdata, -⟩ := Option.bind_eq_some_iff.1 h
    obtain ⟨source, hsource, hlookup⟩ := List.exists_of_findSome?_eq_some hdata
    obtain ⟨front, back, rfl, -⟩ := List.lookup_eq_some_iff.1 hlookup
    refine ⟨rfl, List.mem_flatMap.2 ⟨_, hsource, List.mem_map.2 ⟨(p, data), ?_, rfl⟩⟩⟩
    simp
  · rw [hbracket, if_pos rfl] at h
    cases h

/-- A walk on a class path without cycles meets none. -/
theorem Acyclic.upright {path : ClassPath} (h : path.Acyclic) (start : String) :
    Upright path.find? path.names start where
  name_eq p s _ hs := h.name_eq p s hs
  mem_names _ _ _ hs := (mem_names_of_find? hs).2
  acyclic p _ := h.not_ancestor p

end ClassPath

end JarRemap
