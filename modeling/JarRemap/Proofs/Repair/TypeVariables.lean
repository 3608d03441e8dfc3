import JarRemap.Proofs.RenameTable.Merge
import JarRemap.Proofs.Repair.Record
import JarRemap.Proofs.Signature.Parse
import Mathlib.Data.List.Induction

/-!
# Where type variables stand

The repair of a signature walks through the members of a class and notes type variables on its way.
Here their places are listed apart from that walk: every one in the order in which it is written,
with the class by which the erased type beside it bounds the variable. The walk notes these places
one after the other (`ClassFile.variableBounds_eq`), and what is left of them are the variables in
the order of their first places, each with the first class that is known for it (`noteSites_eq`).
-/

namespace JarRemap

open Signature

/-! ## Places -/

/-- A place of a type variable, with the class that bounds the variable there, if there is one. -/
abbrev VariableSite := String × Option String

mutual

/-- The type variables in a type, as often and in the order as they are written. -/
def TypeSignature.variables : TypeSignature → List String
  | .primitive _ => []
  | .typeVariable name => [name]
  | .array element => element.variables
  | .classType c => c.variables

/-- The type variables in the arguments of a class type. -/
def ClassType.variables : ClassType → List String
  | .mk outer inner => outer.variables ++ ClassSegment.allVariables inner

/-- The type variables in the arguments of a segment. -/
def ClassSegment.variables : ClassSegment → List String
  | .mk _ args => TypeArgument.allVariables args

/-- The type variables in the arguments of segments. -/
def ClassSegment.allVariables : List ClassSegment → List String
  | [] => []
  | s :: more => s.variables ++ ClassSegment.allVariables more

/-- The type variables in a type argument. -/
def TypeArgument.variables : TypeArgument → List String
  | .any => []
  | .bounded _ t => t.variables

/-- The type variables in type arguments. -/
def TypeArgument.allVariables : List TypeArgument → List String
  | [] => []
  | a :: more => a.variables ++ TypeArgument.allVariables more

end

/-- The type variable that the type is, or that an array of so many dimensions holds. -/
def TypeSignature.wholeVariable? : TypeSignature → Option (String × ℕ)
  | .typeVariable name => some (name, 0)
  | .array element => element.wholeVariable?.map fun (name, depth) => (name, depth + 1)
  | _ => none

/-- What an array holds that many dimensions deep, if it has as many. -/
def FieldType.elementAt? (erased : FieldType) (depth : ℕ) : Option FieldType :=
  if depth ≤ erased.dimensions.toNat then
    some { erased with dimensions := erased.dimensions - UInt8.ofNat depth }
  else none

/-- The places inside of a type, where nothing bounds a variable. -/
def TypeSignature.insideSites (t : TypeSignature) : List VariableSite :=
  t.variables.map (·, none)

/-- The places in a whole type, beside which stands its erasure. -/
def TypeSignature.wholeSites (t : TypeSignature) (erased : Option FieldType) : List VariableSite :=
  match t.wholeVariable? with
  | some (name, depth) => [(name, (erased.bind (·.elementAt? depth)).bind boundOf)]
  | none => t.insideSites

/-- The places in the signature of a method, beside which stands its erased descriptor: those in
the bounds of its type parameters, in its parameters, in what it returns and in what it throws. -/
def MethodSignature.sites (s : MethodSignature) (erased : MethodDescriptor) : List VariableSite :=
  (s.typeParams.flatMap fun p => p.classBound.toList ++ p.interfaceBounds).flatMap
      TypeSignature.insideSites ++
    (s.params.mapIdx fun i t => t.wholeSites erased.params[i]?).flatten ++
    s.ret.toList.flatMap (·.wholeSites erased.ret) ++
    s.throws.flatMap TypeSignature.insideSites

/-- The places of type variables in a field with this signature and descriptor. -/
def fieldSites (signature descriptor : String) : Except TransformError (List VariableSite) := do
  let type ← (TypeSignature.parse signature).mapError .signature
  let erased ← (FieldType.parse descriptor).mapError .descriptor
  return type.wholeSites (some erased)

/-- The places of type variables in a method, those of its own type parameters apart. -/
def methodSites (signature descriptor : String) : Except TransformError (List VariableSite) := do
  let type ← (MethodSignature.parse signature).mapError .signature
  let erased ← (MethodDescriptor.parse descriptor).mapError .descriptor
  return (type.sites erased).filter (·.1 ∉ type.typeParams.map (·.name))

/-- The places of type variables in something with attributes and a descriptor. Without a signature
there are none. -/
def memberSites (pool : ConstantPool)
    (sites : String → String → Except TransformError (List VariableSite))
    (attributes : List Attribute) (descriptor : UInt16) :
    Except TransformError (List VariableSite) := do
  match ← (signatureAmong pool attributes).mapError .classFile with
  | none => return []
  | some signature => sites signature (← (pool.text descriptor).mapError .classFile)

/-- The places of type variables in a class: in its record components, in its fields and in its
methods. -/
def ClassFile.variableSites (c : ClassFile) : Except TransformError (List VariableSite) := do
  let components ←
    (AttributeFormat.recordComponents.parseAmong c.pool c.attributes).mapError .classFile
  let ofComponents ← (components.getD []).mapM fun r =>
    memberSites c.pool fieldSites r.attributes r.descriptor
  let ofFields ← c.fields.mapM fun f => memberSites c.pool fieldSites f.attributes f.descriptor
  let ofMethods ← c.methods.mapM fun m => memberSites c.pool methodSites m.attributes m.descriptor
  return ofComponents.flatten ++ ofFields.flatten ++ ofMethods.flatten

/-- The first class that is known to bound the variable. -/
def firstBound (sites : List VariableSite) (name : String) : Option String :=
  sites.findSome? fun site => if site.1 = name then site.2 else none

/-! ## Notes on places -/

/-- Notes places one after the other. -/
def noteSites (declared : List String) (sites : List VariableSite) (bounds : VariableBounds) :
    VariableBounds :=
  sites.foldl (fun bounds site => noteVariable declared site.1 site.2 bounds) bounds

section

variable {declared : List String} {bounds : VariableBounds}

theorem noteSites_append {sites more : List VariableSite} :
    noteSites declared (sites ++ more) bounds =
      noteSites declared more (noteSites declared sites bounds) :=
  List.foldl_append

/-- Variables of the method itself are passed over. -/
theorem noteSites_declared {sites : List VariableSite} :
    noteSites declared sites bounds = noteSites [] (sites.filter (·.1 ∉ declared)) bounds := by
  unfold noteSites
  rw [List.foldl_filter]
  congr 1
  funext bounds site
  unfold noteVariable
  by_cases hdeclared : site.1 ∈ declared
  · simp [hdeclared]
  · simp [hdeclared]

mutual

theorem noteInside_eq (t : TypeSignature) (bounds : VariableBounds) :
    noteInside declared t bounds = noteSites declared t.insideSites bounds := by
  cases t with
  | primitive p => rfl
  | typeVariable name => rfl
  | array element =>
    rw [noteInside, noteInside_eq element]
    rfl
  | classType c =>
    rw [noteInside, noteInClass_eq c]
    rfl

theorem noteInClass_eq (c : ClassType) (bounds : VariableBounds) :
    noteInClass declared c bounds = noteSites declared (c.variables.map (·, none)) bounds := by
  obtain ⟨outer, inner⟩ := c
  rw [noteInClass, noteInSegment_eq outer, noteInSegments_eq inner, ClassType.variables,
    List.map_append, noteSites_append]

theorem noteInSegment_eq (s : ClassSegment) (bounds : VariableBounds) :
    noteInSegment declared s bounds = noteSites declared (s.variables.map (·, none)) bounds := by
  obtain ⟨name, args⟩ := s
  rw [noteInSegment, noteInArguments_eq args, ClassSegment.variables]

theorem noteInSegments_eq (segments : List ClassSegment) (bounds : VariableBounds) :
    noteInSegments declared segments bounds =
      noteSites declared ((ClassSegment.allVariables segments).map (·, none)) bounds := by
  cases segments with
  | nil => rfl
  | cons s more =>
    rw [noteInSegments, noteInSegment_eq s, noteInSegments_eq more, ClassSegment.allVariables,
      List.map_append, noteSites_append]

theorem noteInArgument_eq (a : TypeArgument) (bounds : VariableBounds) :
    noteInArgument declared a bounds = noteSites declared (a.variables.map (·, none)) bounds := by
  cases a with
  | any => rfl
  | bounded bound t =>
    rw [noteInArgument, noteInside_eq t, TypeArgument.variables]
    rfl

theorem noteInArguments_eq (args : List TypeArgument) (bounds : VariableBounds) :
    noteInArguments declared args bounds =
      noteSites declared ((TypeArgument.allVariables args).map (·, none)) bounds := by
  cases args with
  | nil => rfl
  | cons a more =>
    rw [noteInArguments, noteInArgument_eq a, noteInArguments_eq more, TypeArgument.allVariables,
      List.map_append, noteSites_append]

end

/-- An array holds one dimension deeper what its element holds. -/
theorem elementOf_bind_elementAt? (erased : FieldType) (depth : ℕ) :
    (elementOf erased).bind (·.elementAt? depth) = erased.elementAt? (depth + 1) := by
  have hpos : (0 < erased.dimensions) ↔ 0 < erased.dimensions.toNat := UInt8.lt_iff_toNat_lt
  unfold elementOf FieldType.elementAt? FieldType.isArray
  by_cases harray : 0 < erased.dimensions
  · have hone : 1 ≤ erased.dimensions := UInt8.le_iff_toNat_le.2 (hpos.1 harray)
    have hless : (erased.dimensions - 1).toNat = erased.dimensions.toNat - 1 :=
      UInt8.toNat_sub_of_le _ _ hone
    have hsub : erased.dimensions - 1 - UInt8.ofNat depth =
        erased.dimensions - UInt8.ofNat (depth + 1) := by
      rw [UInt8.ofNat_add]
      grind
    have hle : depth ≤ erased.dimensions.toNat - 1 ↔ depth + 1 ≤ erased.dimensions.toNat := by
      have := hpos.1 harray
      omega
    simp only [harray, decide_true, if_true, Option.bind_some, hless, hle, hsub]
  · have hnone : ¬ depth + 1 ≤ erased.dimensions.toNat := by
      rw [hpos] at harray
      omega
    simp only [harray, decide_false, Bool.false_eq_true, if_false, Option.bind_none, hnone]

/-- What stands in an array stands in it as in a whole type, one dimension deeper. -/
theorem TypeSignature.wholeSites_array (element : TypeSignature) (erased : Option FieldType) :
    (TypeSignature.array element).wholeSites erased =
      element.wholeSites (erased.bind elementOf) := by
  unfold wholeSites
  rw [wholeVariable?]
  rcases element.wholeVariable? with _ | ⟨name, depth⟩
  · rfl
  · have helement : (erased.bind elementOf).bind (·.elementAt? depth) =
        erased.bind (·.elementAt? (depth + 1)) := by
      rw [Option.bind_assoc]
      exact congrArg erased.bind (funext fun e => elementOf_bind_elementAt? e depth)
    simp only [Option.map_some, helement]

theorem noteWhole_eq (t : TypeSignature) (erased : Option FieldType) (bounds : VariableBounds) :
    noteWhole declared t erased bounds = noteSites declared (t.wholeSites erased) bounds := by
  cases t with
  | primitive p => rfl
  | typeVariable name =>
    have hwhole : erased.bind (·.elementAt? 0) = erased := by
      rcases erased with _ | erased
      · rfl
      · simp [FieldType.elementAt?]
    rw [noteWhole, TypeSignature.wholeSites, TypeSignature.wholeVariable?]
    simp only [hwhole]
    rfl
  | array element =>
    rw [noteWhole, noteWhole_eq element, TypeSignature.wholeSites_array]
  | classType c =>
    rw [noteWhole, noteInClass_eq c]
    rfl

theorem noteAll_eq (types : List TypeSignature) (erased : List FieldType)
    (bounds : VariableBounds) :
    noteAll declared types erased bounds =
      noteSites declared (types.mapIdx fun i t => t.wholeSites erased[i]?).flatten bounds := by
  induction types generalizing erased bounds with
  | nil => rfl
  | cons t types ih =>
    rw [noteAll, noteWhole_eq, ih, List.mapIdx_cons, List.flatten_cons, noteSites_append]
    simp only [List.head?_eq_getElem?, List.getElem?_tail]

theorem foldl_noteInside (types : List TypeSignature) (bounds : VariableBounds) :
    types.foldl (fun bounds t => noteInside declared t bounds) bounds =
      noteSites declared (types.flatMap TypeSignature.insideSites) bounds := by
  induction types generalizing bounds with
  | nil => rfl
  | cons t types ih =>
    rw [List.foldl_cons, ih, noteInside_eq, List.flatMap_cons, noteSites_append]

end

/-! ## The notes of a class -/

theorem noteField_eq (signature descriptor : String) (bounds : VariableBounds) :
    noteField signature descriptor bounds =
      (fieldSites signature descriptor).map (noteSites [] · bounds) := by
  unfold noteField fieldSites
  rcases TypeSignature.parse signature with e | type
  · rfl
  rcases FieldType.parse descriptor with e | erased
  · rfl
  exact congrArg Except.ok (noteWhole_eq type (some erased) bounds)

theorem noteMethod_eq (signature descriptor : String) (bounds : VariableBounds) :
    noteMethod signature descriptor bounds =
      (methodSites signature descriptor).map (noteSites [] · bounds) := by
  unfold noteMethod methodSites
  rcases MethodSignature.parse signature with e | type
  · rfl
  rcases MethodDescriptor.parse descriptor with e | erased
  · rfl
  -- To leave out the method's own variables is to pass them over.
  show Except.ok _ = Except.ok (noteSites [] (List.filter _ _) bounds)
  rw [← noteSites_declared, MethodSignature.sites]
  simp only [noteSites_append, foldl_noteInside, noteAll_eq]
  rcases type.ret with _ | t
  · rfl
  · simp only [noteWhole_eq, Option.toList_some, List.flatMap_singleton]

section

variable {pool : ConstantPool}
  {note : String → String → VariableBounds → Except TransformError VariableBounds}
  {sites : String → String → Except TransformError (List VariableSite)}

theorem noteSignature_eq (h : ∀ signature descriptor bounds,
      note signature descriptor bounds = (sites signature descriptor).map (noteSites [] · bounds))
    (attributes : List Attribute) (descriptor : UInt16) (bounds : VariableBounds) :
    noteSignature pool note attributes descriptor bounds =
      (memberSites pool sites attributes descriptor).map (noteSites [] · bounds) := by
  unfold noteSignature memberSites
  rcases signatureAmong pool attributes with e | _ | signature
  · rfl
  · rfl
  · rcases pool.text descriptor with e | descriptor
    · rfl
    · exact h signature descriptor bounds

/-- To note what one thing after the other holds is to list all places first. -/
theorem foldlM_noteSignature_eq {α : Type} (h : ∀ signature descriptor bounds,
      note signature descriptor bounds = (sites signature descriptor).map (noteSites [] · bounds))
    (attributes : α → List Attribute) (descriptor : α → UInt16) (l : List α)
    (bounds : VariableBounds) :
    l.foldlM (fun bounds a => noteSignature pool note (attributes a) (descriptor a) bounds) bounds =
      (l.mapM fun a => memberSites pool sites (attributes a) (descriptor a)).map
        fun groups => noteSites [] groups.flatten bounds := by
  induction l generalizing bounds with
  | nil => rfl
  | cons a l ih =>
    rw [List.foldlM_cons, List.mapM_cons, noteSignature_eq h]
    rcases memberSites pool sites (attributes a) (descriptor a) with e | first
    · rfl
    · show l.foldlM _ (noteSites [] first bounds) = Except.map _
        (l.mapM (fun a => memberSites pool sites (attributes a) (descriptor a)) >>=
          fun rest => pure (first :: rest))
      rw [ih]
      rcases l.mapM fun a => memberSites pool sites (attributes a) (descriptor a) with e | rest
      · rfl
      · show Except.ok _ = Except.ok (noteSites [] (first ++ rest.flatten) bounds)
        rw [noteSites_append]

end

/-- The repair notes the places of the class one after the other. -/
theorem ClassFile.variableBounds_eq (c : ClassFile) :
    c.variableBounds = c.variableSites.map (noteSites [] · []) := by
  -- Both fail at the first thing that cannot be read, and read the same things in the same order.
  unfold variableBounds variableSites
  rcases AttributeFormat.recordComponents.parseAmong c.pool c.attributes with e | components
  · rfl
  simp only [foldlM_noteSignature_eq noteField_eq, foldlM_noteSignature_eq noteMethod_eq]
  show (Except.map _ (List.mapM _ (components.getD [])) >>= _ : Except _ _) = Except.map _ (
    List.mapM _ (components.getD []) >>= _)
  rcases List.mapM _ (components.getD []) with e | ofComponents
  · rfl
  show (Except.map _ (List.mapM _ c.fields) >>= _ : Except _ _) = Except.map _ (
    List.mapM _ c.fields >>= _)
  rcases List.mapM _ c.fields with e | ofFields
  · rfl
  show Except.map _ (List.mapM _ c.methods) = Except.map _ (List.mapM _ c.methods >>= _)
  rcases List.mapM _ c.methods with e | ofMethods
  · rfl
  refine congrArg Except.ok ?_
  simp only [noteSites_append]

/-! ## What is left of the notes -/

section

variable {names : List String} {name : String}

theorem eraseDups_concat (names : List String) (name : String) :
    (names ++ [name]).eraseDups =
      if name ∈ names then names.eraseDups else names.eraseDups ++ [name] := by
  rw [List.eraseDups_append]
  by_cases hmem : name ∈ names
  · simp [List.removeAll, hmem]
  · simp [List.removeAll, hmem, List.eraseDups_cons]

theorem nodup_eraseDups (names : List String) : names.eraseDups.Nodup := by
  induction names using List.reverseRec with
  | nil => exact List.nodup_nil
  | append_singleton names name ih =>
    rw [eraseDups_concat]
    split_ifs with hmem
    · exact ih
    · rw [← List.concat_eq_append]
      exact ih.concat (mt List.mem_eraseDups.1 hmem)

/-- A note on a variable that is there changes what is known for it. -/
theorem noteVariable_of_mem {bound : Option String} {known : String → Option String}
    (hnodup : names.Nodup) (hmem : name ∈ names) :
    noteVariable [] name bound (names.map fun n => (n, known n)) =
      names.map fun n => (n, (known n).or (if n = name then bound else none)) := by
  unfold noteVariable
  rw [if_neg (by simp)]
  induction names with
  | nil => cases hmem
  | cons first names ih =>
    obtain ⟨hfirst, hnodup⟩ := List.nodup_cons.1 hnodup
    rw [List.map_cons, List.map_cons, upsert]
    by_cases hname : first = name
    · -- No other row has this name.
      subst hname
      have hrest : ∀ n ∈ names, (n, known n) =
          (n, (known n).or (if n = first then bound else none)) := by
        intro n hn
        rw [if_neg (ne_of_mem_of_not_mem hn hfirst), Option.or_none]
      simp only [beq_self_eq_true, if_true, List.map_congr_left hrest]
    · rw [if_neg (by simpa using hname), if_neg hname, Option.or_none,
        ih hnodup ((List.mem_cons.1 hmem).resolve_left (Ne.symm hname))]

/-- A note on a variable that is not there is added. -/
theorem noteVariable_of_not_mem {bound : Option String} {known : String → Option String}
    (hmem : name ∉ names) :
    noteVariable [] name bound (names.map fun n => (n, known n)) =
      (names.map fun n => (n, known n)) ++ [(name, bound)] := by
  unfold noteVariable
  rw [if_neg (by simp)]
  refine upsert_eq_append fun row hrow => ?_
  obtain ⟨n, hn, rfl⟩ := List.mem_map.1 hrow
  simpa using ne_of_mem_of_not_mem hn hmem

end

theorem firstBound_concat (sites : List VariableSite) (site : VariableSite) (name : String) :
    firstBound (sites ++ [site]) name =
      (firstBound sites name).or (if site.1 = name then site.2 else none) := by
  unfold firstBound
  rw [List.findSome?_append, List.findSome?_singleton]

theorem firstBound_eq_none {sites : List VariableSite} {name : String}
    (h : name ∉ sites.map (·.1)) : firstBound sites name = none := by
  refine List.findSome?_eq_none_iff.2 fun site hsite => if_neg fun hname => h ?_
  exact hname ▸ List.mem_map_of_mem hsite

/-- Every variable is noted once, at its first place, with the first class that is known for it. -/
theorem noteSites_eq (sites : List VariableSite) :
    noteSites [] sites [] =
      (sites.map (·.1)).eraseDups.map fun name => (name, firstBound sites name) := by
  induction sites using List.reverseRec with
  | nil => rfl
  | append_singleton sites site ih =>
    obtain ⟨name, bound⟩ := site
    rw [noteSites_append, ih, List.map_append, List.map_singleton, eraseDups_concat]
    show noteVariable [] name bound _ = _
    by_cases hmem : name ∈ sites.map (·.1)
    · rw [if_pos hmem, noteVariable_of_mem (nodup_eraseDups _) (List.mem_eraseDups.2 hmem)]
      simp only [firstBound_concat, eq_comm]
    · have hmem' : name ∉ (sites.map (·.1)).eraseDups := mt List.mem_eraseDups.1 hmem
      rw [if_neg hmem, noteVariable_of_not_mem hmem', List.map_append, List.map_singleton,
        firstBound_concat, firstBound_eq_none hmem, if_pos rfl, Option.none_or]
      congr 1
      refine List.map_congr_left fun n hn => ?_
      rw [firstBound_concat, if_neg (ne_of_mem_of_not_mem hn hmem').symm, Option.or_none]

/-! ## Names of variables -/

mutual

theorem TypeSignature.variables_named (t : TypeSignature) (h : t.WellFormed) :
    ∀ name ∈ t.variables, IsName variableStops name := by
  cases t with
  | primitive p => exact nofun
  | typeVariable name =>
    rintro _ (_ | ⟨_, ⟨⟩⟩)
    exact h
  | array element => exact element.variables_named h
  | classType c => exact c.variables_named h

theorem ClassType.variables_named (c : ClassType) (h : c.WellFormed) :
    ∀ name ∈ c.variables, IsName variableStops name := by
  obtain ⟨outer, inner⟩ := c
  exact List.forall_mem_append.2
    ⟨outer.variables_named h.1, ClassSegment.allVariables_named inner h.2⟩

theorem ClassSegment.variables_named (s : ClassSegment) (h : s.WellFormed) :
    ∀ name ∈ s.variables, IsName variableStops name := by
  obtain ⟨name, args⟩ := s
  exact TypeArgument.allVariables_named args h.2

theorem ClassSegment.allVariables_named (segments : List ClassSegment)
    (h : ClassSegment.AllWellFormed segments) :
    ∀ name ∈ ClassSegment.allVariables segments, IsName variableStops name := by
  cases segments with
  | nil => exact nofun
  | cons s more =>
    exact List.forall_mem_append.2
      ⟨s.variables_named h.1, ClassSegment.allVariables_named more h.2⟩

theorem TypeArgument.variables_named (a : TypeArgument) (h : a.WellFormed) :
    ∀ name ∈ a.variables, IsName variableStops name := by
  cases a with
  | any => exact nofun
  | bounded bound t => exact t.variables_named h.2

theorem TypeArgument.allVariables_named (args : List TypeArgument)
    (h : TypeArgument.AllWellFormed args) :
    ∀ name ∈ TypeArgument.allVariables args, IsName variableStops name := by
  cases args with
  | nil => exact nofun
  | cons a more =>
    exact List.forall_mem_append.2
      ⟨a.variables_named h.1, TypeArgument.allVariables_named more h.2⟩

end

/-- The name of every place is that of a type variable. -/
def SitesNamed (sites : List VariableSite) : Prop :=
  ∀ site ∈ sites, IsName variableStops site.1

theorem SitesNamed.append {sites more : List VariableSite} (h : SitesNamed sites)
    (hmore : SitesNamed more) : SitesNamed (sites ++ more) :=
  List.forall_mem_append.2 ⟨h, hmore⟩

namespace TypeSignature

variable {t : TypeSignature}

theorem map_fst_insideSites (t : TypeSignature) : t.insideSites.map (·.1) = t.variables := by
  rw [insideSites, List.map_map]
  exact List.map_id _

/-- A type that is a variable, or an array of it, holds no other one. -/
theorem variables_of_wholeVariable? (t : TypeSignature) {name : String} {depth : ℕ}
    (h : t.wholeVariable? = some (name, depth)) : t.variables = [name] := by
  cases t with
  | primitive p => cases h
  | typeVariable other =>
    cases h
    rfl
  | array element =>
    obtain ⟨⟨_, depth⟩, helement, heq⟩ := Option.map_eq_some_iff.1 h
    cases heq
    exact variables_of_wholeVariable? element helement
  | classType c => cases h

/-- The places in a whole type are those where its variables are written. -/
theorem map_fst_wholeSites (t : TypeSignature) (erased : Option FieldType) :
    (t.wholeSites erased).map (·.1) = t.variables := by
  unfold wholeSites
  rcases hwhole : t.wholeVariable? with _ | ⟨name, depth⟩
  · exact t.map_fst_insideSites
  · exact (variables_of_wholeVariable? t hwhole).symm

theorem WellFormed.insideSites (h : t.WellFormed) : SitesNamed t.insideSites := fun _ hsite =>
  t.variables_named h _ (t.map_fst_insideSites ▸ List.mem_map_of_mem hsite)

theorem WellFormed.wholeSites (h : t.WellFormed) (erased : Option FieldType) :
    SitesNamed (t.wholeSites erased) := fun _ hsite =>
  t.variables_named h _ (t.map_fst_wholeSites erased ▸ List.mem_map_of_mem hsite)

end TypeSignature

theorem MethodSignature.WellFormed.sites {s : MethodSignature} (h : s.WellFormed)
    (erased : MethodDescriptor) : SitesNamed (s.sites erased) := by
  refine ((SitesNamed.append (.append ?_ ?_) ?_).append ?_)
  · intro site hsite
    obtain ⟨t, ht, hsite⟩ := List.mem_flatMap.1 hsite
    obtain ⟨p, hp, ht⟩ := List.mem_flatMap.1 ht
    exact ((h.typeParams.each p hp).bounds t ht).2.insideSites site hsite
  · intro site hsite
    obtain ⟨group, hgroup, hsite⟩ := List.mem_flatten.1 hsite
    obtain ⟨i, hi, rfl⟩ := List.mem_mapIdx.1 hgroup
    exact (h.params _ (List.getElem_mem hi)).wholeSites _ site hsite
  · intro site hsite
    obtain ⟨t, ht, hsite⟩ := List.mem_flatMap.1 hsite
    exact (h.ret t (Option.mem_toList.1 ht)).wholeSites _ site hsite
  · intro site hsite
    obtain ⟨t, ht, hsite⟩ := List.mem_flatMap.1 hsite
    exact (h.throws t ht).2.insideSites site hsite

section

variable {pool pool' : ConstantPool} {sites : List VariableSite} {signature descriptor : String}

theorem fieldSites_named (h : fieldSites signature descriptor = .ok sites) : SitesNamed sites := by
  obtain ⟨type, htype, h⟩ := except_bind_ok_iff.1 h
  obtain ⟨erased, -, h⟩ := except_bind_ok_iff.1 h
  cases h
  exact (TypeSignature.parse_ok_iff.1 (mapError_ok_iff.1 htype)).1.2.wholeSites _

theorem methodSites_named (h : methodSites signature descriptor = .ok sites) :
    SitesNamed sites := by
  obtain ⟨type, htype, h⟩ := except_bind_ok_iff.1 h
  obtain ⟨erased, -, h⟩ := except_bind_ok_iff.1 h
  cases h
  intro site hsite
  exact (MethodSignature.parse_ok_iff.1 (mapError_ok_iff.1 htype)).1.sites erased site
    (List.mem_of_mem_filter hsite)

variable {read : String → String → Except TransformError (List VariableSite)}
  {attributes attributes' : List Attribute} {descriptor : UInt16}

theorem memberSites_named (hread : ∀ s d l, read s d = .ok l → SitesNamed l)
    (h : memberSites pool read attributes descriptor = .ok sites) : SitesNamed sites := by
  obtain ⟨found, -, h⟩ := except_bind_ok_iff.1 h
  rcases found with _ | signature
  · cases h
    exact nofun
  · obtain ⟨text, -, h⟩ := except_bind_ok_iff.1 h
    exact hread _ _ _ h

/-- Where signatures and descriptors are the same, places are. -/
theorem memberSites_congr (hkeeps : pool.Keeps pool')
    (h : memberSites pool read attributes descriptor = .ok sites) :
    memberSites pool' read attributes descriptor = .ok sites := by
  obtain ⟨found, hfound, h⟩ := except_bind_ok_iff.1 h
  refine except_bind_ok_iff.2 ⟨found, ?_, ?_⟩
  · exact mapError_ok_iff.2 (textAttribute_congr hkeeps rfl (mapError_ok_iff.1 hfound))
  rcases found with _ | signature
  · exact h
  · obtain ⟨text, htext, h⟩ := except_bind_ok_iff.1 h
    exact except_bind_ok_iff.2 ⟨text, mapError_ok_iff.2 (hkeeps.text (mapError_ok_iff.1 htext)), h⟩

end

section

variable {α : Type} {f : α → Except TransformError (List VariableSite)} {l : List α}
  {groups : List (List VariableSite)}

theorem mapM_sites_named (h : l.mapM f = .ok groups)
    (hf : ∀ a sites, f a = .ok sites → SitesNamed sites) : SitesNamed groups.flatten := by
  intro site hsite
  obtain ⟨group, hgroup, hsite⟩ := List.mem_flatten.1 hsite
  obtain ⟨a, -, ha⟩ := exists_left_of_mem (forall₂_of_mapM_ok h) hgroup
  exact hf a group ha site hsite

end

namespace ClassFile

variable {c c' : ClassFile} {sites : List VariableSite}

theorem variableSites_named (h : c.variableSites = .ok sites) : SitesNamed sites := by
  obtain ⟨components, -, h⟩ := except_bind_ok_iff.1 h
  obtain ⟨ofComponents, hcomponents, h⟩ := except_bind_ok_iff.1 h
  obtain ⟨ofFields, hfields, h⟩ := except_bind_ok_iff.1 h
  obtain ⟨ofMethods, hmethods, h⟩ := except_bind_ok_iff.1 h
  cases h
  refine (SitesNamed.append ?_ ?_).append ?_
  · exact mapM_sites_named hcomponents fun _ _ => memberSites_named fun _ _ _ => fieldSites_named
  · exact mapM_sites_named hfields fun _ _ => memberSites_named fun _ _ _ => fieldSites_named
  · exact mapM_sites_named hmethods fun _ _ => memberSites_named fun _ _ _ => methodSites_named

/-- Where components and members are the same, places are. -/
theorem variableSites_congr (hkeeps : c.pool.Keeps c'.pool) (hfields : c'.fields = c.fields)
    (hmethods : c'.methods = c.methods)
    (hcomponents : findAttribute? AttributeFormat.recordComponents.name c'.attributes =
      findAttribute? AttributeFormat.recordComponents.name c.attributes)
    (h : c.variableSites = .ok sites) : c'.variableSites = .ok sites := by
  have hmapM {α : Type} {f g : α → Except TransformError (List VariableSite)} {l : List α}
      {groups : List (List VariableSite)} (hfg : ∀ a sites, f a = .ok sites → g a = .ok sites)
      (h : l.mapM f = .ok groups) : l.mapM g = .ok groups :=
    mapM_ok_of_forall₂ ((forall₂_of_mapM_ok h).imp hfg)
  obtain ⟨components, hfound, h⟩ := except_bind_ok_iff.1 h
  obtain ⟨ofComponents, hofComponents, h⟩ := except_bind_ok_iff.1 h
  obtain ⟨ofFields, hofFields, h⟩ := except_bind_ok_iff.1 h
  obtain ⟨ofMethods, hofMethods, h⟩ := except_bind_ok_iff.1 h
  unfold variableSites
  rw [hfields, hmethods]
  refine except_bind_ok_iff.2 ⟨components, ?_, except_bind_ok_iff.2 ⟨ofComponents, ?_,
    except_bind_ok_iff.2 ⟨ofFields, ?_, except_bind_ok_iff.2 ⟨ofMethods, ?_, h⟩⟩⟩⟩
  · exact mapError_ok_iff.2
      (parseAmong_components_congr hkeeps hcomponents (mapError_ok_iff.1 hfound))
  · exact hmapM (fun _ _ => memberSites_congr hkeeps) hofComponents
  · exact hmapM (fun _ _ => memberSites_congr hkeeps) hofFields
  · exact hmapM (fun _ _ => memberSites_congr hkeeps) hofMethods

end ClassFile

end JarRemap
