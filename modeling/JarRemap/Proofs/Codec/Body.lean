import JarRemap.Proofs.Codec.Annotation

/-!
# Attribute bodies are kept

A reader that is exact and takes all of a body makes a codec without loss (`Lossless`): what is
parsed is written as it was, and a body ends where it says. As an exact reader stops behind the same
bytes whatever follows them, an accepted body cannot begin another one. This holds of every
attribute whose body is looked into, annotations at any depth and lists of attributes included.
-/

namespace JarRemap

open Reader

/-- A way to parse and to write the bodies of an attribute loses nothing: a body that is accepted is
written as it was, every part at its beginning and everything that it is the beginning of is
refused, and what fits is parsed as it was written. -/
structure Lossless {α : Type} (name : String) (parse : Bytes → Except ClassError α)
    (encode : α → Bytes) (fits : α → Prop) : Prop where
  encode_parsed : ∀ info a, parse info = .ok a → encode a = info
  prefix_refused : ∀ front more a, more ≠ [] → parse (front ++ more) = .ok a →
    ∃ e, parse front = .error e
  extension_refused : ∀ info more a, more ≠ [] → parse info = .ok a →
    parse (info ++ more) = .error (.badAttribute name)
  parse_encoded : ∀ a, fits a → parse (encode a) = .ok a

variable {α : Type} {name : String} {write : α → Bytes} {fits : α → Prop}

/-- An exact reader leaves over what follows the bytes that it takes. -/
theorem Reader.whole_append {r : Reader α} (h : r.Exact write fits) {a : α} (hfits : fits a)
    {more : Bytes} (hmore : more ≠ []) :
    Reader.whole name r (write a ++ more) = .error (.badAttribute name) := by
  have hrun : r.runOn (write a ++ more) = (.ok a, ⟨(write a).length, more⟩) :=
    (h a _ _).2 ⟨hfits, rfl, (Nat.zero_add _).symm⟩
  rw [Reader.whole, hrun]
  exact if_neg (by simpa using hmore)

/-- What accepts one spelling for each value that fits, and refuses what goes on behind it, loses
nothing. -/
theorem lossless_of_ok_iff {parse : Bytes → Except ClassError α}
    (hok : ∀ info a, parse info = .ok a ↔ fits a ∧ info = write a)
    (hmore : ∀ a more, fits a → more ≠ [] → parse (write a ++ more) = .error (.badAttribute name)) :
    Lossless name parse write fits := by
  have hextension : ∀ info more a, more ≠ [] → parse info = .ok a →
      parse (info ++ more) = .error (.badAttribute name) := by
    intro info more a hne h
    obtain ⟨hfits, rfl⟩ := (hok info a).1 h
    exact hmore a more hfits hne
  refine ⟨fun info a h => ((hok info a).1 h).2.symm, ?_, hextension,
    fun a hfits => (hok _ a).2 ⟨hfits, rfl⟩⟩
  intro front more a hne h
  rcases hfront : parse front with e | b
  · exact ⟨e, rfl⟩
  · -- Were the front a body as well, the whole would be refused for what follows it.
    rw [hextension front more b hne hfront] at h
    cases h

theorem Reader.whole_lossless {r : Reader α} (h : r.Exact write fits) (name : String) :
    Lossless name (Reader.whole name r) write fits :=
  lossless_of_ok_iff (fun _ _ => Reader.whole_ok_iff h) fun _ _ hfits => Reader.whole_append h hfits

theorem AttributeFormat.ExactFor.lossless {format : AttributeFormat α}
    {fits : ConstantPool → α → Prop} (h : format.ExactFor fits) (pool : ConstantPool) :
    Lossless format.name (format.parse pool) format.encode (fits pool) := by
  refine lossless_of_ok_iff (fun _ _ => format.parse_ok_iff h) fun a more hfits hmore => ?_
  rw [AttributeFormat.parse, Reader.whole_append (h pool) hfits hmore]
  rfl

open AttributeFormat in
/-- Bodies of every kind that is looked into are kept, with any pool. -/
theorem attribute_bodies_lossless (pool : ConstantPool) :
    Lossless "InnerClasses" (innerClasses.parse pool) innerClasses.encode (RowsFit anyRow) ∧
    Lossless "EnclosingMethod" (enclosingMethod.parse pool) enclosingMethod.encode anyRow ∧
    Lossless "Record" (recordComponents.parse pool) recordComponents.encode
      (RowsFit fun row => Attribute.AllFit pool row.attributes) ∧
    Lossless "LocalVariableTable" (localVariables.parse pool) localVariables.encode
      (RowsFit anyRow) ∧
    Lossless "LocalVariableTypeTable" (localVariableTypes.parse pool) localVariableTypes.encode
      (RowsFit anyRow) ∧
    Lossless "MethodParameters" (methodParameters.parse pool) methodParameters.encode
      (fun rows => rows.length < 256) ∧
    Lossless "Code" (code.parse pool) code.encode (CodeBody.Fits pool) ∧
    Lossless "BootstrapMethods" (bootstrapMethods.parse pool) bootstrapMethods.encode
      (RowsFit fun method => RowsFit anyRow method.arguments) ∧
    Lossless "AnnotationDefault" (annotationDefault.parse pool) annotationDefault.encode
      ElementValue.Fits ∧
    Lossless "RuntimeVisibleAnnotations" AnnotationUse.parse AnnotationUse.encodeList
      (RowsFit AnnotationUse.Fits) ∧
    Lossless "RuntimeVisibleParameterAnnotations" AnnotationUse.parseForParameters
      AnnotationUse.encodeForParameters AnnotationUse.ListsFit := by
  have hparameters : methodParameters.ExactFor fun _ rows => rows.length < 256 :=
    fun pool => (methodParameters_exact pool).congr (fun _ => rfl) fun _ => by simp
  exact ⟨innerClasses_exact.lossless pool, enclosingMethod_exact.lossless pool,
    recordComponents_exact.lossless pool, localVariables_exact.lossless pool,
    localVariableTypes_exact.lossless pool, hparameters.lossless pool, code_exact.lossless pool,
    bootstrapMethods_exact.lossless pool, annotationDefault_exact.lossless pool,
    whole_lossless AnnotationUse.readList_exact _, whole_lossless AnnotationUse.readLists_exact _⟩

end JarRemap
