import JarRemap.Attribute.Nesting
import JarRemap.Attribute.Table
import JarRemap.Proofs.Codec.ClassFile

/-!
# Attribute bodies in bytes

A format is *exact* if its bodies are spelled in one way. Then parsing a body and encoding what was
parsed gives the body back, and what is encoded parses as itself (`AttributeFormat.parse_ok_iff`).
All formats with rows of fixed fields are exact, and so are those that hold attributes, whose names
have to resolve in the pool.
-/

namespace JarRemap

open Reader

/-! ## Whole bodies -/

theorem Reader.whole_ok_iff {α : Type} {r : Reader α} {write : α → Bytes} {fits : α → Prop}
    (h : r.Exact write fits) {name : String} {info : Bytes} {a : α} :
    Reader.whole name r info = .ok a ↔ fits a ∧ info = write a := by
  rw [← h.runOn_ok_iff, Reader.whole]
  rcases r.runOn info with ⟨e | b, d⟩
  · constructor
    · rintro ⟨⟩
    · rintro ⟨_, ⟨⟩, -⟩
  · rcases hrest : d.rest with _ | ⟨x, rest⟩
    · constructor
      · intro hb
        simp only [hrest, List.isEmpty_nil, if_true, Except.ok.injEq] at hb
        exact ⟨d, hb ▸ rfl, hrest⟩
      · rintro ⟨_, ⟨⟩, -⟩
        simp [hrest]
    · constructor
      · intro hb
        simp [hrest] at hb
      · rintro ⟨_, ⟨⟩, hend⟩
        rw [hrest] at hend
        cases hend

namespace AttributeFormat

variable {α : Type} {format : AttributeFormat α} {fits : ConstantPool → α → Prop}

/-- Bodies of the format are spelled in one way, and these are the ones. -/
def ExactFor (format : AttributeFormat α) (fits : ConstantPool → α → Prop) : Prop :=
  ∀ pool, (format.read pool).Exact format.encode (fits pool)

theorem parse_ok_iff (h : format.ExactFor fits) {pool : ConstantPool} {info : Bytes} {a : α} :
    format.parse pool info = .ok a ↔ fits pool a ∧ info = format.encode a := by
  rw [parse, ← Reader.whole_ok_iff (h pool)]
  rcases Reader.whole format.name (format.read pool) info with e | b
  · constructor <;> rintro ⟨⟩
  · exact Iff.rfl

end AttributeFormat

/-- Rows fit if they can be counted in 16 bits and each of them fits. -/
def RowsFit {α : Type} (fits : α → Prop) (rows : List α) : Prop :=
  rows.length < 65536 ∧ ∀ a ∈ rows, fits a

/-- A row of fixed fields always fits. -/
abbrev anyRow {α : Type} : α → Prop := fun _ => True

theorem Attribute.index_ok_iff {a : Attribute} {i : UInt16} :
    a.index = .ok i ↔ a.info = Bytes.ofUInt16 i := by
  rw [index]
  constructor
  · intro h
    split at h
    case h_1 high low hinfo =>
      obtain rfl := Except.ok.inj h
      rw [hinfo, Bytes.ofUInt16_toUInt16]
    case h_2 => cases h
  · intro h
    rw [h]
    exact congrArg Except.ok (Bytes.toUInt16_ofUInt16 i)

/-! ## Tables -/

theorem InnerClass.read_exact : InnerClass.read.Exact InnerClass.encode anyRow := by
  intro row c d
  simp only [InnerClass.read, bind_ok_iff, u16_exact _ _ _, pure_ok_iff, true_and,
    InnerClass.encode, Cursor.past_append_iff]
  constructor
  · rintro ⟨_, m, h₁, _, n, h₂, _, o, h₃, _, _, h₄, rfl, rfl⟩
    exact ⟨m, h₁, n, h₂, o, h₃, h₄⟩
  · rintro ⟨m, h₁, n, h₂, o, h₃, h₄⟩
    exact ⟨_, m, h₁, _, n, h₂, _, o, h₃, _, d, h₄, rfl, rfl⟩

theorem LocalVariable.read_exact : LocalVariable.read.Exact LocalVariable.encode anyRow := by
  intro row c d
  simp only [LocalVariable.read, bind_ok_iff, u16_exact _ _ _, pure_ok_iff, true_and,
    LocalVariable.encode, Cursor.past_append_iff]
  constructor
  · rintro ⟨_, m, h₁, _, n, h₂, _, o, h₃, _, p, h₄, _, _, h₅, rfl, rfl⟩
    exact ⟨m, h₁, n, h₂, o, h₃, p, h₄, h₅⟩
  · rintro ⟨m, h₁, n, h₂, o, h₃, p, h₄, h₅⟩
    exact ⟨_, m, h₁, _, n, h₂, _, o, h₃, _, p, h₄, _, d, h₅, rfl, rfl⟩

theorem MethodParameter.read_exact : MethodParameter.read.Exact MethodParameter.encode anyRow := by
  intro row c d
  simp only [MethodParameter.read, bind_ok_iff, u16_exact _ _ _, pure_ok_iff, true_and,
    MethodParameter.encode, Cursor.past_append_iff]
  constructor
  · rintro ⟨_, m, h₁, _, _, h₂, rfl, rfl⟩
    exact ⟨m, h₁, h₂⟩
  · rintro ⟨m, h₁, h₂⟩
    exact ⟨_, m, h₁, _, d, h₂, rfl, rfl⟩

theorem BootstrapMethod.read_exact : BootstrapMethod.read.Exact BootstrapMethod.encode
    fun b => RowsFit anyRow b.arguments := by
  intro row c d
  simp only [BootstrapMethod.read, bind_ok_iff, u16_exact _ _ _, u16_exact.rows16 _ _ _,
    pure_ok_iff, true_and, BootstrapMethod.encode, Cursor.past_append_iff (x := Bytes.ofUInt16 _)]
  constructor
  · rintro ⟨_, m, h₁, _, _, ⟨hfits, h₂⟩, rfl, rfl⟩
    exact ⟨hfits, m, h₁, h₂⟩
  · rintro ⟨hfits, m, h₁, h₂⟩
    exact ⟨_, m, h₁, _, d, ⟨hfits, h₂⟩, rfl, rfl⟩

namespace AttributeFormat

theorem innerClasses_exact : innerClasses.ExactFor fun _ => RowsFit anyRow :=
  fun _ => InnerClass.read_exact.rows16

theorem localVariables_exact : localVariables.ExactFor fun _ => RowsFit anyRow :=
  fun _ => LocalVariable.read_exact.rows16

theorem localVariableTypes_exact : localVariableTypes.ExactFor fun _ => RowsFit anyRow :=
  fun _ => LocalVariable.read_exact.rows16

theorem methodParameters_exact :
    methodParameters.ExactFor fun _ rows => rows.length < 256 ∧ ∀ p ∈ rows, anyRow p :=
  fun _ => MethodParameter.read_exact.rows8

theorem bootstrapMethods_exact :
    bootstrapMethods.ExactFor fun _ => RowsFit fun b => RowsFit anyRow b.arguments :=
  fun _ => BootstrapMethod.read_exact.rows16

theorem enclosingMethod_exact : enclosingMethod.ExactFor fun _ => anyRow := by
  intro pool e c d
  simp only [enclosingMethod, bind_ok_iff, u16_exact _ _ _, pure_ok_iff, true_and,
    Cursor.past_append_iff]
  constructor
  · rintro ⟨_, m, h₁, _, _, h₂, rfl, rfl⟩
    exact ⟨m, h₁, h₂⟩
  · rintro ⟨m, h₁, h₂⟩
    exact ⟨_, m, h₁, _, d, h₂, rfl, rfl⟩

end AttributeFormat

/-! ## Attributes that hold attributes -/

theorem ExceptionHandler.read_exact :
    ExceptionHandler.read.Exact ExceptionHandler.encode anyRow := by
  intro row c d
  simp only [ExceptionHandler.read, bind_ok_iff, u16_exact _ _ _, pure_ok_iff, true_and,
    ExceptionHandler.encode, Cursor.past_append_iff]
  constructor
  · rintro ⟨_, m, h₁, _, n, h₂, _, o, h₃, _, _, h₄, rfl, rfl⟩
    exact ⟨m, h₁, n, h₂, o, h₃, h₄⟩
  · rintro ⟨m, h₁, n, h₂, o, h₃, h₄⟩
    exact ⟨_, m, h₁, _, n, h₂, _, o, h₃, _, d, h₄, rfl, rfl⟩

/-- The body of a method can be written and read back. -/
structure CodeBody.Fits (pool : ConstantPool) (body : CodeBody) : Prop where
  code_lt : body.code.length < 4294967296
  handlers_fit : RowsFit anyRow body.handlers
  attributes_fit : Attribute.AllFit pool body.attributes

theorem AttributeFormat.code_exact : AttributeFormat.code.ExactFor CodeBody.Fits := by
  intro pool body c d
  simp only [code, bind_ok_iff (r := u16), u16_exact _ _ _, true_and, count32_bytes_ok_iff]
  simp only [bind_ok_iff, ExceptionHandler.read_exact.rows16 _ _ _, Attribute.readAll_exact _ _ _ _,
    pure_ok_iff, Cursor.past_append_iff]
  constructor
  · rintro ⟨_, m, h₁, _, n, h₂, _, p, hcode, ⟨o, h₃, h₄⟩, _, r, ⟨hhandlers, q, h₅, h₆⟩, _, _,
      ⟨hattributes, h₇⟩, rfl, rfl⟩
    exact ⟨⟨hcode, hhandlers, hattributes⟩, m, h₁, n, h₂, o, h₃, p, h₄, q, h₅, r, h₆, h₇⟩
  · rintro ⟨⟨hcode, hhandlers, hattributes⟩, m, h₁, n, h₂, o, h₃, p, h₄, q, h₅, r, h₆, h₇⟩
    exact ⟨_, m, h₁, _, n, h₂, _, p, hcode, ⟨o, h₃, h₄⟩, _, r, ⟨hhandlers, q, h₅, h₆⟩, _, d,
      ⟨hattributes, h₇⟩, rfl, rfl⟩

/-- The component of a record can be written and read back. -/
def RecordComponent.Fits (pool : ConstantPool) (row : RecordComponent) : Prop :=
  Attribute.AllFit pool row.attributes

theorem RecordComponent.read_exact (pool : ConstantPool) :
    (RecordComponent.read pool).Exact RecordComponent.encode (Fits pool) := by
  intro row c d
  simp only [RecordComponent.read, bind_ok_iff, u16_exact _ _ _, Attribute.readAll_exact _ _ _ _,
    pure_ok_iff, true_and, RecordComponent.encode, Cursor.past_append_iff (x := Bytes.ofUInt16 _)]
  constructor
  · rintro ⟨_, m, h₁, _, n, h₂, _, _, ⟨hfits, h₃⟩, rfl, rfl⟩
    exact ⟨hfits, m, h₁, n, h₂, h₃⟩
  · rintro ⟨hfits, m, h₁, n, h₂, h₃⟩
    exact ⟨_, m, h₁, _, n, h₂, _, d, ⟨hfits, h₃⟩, rfl, rfl⟩

theorem AttributeFormat.recordComponents_exact :
    AttributeFormat.recordComponents.ExactFor fun pool => RowsFit (RecordComponent.Fits pool) :=
  fun pool => (RecordComponent.read_exact pool).rows16

end JarRemap
