import JarRemap.ClassFile.Codec

/-!
# Attribute formats

A format says how the body of one kind of attribute is read and written. Bodies keep slots of the
pool and not texts, so a body that is read and written back gives the same bytes.
-/

namespace JarRemap

/-- How the bodies of the attributes with some name are read and written. Reading may need the pool
for the names of nested attributes. -/
structure AttributeFormat (α : Type) where
  name : String
  read : ConstantPool → Reader α
  encode : α → Bytes

/-- Reads all of `info`. Bytes that are left over are the fault of the attribute `name`. -/
def Reader.whole {α : Type} (name : String) (r : Reader α) (info : Bytes) : Except ClassError α :=
  match r.runOn info with
  | (.error e, _) => .error e
  | (.ok a, cursor) => if cursor.rest.isEmpty then .ok a else .error (.badAttribute name)

/-- The error of a body: one that is cut off is malformed as a whole. -/
def ClassError.ofBody (name : String) : ClassError → ClassError
  | .truncated _ => .badAttribute name
  | e => e

namespace AttributeFormat

variable {α : Type} (format : AttributeFormat α)

/-- Reads a body. -/
def parse (pool : ConstantPool) (info : Bytes) : Except ClassError α :=
  (Reader.whole format.name (format.read pool) info).mapError (ClassError.ofBody format.name)

/-- Reads the first attribute of this format, if there is one. -/
def parseAmong (pool : ConstantPool) (attributes : List Attribute) :
    Except ClassError (Option α) :=
  match findAttribute? format.name attributes with
  | none => .ok none
  | some a => (format.parse pool a.info).map some

end AttributeFormat

end JarRemap
