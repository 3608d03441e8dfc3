import JarRemap.Bytes
import JarRemap.Text.ModifiedUtf8

/-!
# Pool entries

One constant of a class file. References to other entries are slot numbers of the same pool.
Floating-point values are kept as their bits, so that equal means identical.
-/

namespace JarRemap

/-- An entry of a constant pool. -/
inductive Constant where
  | utf8 (text : String)
  /-- Well-formed modified UTF-8 with an unpaired surrogate, which is no text, as its bytes. -/
  | rawUtf8 (bytes : Bytes)
  | integer (value : Int32)
  | float (bits : UInt32)
  | long (value : Int64)
  | double (bits : UInt64)
  | classEntry (name : UInt16)
  | string (text : UInt16)
  | fieldRef (owner nameAndType : UInt16)
  | methodRef (owner nameAndType : UInt16)
  | interfaceMethodRef (owner nameAndType : UInt16)
  | nameAndType (name descriptor : UInt16)
  | methodHandle (kind : UInt8) (reference : UInt16)
  | methodType (descriptor : UInt16)
  | dynamic (bootstrap nameAndType : UInt16)
  | invokeDynamic (bootstrap nameAndType : UInt16)
  | module (name : UInt16)
  | package (name : UInt16)
  deriving DecidableEq, Repr

namespace Constant

/-- Whether the entry takes up two slots. -/
def isWide : Constant → Bool
  | .long _ | .double _ => true
  | _ => false

/-- How many slots the entry takes up. -/
def width (c : Constant) : Nat :=
  if c.isWide then 2 else 1

/-- How many bytes of text the entry holds, if it holds text. -/
def textSize? : Constant → Option Nat
  | .utf8 text => some (Text.ModifiedUtf8.size text)
  | .rawUtf8 bytes => some bytes.length
  | _ => none

/-! ## Codes -/

/-- A list of numbers that tells the entry from every other one. Lists are ordered, so that a tree
can be searched for them. -/
def code : Constant → List Nat
  | .utf8 text => 0 :: text.toList.map Char.toNat
  | .rawUtf8 bytes => 1 :: bytes.map UInt8.toNat
  | .integer value => [3, value.toUInt32.toNat]
  | .float bits => [4, bits.toNat]
  | .long value => [5, value.toUInt64.toNat]
  | .double bits => [6, bits.toNat]
  | .classEntry name => [7, name.toNat]
  | .string text => [8, text.toNat]
  | .fieldRef owner nat => [9, owner.toNat, nat.toNat]
  | .methodRef owner nat => [10, owner.toNat, nat.toNat]
  | .interfaceMethodRef owner nat => [11, owner.toNat, nat.toNat]
  | .nameAndType name descriptor => [12, name.toNat, descriptor.toNat]
  | .methodHandle kind reference => [15, kind.toNat, reference.toNat]
  | .methodType descriptor => [16, descriptor.toNat]
  | .dynamic bootstrap nat => [17, bootstrap.toNat, nat.toNat]
  | .invokeDynamic bootstrap nat => [18, bootstrap.toNat, nat.toNat]
  | .module name => [19, name.toNat]
  | .package name => [20, name.toNat]

/-- Entries with the same code are equal. -/
theorem code_inj {c d : Constant} : c.code = d.code ↔ c = d := by
  refine ⟨fun h => ?_, congrArg code⟩
  cases c <;> cases d <;>
    simp_all [code, ← UInt8.toNat_inj, ← UInt16.toNat_inj, ← UInt32.toNat_inj, ← UInt64.toNat_inj]
  case utf8.utf8 =>
    exact String.toList_inj.mp ((List.map_inj_right fun _ _ => Char.toNat_inj.mp).mp h)
  case rawUtf8.rawUtf8 =>
    exact (List.map_inj_right fun _ _ => UInt8.toNat_inj.mp).mp h
  case integer.integer v w =>
    cases v
    cases w
    exact congrArg Int32.ofUInt32 (UInt32.toNat_inj.mp h)
  case long.long v w =>
    cases v
    cases w
    exact congrArg Int64.ofUInt64 (UInt64.toNat_inj.mp h)

end Constant

end JarRemap
