import Mathlib.Algebra.GroupWithZero.Nat

/-!
# LIR types

The input-level types of `types.rs` and their C-like layout.  Sizes are `u32` and
saturate, so a type too large to describe has the largest size there is.
-/

namespace TrustCg.Lower

/-- The widths of an enum's tag. -/
inductive EnumTagWidth
  | u8
  | u16
  | u32
  | u64
  deriving DecidableEq, Repr

/-- The bytes of a tag. -/
def EnumTagWidth.bytes : EnumTagWidth → ℕ
  | .u8 => 1
  | .u16 => 2
  | .u32 => 4
  | .u64 => 8

/-- `Type`. -/
inductive Ty
  | i8
  | i16
  | i32
  | i64
  | i128
  | f16
  | f32
  | f64
  | b1
  | v128
  | v64
  | struct (fields : List Ty)
  | array (elem : Ty) (count : ℕ)
  | enum (tagWidth : EnumTagWidth) (variants : List (List Ty))
  deriving Repr

/-- `u32::saturating_add`. -/
def saturatingAdd (a b : ℕ) : ℕ := min (a + b) (2 ^ 32 - 1)

/-- `u32::saturating_mul`. -/
def saturatingMul (a b : ℕ) : ℕ := min (a * b) (2 ^ 32 - 1)

/-- The next multiple of `align`. -/
def alignTo (offset align : ℕ) : ℕ :=
  if align ≤ 1 then offset
  else if offset % align = 0 then offset
  else saturatingAdd offset (align - offset % align)

mutual

/-- `Type::align`; a scalar of at most eight bytes is aligned to its size. -/
def Ty.align : Ty → ℕ
  | .v128 => 16
  | .i128 => 16
  | .v64 => 8
  | .struct fields => maxAlign fields
  | .array elem _ => elem.align
  | .enum tagWidth variants => max tagWidth.bytes (payloadAlign variants)
  | .b1 | .i8 => 1
  | .i16 | .f16 => 2
  | .i32 | .f32 => 4
  | .i64 | .f64 => 8

/-- The largest alignment of a list of fields. -/
def maxAlign : List Ty → ℕ
  | [] => 1
  | f :: fs => max f.align (maxAlign fs)

/-- The alignment that `enum_payload_layout` gives. -/
def payloadAlign : List (List Ty) → ℕ
  | [] => 1
  | v :: vs => max (maxAlign v) (payloadAlign vs)

end

mutual

/-- The size of a type. -/
def Ty.bytes : Ty → ℕ
  | .b1 | .i8 => 1
  | .i16 | .f16 => 2
  | .i32 | .f32 => 4
  | .i64 | .f64 | .v64 => 8
  | .i128 | .v128 => 16
  | .struct fields => alignTo (fieldsEnd 0 fields) (maxAlign fields)
  | .array elem count => saturatingMul elem.bytes count
  | .enum tagWidth variants =>
    alignTo
      (saturatingAdd (alignTo tagWidth.bytes (payloadAlign variants)) (payloadBytes variants))
      (max tagWidth.bytes (payloadAlign variants))

/-- The offset after the last of a list of fields. -/
def fieldsEnd (offset : ℕ) : List Ty → ℕ
  | [] => offset
  | f :: fs => fieldsEnd (saturatingAdd (alignTo offset f.align) f.bytes) fs

/-- The size that `enum_payload_layout` gives. -/
def payloadBytes : List (List Ty) → ℕ
  | [] => 0
  | v :: vs => max (alignTo (fieldsEnd 0 v) (maxAlign v)) (payloadBytes vs)

end

example : (Ty.struct [.i8, .i128]).bytes = 32 := by decide
example : (Ty.enum .u8 [[.i8], [.i64, .i8]]).bytes = 24 := by decide

end TrustCg.Lower
