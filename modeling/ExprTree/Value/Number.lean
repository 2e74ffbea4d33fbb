import ExprTree.Binary.Convert
import ExprTree.Ty

/-!
# Numbers and their common type

A `Number` is a machine number of one of the four number types. Two numbers are combined only after
both have been taken at the wider of their types; `Operands` is such a pair, so that an operation is
defined on four cases and never sees a mixture.
-/

set_option autoImplicit false

namespace ExprTree

inductive Number where
  | f64 (x : F64)
  | f32 (x : F32)
  | i64 (n : Int64)
  | i32 (n : Int32)
deriving DecidableEq

namespace Number

def ty : Number → NumTy
  | f64 _ => .f64
  | f32 _ => .f32
  | i64 _ => .i64
  | i32 _ => .i32

def toF64 : Number → F64
  | f64 x => x
  | f32 x => Binary.widen x
  | i64 n => Binary.doubleOfInt n.toInt
  | i32 n => Binary.doubleOfInt n.toInt

/-- The nearest 32-bit float, from an integer too in a single rounding. -/
def toF32 : Number → F32
  | f64 x => Binary.narrow x
  | f32 x => x
  | i64 n => Binary.singleOfInt n.toInt
  | i32 n => Binary.singleOfInt n.toInt

/-- The 64-bit integer that an integer is. A float is not taken for one, not even a whole one. -/
def toI64? : Number → Option Int64
  | i64 n => some n
  | i32 n => some n.toInt64
  | f64 _ | f32 _ => none

/-- The number taken at a type, where that type has room for its kind: floats do not become
    integers, and only a 32-bit integer is a 32-bit integer. -/
def convert? (x : Number) : NumTy → Option Number
  | .f64 => some (f64 x.toF64)
  | .f32 => some (f32 x.toF32)
  | .i64 => x.toI64?.map i64
  | .i32 =>
    match x with
    | i32 n => some (i32 n)
    | _ => none

/-- Every type up to the number's own width or beyond takes it, and then it is of that type. -/
theorem ty_of_convert? {x y : Number} {t : NumTy} (h : x.convert? t = some y) : y.ty = t := by
  cases t <;> cases x <;> simp [convert?, toI64?] at h <;> subst h <;> rfl

end Number

inductive Operands where
  | f64 (x y : F64)
  | f32 (x y : F32)
  | i64 (m n : Int64)
  | i32 (m n : Int32)
deriving DecidableEq

namespace Operands

def ty : Operands → NumTy
  | f64 .. => .f64
  | f32 .. => .f32
  | i64 .. => .i64
  | i32 .. => .i32

/-- Two numbers, both at the wider of their types. -/
def of : Number → Number → Operands
  | .f64 x, b => f64 x b.toF64
  | a, .f64 y => f64 a.toF64 y
  | .f32 x, b => f32 x b.toF32
  | a, .f32 y => f32 a.toF32 y
  | .i64 m, .i64 n => i64 m n
  | .i64 m, .i32 n => i64 m n.toInt64
  | .i32 m, .i64 n => i64 m.toInt64 n
  | .i32 m, .i32 n => i32 m n

theorem ty_of (a b : Number) : (of a b).ty = max a.ty b.ty := by
  cases a <;> cases b <;> rfl

end Operands

end ExprTree
