import ExprTree.Op.Basic
import ExprTree.Value.Number

/-!
# What the operators compute

The functions behind the operators, on operands that have already been evaluated. Integers wrap
around; floats follow the arithmetic of their width, except that the greater and the smaller of two
floats disregard a NaN, and that division disregards its dividend where the divisor is zero.
-/

set_option autoImplicit false

namespace ExprTree

namespace Connective

/-- The value of the first operand that decides the result alone. -/
def decider : Connective → Bool
  | and | nand | implies => false
  | or | nor => true

/-- The result once the first operand has decided. -/
def verdict : Connective → Bool
  | and | nor => false
  | or | nand | implies => true

/-- The result from the second operand, where the first has not decided. -/
def conclude (c : Connective) (b : Bool) : Bool :=
  match c with
  | and | or | implies => b
  | nand | nor => !b

end Connective

/-- The greater of two floats; of a float and a NaN, the float. -/
def greaterF64 (x y : F64) : F64 :=
  if x.isNaN then y else if x < y then y else x

/-- The smaller of two floats; of a float and a NaN, the float. -/
def smallerF64 (x y : F64) : F64 :=
  if x.isNaN then y else if y < x then y else x

@[inherit_doc greaterF64]
def greaterF32 (x y : F32) : F32 :=
  if x.isNaN then y else if x < y then y else x

@[inherit_doc smallerF64]
def smallerF32 (x y : F32) : F32 :=
  if x.isNaN then y else if y < x then y else x

namespace Arith

def onF64 : Arith → F64 → F64 → F64
  | add, x, y => x + y
  | sub, x, y => x - y
  | mul, x, y => x * y
  | max, x, y => greaterF64 x y
  | min, x, y => smallerF64 x y

def onF32 : Arith → F32 → F32 → F32
  | add, x, y => x + y
  | sub, x, y => x - y
  | mul, x, y => x * y
  | max, x, y => greaterF32 x y
  | min, x, y => smallerF32 x y

def onI64 : Arith → Int64 → Int64 → Int64
  | add, m, n => m + n
  | sub, m, n => m - n
  | mul, m, n => m * n
  | max, m, n => if m < n then n else m
  | min, m, n => if n < m then n else m

def onI32 : Arith → Int32 → Int32 → Int32
  | add, m, n => m + n
  | sub, m, n => m - n
  | mul, m, n => m * n
  | max, m, n => if m < n then n else m
  | min, m, n => if n < m then n else m

def onOperands (a : Arith) : Operands → Number
  | .f64 x y => .f64 (a.onF64 x y)
  | .f32 x y => .f32 (a.onF32 x y)
  | .i64 m n => .i64 (a.onI64 m n)
  | .i32 m n => .i32 (a.onI32 m n)

/-- The operation on two numbers, taken at the wider of their types. -/
def apply (a : Arith) (x y : Number) : Number := a.onOperands (.of x y)

theorem ty_apply (a : Arith) (x y : Number) : (a.apply x y).ty = Max.max x.ty y.ty := by
  cases x <;> cases y <;> rfl

end Arith

namespace Unary

def apply : Unary → Number → Number
  | abs, .f64 x => .f64 x.abs
  | abs, .f32 x => .f32 x.abs
  | abs, .i64 n => .i64 (if n < 0 then -n else n)
  | abs, .i32 n => .i32 (if n < 0 then -n else n)
  | square, .f64 x => .f64 (x * x)
  | square, .f32 x => .f32 (x * x)
  | square, .i64 n => .i64 (n * n)
  | square, .i32 n => .i32 (n * n)

theorem ty_apply (u : Unary) (x : Number) : (u.apply x).ty = x.ty := by
  cases u <;> cases x <;> rfl

end Unary

def RealFn.onFloat : RealFn → Float → Float
  | sqrt, x => x.sqrt
  | exp, x => x.exp
  | ln, x => x.log
  | sin, x => x.sin
  | cos, x => x.cos
  | tan, x => x.tan
  | arcsin, x => x.asin
  | arccos, x => x.acos
  | arctan, x => x.atan
  | sec, x => 1 / x.cos
  | cosec, x => 1 / x.sin
  | cot, x => 1 / x.tan

def RealFn.apply (f : RealFn) (x : F64) : F64 := .ofFloat (f.onFloat x.toFloat)

/-- Numbers of any types are compared as 64-bit floats. -/
def Comparison.apply (c : Comparison) (x y : Number) : Bool :=
  match c with
  | greater => decide (y.toF64 < x.toF64)
  | less => decide (x.toF64 < y.toF64)

/-- The quotient as 64-bit floats, or `fallback` where the divisor is zero. -/
def guardedQuotient (fallback : F64) (x y : Number) : F64 :=
  if y.toF64 == Binary.doubleOfWord 0 then fallback else x.toF64 / y.toF64

end ExprTree
