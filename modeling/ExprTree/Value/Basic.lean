import ExprTree.Fault
import ExprTree.Value.Number

/-!
# Values

What an evaluation yields: a truth value or a number. The conversions of this module are those a
caller may ask for by name; they fail with the type that could not be converted. Equality comes in
two kinds: values are *identical* when they are equal as data, and they *agree* when they have one
type and compare as equal, which for floats means that zeros of both signs agree and that nothing
agrees with a NaN.
-/

set_option autoImplicit false

namespace ExprTree

inductive Value where
  | bool (b : Bool)
  | num (n : Number)
deriving DecidableEq

namespace Value

def ty : Value → Ty
  | bool _ => .bool
  | num n => .num n.ty

@[simp] theorem ty_bool (b : Bool) : (bool b).ty = .bool := rfl

@[simp] theorem ty_num (n : Number) : (num n).ty = .num n.ty := rfl

def toBool? : Value → Option Bool
  | bool b => some b
  | num _ => none

def toNumber? : Value → Option Number
  | bool _ => none
  | num n => some n

theorem isSome_toNumber? (v : Value) : v.toNumber?.isSome = v.ty.isNumeric := by
  cases v <;> rfl

def toF64? (v : Value) : Option F64 := v.toNumber?.map Number.toF64

/-- Any integer as a 64-bit integer. -/
def toI64? (v : Value) : Option Int64 := v.toNumber?.bind Number.toI64?

/-- One type, and equal as numbers of that type. -/
def agrees : Value → Value → Bool
  | bool a, bool b => a == b
  | num (.f64 x), num (.f64 y) => x == y
  | num (.f32 x), num (.f32 y) => x == y
  | num (.i64 m), num (.i64 n) => m == n
  | num (.i32 m), num (.i32 n) => m == n
  | _, _ => false

/-- The failure of a conversion that a value of this type does not admit. -/
def notNumeric (v : Value) : Fault := .notNumeric v.ty.name

def toF64 (v : Value) : Except Fault F64 :=
  match v with
  | num n => .ok n.toF64
  | bool _ => .error v.notNumeric

def toF32 (v : Value) : Except Fault F32 :=
  match v with
  | num n => .ok n.toF32
  | bool _ => .error v.notNumeric

def toI64 (v : Value) : Except Fault Int64 :=
  match v.toI64? with
  | some n => .ok n
  | none => .error v.notNumeric

/-- A value taken at a type. A truth value is never converted, and nothing becomes one; the
    complaint then names the type that is not numeric. -/
def convert (v : Value) : Ty → Except Fault Value
  | .bool => .error (.notNumeric Ty.bool.name)
  | .num t =>
    match v.toNumber?.bind (·.convert? t) with
    | some n => .ok (num n)
    | none => .error v.notNumeric

end Value

end ExprTree
