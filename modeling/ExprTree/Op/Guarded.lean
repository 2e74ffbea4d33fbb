import ExprTree.Op.Compute
import ExprTree.Value.Basic

/-!
# The operations with their guards

A plan receives its operands as numbers, already taken out of the values that were asked for. This is
the same work on the values themselves, with all that could go wrong in it: two operands without a
common type, a conversion that is refused, a pair of values that an operation has no rule for. On
numbers none of that happens (`Arith.guarded_num`), so the plans can do without.
-/

set_option autoImplicit false

namespace ExprTree

/-- The complaint of an operation about a value that it has no rule for. -/
def Value.unexpected (node : String) (v : Value) : Fault :=
  .wrongType node "a numeric type" v.ty.name

/-- Both values at the widest of their types, and at the 64-bit float if there were none. -/
def Value.promote (v w : Value) : Except Fault (Value × Value) := do
  let target := (Ty.widest [v.ty, w.ty]).getD (.num .f64)
  return (← v.convert target, ← w.convert target)

/-- The operation on a promoted pair. -/
def Arith.onPair (a : Arith) : Value × Value → Except Fault Value
  | (.num (.f64 x), .num (.f64 y)) => .ok (.num (.f64 (a.onF64 x y)))
  | (.num (.f32 x), .num (.f32 y)) => .ok (.num (.f32 (a.onF32 x y)))
  | (.num (.i64 m), .num (.i64 n)) => .ok (.num (.i64 (a.onI64 m n)))
  | (.num (.i32 m), .num (.i32 n)) => .ok (.num (.i32 (a.onI32 m n)))
  | (v, _) => .error (v.unexpected a.symbol)

def Arith.guarded (a : Arith) (v w : Value) : Except Fault Value := do
  a.onPair (← v.promote w)

def Unary.guarded (u : Unary) : Value → Except Fault Value
  | .num x => .ok (.num (u.apply x))
  | v => .error (v.unexpected u.symbol)

def Operands.values : Operands → Value × Value
  | f64 x y => (.num (.f64 x), .num (.f64 y))
  | f32 x y => (.num (.f32 x), .num (.f32 y))
  | i64 m n => (.num (.i64 m), .num (.i64 n))
  | i32 m n => (.num (.i32 m), .num (.i32 n))

/-- **Two numbers always have a wider type**, and both are converted to it. -/
theorem Value.promote_num (x y : Number) :
    Value.promote (.num x) (.num y) = .ok (Operands.of x y).values := by
  cases x <;> cases y <;> rfl

theorem Arith.onPair_values (a : Arith) (xy : Operands) :
    a.onPair xy.values = .ok (.num (a.onOperands xy)) := by
  cases xy <;> rfl

theorem Arith.guarded_num (a : Arith) (x y : Number) :
    a.guarded (.num x) (.num y) = .ok (.num (a.apply x y)) := by
  rw [guarded, Value.promote_num]
  exact a.onPair_values (.of x y)

end ExprTree
