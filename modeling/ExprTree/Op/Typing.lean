import ExprTree.Op.Basic
import ExprTree.Ty

/-!
# The typing rules

`Op.resultTy` is the type an operator has for children of given types. It looks at the types alone,
not at any child, and refuses a list of the wrong length like any other it cannot take.
-/

set_option autoImplicit false

namespace ExprTree

namespace Op

/-- The type of a node of the operator over children of these types. -/
def resultTy (o : Op) (ts : List Ty) : Option Ty :=
  match o with
  | not =>
    match ts with
    | [.bool] => some .bool
    | _ => none
  | connective _ | xor =>
    match ts with
    | [.bool, .bool] => some .bool
    | _ => none
  | arith _ =>
    match ts with
    | [_, _] => Ty.widest ts
    | _ => none
  | divide _ =>
    match ts with
    | [.num _, .num _] => some (.num .f64)
    | _ => none
  | unary _ =>
    match ts with
    | [.num t] => some (.num t)
    | _ => none
  | real _ =>
    match ts with
    | [.num _] => some (.num .f64)
    | _ => none
  | compare _ =>
    match ts with
    | [.num _, .num _] => some .bool
    | _ => none
  | choose =>
    match ts with
    | [.bool, s, t] => if s = t then some s else none
    | _ => none

theorem length_of_resultTy {o : Op} {ts : List Ty} {t : Ty} (h : o.resultTy ts = some t) :
    ts.length = o.arity := by
  cases o <;> simp only [resultTy] at h <;> split at h <;> first | rfl | simp at h

/-- The configuration of a division plays no part in its type. -/
theorem resultTy_divide (p q : F64) (ts : List Ty) :
    (divide p).resultTy ts = (divide q).resultTy ts := rfl

end Op

end ExprTree
