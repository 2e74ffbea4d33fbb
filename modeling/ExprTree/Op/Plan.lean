import ExprTree.Op.Compute
import ExprTree.Value.Basic

/-!
# Plans: how an operator evaluates its children

An operator does not receive the values of its children, it asks for them one at a time, and what
it asks for next may depend on what it has seen. A `Plan` is that behaviour as data: an answer, or a
question to one slot and a continuation. The evaluator runs plans without knowing the operators, so
whatever holds of all plans (an interrupt is noticed at each question, a failing child ends the
run) is proved without a case per operator.

A question says what kind of value it `Want`s. The continuation receives the value already taken
apart, so no plan has a branch for a value of the wrong kind.
-/

set_option autoImplicit false

namespace ExprTree

/-- The kind of value that a question asks for. -/
inductive Want where
  | any
  | bool
  | number
deriving DecidableEq, Repr

namespace Want

/-- What a question of this kind is answered with. -/
abbrev Answer : Want → Type
  | any => Value
  | bool => Bool
  | number => Number

/-- The value as an answer, or the complaint of the node that asked. -/
def take (node : String) : (w : Want) → Value → Except Fault w.Answer
  | any, v => .ok v
  | bool, .bool b => .ok b
  | bool, .num n => .error (.wrongType node "bool" (Ty.num n.ty).name)
  | number, .num n => .ok n
  | number, .bool _ => .error (.wrongType node "a numeric type" Ty.bool.name)

def toValue : (w : Want) → w.Answer → Value
  | any, v => v
  | bool, b => .bool b
  | number, n => .num n

theorem take_toValue (node : String) (w : Want) (a : w.Answer) :
    w.take node (w.toValue a) = .ok a := by
  cases w <;> rfl

end Want

/-- What a node does next: give its value, or ask a slot for a value of some kind and go on with
    the answer. -/
inductive Plan where
  | answer (v : Value)
  | ask (slot : Nat) (want : Want) (next : want.Answer → Plan)

/-- The questions of an operator, in order, and what it makes of the answers. -/
def Op.plan : Op → Plan
  | connective c =>
    .ask 0 .bool fun a =>
      if a = c.decider then .answer (.bool c.verdict)
      else .ask 1 .bool fun b => .answer (.bool (c.conclude b))
  | not => .ask 0 .bool fun a => .answer (.bool (!a))
  | xor => .ask 0 .bool fun a => .ask 1 .bool fun b => .answer (.bool (a != b))
  | arith o => .ask 0 .number fun x => .ask 1 .number fun y => .answer (.num (o.apply x y))
  | divide p =>
    .ask 0 .number fun x => .ask 1 .number fun y =>
      .answer (.num (.f64 (guardedQuotient p x y)))
  | unary u => .ask 0 .number fun x => .answer (.num (u.apply x))
  | real f => .ask 0 .number fun x => .answer (.num (.f64 (f.apply x.toF64)))
  | compare c =>
    .ask 0 .number fun x => .ask 1 .number fun y => .answer (.bool (c.apply x y))
  | choose => .ask 0 .bool fun a => .ask (if a then 1 else 2) .any .answer

end ExprTree
