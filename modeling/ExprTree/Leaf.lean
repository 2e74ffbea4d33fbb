import ExprTree.Value.Text

/-!
# Leaves

Three kinds of leaf. A *literal* is a constant. A *variable* is a named input of a declared type; its
value is not in the tree but in the bindings that an evaluation is given, so that one change of a
binding reaches every occurrence. A *probe* has a prescribed outcome and may set the interrupt flag
of the evaluation that reaches it; it is there to watch what an evaluation does.

Variables and probes have an identity, which copies keep. Two variables that were declared separately
are different even when they have one name.
-/

set_option autoImplicit false

namespace ExprTree

/-- A named input of a declared type; `id` tells it from other variables of its name. -/
structure Variable where
  name : String
  ty : Ty
  id : Nat
deriving DecidableEq

/-- A leaf that fails with `failure` if there is one and else yields `value`. -/
structure Probe where
  name : String
  value : Value
  failure : Option Fault
  interrupts : Bool
  id : Nat
deriving DecidableEq

inductive Leaf where
  | literal (v : Value)
  | var (x : Variable)
  | probe (p : Probe)
deriving DecidableEq

namespace Probe

def outcome (p : Probe) : Except Fault Value :=
  match p.failure with
  | some e => .error e
  | none => .ok p.value

end Probe

namespace Leaf

/-- A literal is identified by its text, the other leaves by their names. -/
def identifier : Leaf → String
  | literal v => v.literalText
  | var x => x.name
  | probe p => p.name

def ty : Leaf → Ty
  | literal v => v.ty
  | var x => x.ty
  | probe p => p.value.ty

/-- A leaf has no children, so it has a type for the empty list only. -/
def resultTy (l : Leaf) : List Ty → Option Ty
  | [] => some l.ty
  | _ :: _ => none

end Leaf

end ExprTree
