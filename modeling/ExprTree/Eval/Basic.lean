import ExprTree.Eval.Run
import ExprTree.Op.Plan
import ExprTree.State.Bindings
import ExprTree.Tree.Basic

/-!
# Evaluation

A leaf has its outcome at once. An operator runs its plan, and every question of the plan is a
*request* to one of its slots: first the interrupt flag is looked at, then whether the slot is bound,
then the subtree in it is evaluated, and last its value is taken for what the question wants. What is
not requested is not looked at in any way.

An evaluation reads the bindings and never writes them. The flag goes in and comes out: a probe may
set it on the way, and nothing clears it.
-/

set_option autoImplicit false

namespace ExprTree

/-- The run of a leaf. A variable without a value complains of its missing binding as of a missing
    child. -/
def Leaf.eval (b : Bindings) (l : Leaf) (flag : Bool) : Run Value :=
  match l with
  | .literal v => ⟨.ok v, flag, .event (.visit [] l)⟩
  | .var x =>
    match b.get? x with
    | some v => ⟨.ok v, flag, .event (.visit [] l)⟩
    | none => ⟨.error (.nothingBound x.name 0), flag, .event (.visit [] l)⟩
  | .probe p => ⟨p.outcome, flag || p.interrupts, .event (.visit [] l)⟩

/-- The request of a node to one of its slots, which holds a subtree with the evaluation `child`, or
    nothing. -/
def request (node : String) (child : Option (Bool → Run Value)) (slot : Nat) (want : Want)
    (flag : Bool) : Run want.Answer :=
  if flag then ⟨.error .interrupted, flag, .event (.request [slot])⟩
  else
    match child with
    | none => ⟨.error (.nothingBound node slot), flag, .event (.request [slot])⟩
    | some run =>
      let r := run flag
      ⟨r.outcome.bind (want.take node), r.flag,
        .event (.request [slot]) ++ .under slot r.trail⟩

def Plan.run (node : String) (children : Nat → Option (Bool → Run Value)) :
    Plan → Bool → Run Value
  | .answer v, flag => ⟨.ok v, flag, .nil⟩
  | .ask slot want next, flag =>
    (request node (children slot) slot want flag).andThen fun a flag =>
      (next a).run node children flag

mutual

/-- The run of a tree from given bindings and a given flag. -/
def Tree.eval (b : Bindings) : Tree → Bool → Run Value
  | .leaf l, flag => l.eval b flag
  | .node o slots, flag => o.plan.run o.symbol (slots.evals b) flag

def Slots.evals (b : Bindings) {n : Nat} : Slots n → Nat → Option (Bool → Run Value)
  | .nil, _ => none
  | .unbound _, 0 => none
  | .bound t _, 0 => some (t.eval b)
  | .unbound rest, i + 1 => rest.evals b i
  | .bound _ rest, i + 1 => rest.evals b i

end

theorem Slots.evals_eq (b : Bindings) : ∀ {n : Nat} (s : Slots n) (i : Nat),
    s.evals b i = (s.get? i).map (Tree.eval b)
  | _, .nil, _ => by simp [evals, get?]
  | _, .unbound _, 0 => by simp [evals, get?]
  | _, .bound _ _, 0 => by simp [evals, get?]
  | _, .unbound rest, i + 1 => by simpa [evals, get?] using evals_eq b rest i
  | _, .bound _ rest, i + 1 => by simpa [evals, get?] using evals_eq b rest i

theorem Tree.eval_leaf (b : Bindings) (l : Leaf) (flag : Bool) :
    (Tree.leaf l).eval b flag = l.eval b flag := by
  simp [eval]

theorem Tree.eval_node (b : Bindings) (o : Op) (slots : Slots o.arity) (flag : Bool) :
    (Tree.node o slots).eval b flag =
      o.plan.run o.symbol (fun i => (slots.get? i).map (Tree.eval b)) flag := by
  have h : slots.evals b = fun i => (slots.get? i).map (Tree.eval b) :=
    funext fun i => slots.evals_eq b i
  simp [eval, h]

/-- The request of the root of a tree to one of its slots, by a caller that wants a value of some
    kind. -/
def Tree.request (b : Bindings) (t : Tree) (slot : Nat) (want : Want) (flag : Bool) :
    Run want.Answer :=
  ExprTree.request t.identifier ((t.child? slot).map (Tree.eval b)) slot want flag

end ExprTree
