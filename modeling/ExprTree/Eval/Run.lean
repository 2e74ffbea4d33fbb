import ExprTree.Eval.Trail

/-!
# Runs

A `Run` is what there is to say about one evaluation: its outcome, the interrupt flag it leaves, and
its trail. One run follows another by `andThen`: it starts from the outcome and the flag of the
first, its trail comes after that of the first, and it does not take place if the first has failed.
-/

set_option autoImplicit false

namespace ExprTree

structure Run (α : Type) where
  outcome : Except Fault α
  flag : Bool
  trail : Trail

namespace Run

variable {α β : Type}

/-- The run that goes on from the outcome of `r` and from the flag it leaves, unless it failed. -/
def andThen (r : Run α) (next : α → Bool → Run β) : Run β :=
  match r.outcome with
  | .error e => ⟨.error e, r.flag, r.trail⟩
  | .ok a =>
    let s := next a r.flag
    ⟨s.outcome, s.flag, r.trail ++ s.trail⟩

theorem andThen_ok {r : Run α} {a : α} (h : r.outcome = .ok a) (next : α → Bool → Run β) :
    r.andThen next =
      ⟨(next a r.flag).outcome, (next a r.flag).flag, r.trail ++ (next a r.flag).trail⟩ := by
  simp [andThen, h]

theorem andThen_error {r : Run α} {e : Fault} (h : r.outcome = .error e)
    (next : α → Bool → Run β) : r.andThen next = ⟨.error e, r.flag, r.trail⟩ := by
  simp [andThen, h]

end Run

end ExprTree
