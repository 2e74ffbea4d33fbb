import ExprTree.Ty

/-!
# What can go wrong

A tree that cannot be typed is no error: inference then answers with no type. A `Fault` is a
breach of what building or evaluating a tree asks for, and it says what was breached by whom.
`message` is its wording.
-/

set_option autoImplicit false

namespace ExprTree

/-- The causes of a failed construction or evaluation; `node` is always the identifier of the node
    that noticed. -/
inductive Fault where
  | wrongArity (node : String) (expected got : Nat)
  /-- A slot was asked for its value and holds no child. -/
  | nothingBound (node : String) (index : Nat)
  | noSuchSlot (node : String) (index arity : Nat)
  /-- A value had a type that the node cannot take. -/
  | wrongType (node expected got : String)
  /-- A value could not be converted to a number, or not to one of the wanted type. -/
  | notNumeric (got : String)
  | unknownName (name : String)
  | duplicateName (name : String)
  /-- The binding of a variable was left unusable by a writer that failed. -/
  | bindingPoisoned (name : String)
  | interrupted
deriving DecidableEq, Repr

namespace Fault

def message : Fault → String
  | wrongArity node expected got =>
    node ++ " expects " ++ expected.repr ++ " children, got " ++ got.repr
  | nothingBound node index => node ++ " has no child bound at position " ++ index.repr
  | noSuchSlot node index arity =>
    node ++ " has arity " ++ arity.repr ++ ", child index " ++ index.repr ++ " is out of bounds"
  | wrongType node expected got => node ++ ": expected " ++ expected ++ ", got " ++ got
  | notNumeric got => "Expected a numeric value, got " ++ got
  | unknownName name => "Unknown function identifier: " ++ name
  | duplicateName name => "Duplicate function identifier: " ++ name
  | bindingPoisoned name => "Variable binding poisoned: " ++ name
  | interrupted => "Evaluation interrupted"

end Fault

end ExprTree
