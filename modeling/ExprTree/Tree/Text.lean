import ExprTree.Tree.Basic

/-!
# The text of a tree

Trees are written in prefix form: the identifier of the root and, unless it is a leaf, the texts of
its slots in parentheses with a blank between them. An unbound slot is written `_`.
-/

set_option autoImplicit false

namespace ExprTree

mutual

def Tree.text : Tree → String
  | .leaf l => l.identifier
  | .node o slots => o.symbol ++ "(" ++ " ".intercalate slots.texts ++ ")"

def Slots.texts {n : Nat} : Slots n → List String
  | .nil => []
  | .unbound rest => "_" :: rest.texts
  | .bound t rest => t.text :: rest.texts

end

end ExprTree
