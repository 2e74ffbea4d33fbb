import ExprTree.Tree.Basic

/-!
# Copies

A copy of a tree is built anew: every operator is instantiated again, its configuration kept, and
gets copies of the children of the one it replaces. Leaves are shared, so a copy reads the bindings
that the first tree reads. As trees are values, a copy built in this way is the tree (`copy_eq`).
-/

set_option autoImplicit false

namespace ExprTree

mutual

def Tree.copy : Tree → Tree
  | .leaf l => .leaf l
  | .node o slots => o.empty.fill slots.copies

def Slots.copies {n : Nat} : Slots n → Slots n
  | .nil => .nil
  | .unbound rest => .unbound rest.copies
  | .bound t rest => .bound t.copy rest.copies

end

mutual

theorem Tree.copy_eq : (t : Tree) → t.copy = t
  | .leaf l => by simp [Tree.copy]
  | .node o slots => by
    simp only [Tree.copy, Op.empty, Tree.fill]
    rw [Slots.copies_eq slots]

theorem Slots.copies_eq {n : Nat} : (s : Slots n) → s.copies = s
  | .nil => by simp [Slots.copies]
  | .unbound rest => by simp [Slots.copies, Slots.copies_eq rest]
  | .bound t rest => by simp [Slots.copies, Tree.copy_eq t, Slots.copies_eq rest]

end

end ExprTree
