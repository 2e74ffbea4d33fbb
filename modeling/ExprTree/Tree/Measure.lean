import ExprTree.Tree.Basic

/-!
# Length and depth

The *length* of a tree is the number of its nodes, the *depth* the number of steps to the farthest of
them. Unbound slots count for nothing in both: an operator over empty slots is as small as a leaf.
-/

set_option autoImplicit false

namespace ExprTree

mutual

def Tree.length : Tree → Nat
  | .leaf _ => 1
  | .node _ slots => 1 + slots.length

def Slots.length {n : Nat} : Slots n → Nat
  | .nil => 0
  | .unbound rest => rest.length
  | .bound t rest => t.length + rest.length

end

mutual

def Tree.depth : Tree → Nat
  | .leaf _ => 0
  | .node _ slots => slots.height

/-- The number of steps from above a row of slots to the farthest node below it. -/
def Slots.height {n : Nat} : Slots n → Nat
  | .nil => 0
  | .unbound rest => rest.height
  | .bound t rest => max (1 + t.depth) rest.height

end

mutual

/-- The number of unbound slots of a tree. -/
def Tree.gaps : Tree → Nat
  | .leaf _ => 0
  | .node _ slots => slots.gaps

def Slots.gaps {n : Nat} : Slots n → Nat
  | .nil => 0
  | .unbound rest => 1 + rest.gaps
  | .bound t rest => t.gaps + rest.gaps

end

theorem Tree.length_pos (t : Tree) : 0 < t.length := by
  cases t <;> simp only [length] <;> omega

@[simp] theorem Slots.length_cons_none {n : Nat} (s : Slots n) :
    (Slots.cons none s).length = s.length := by
  simp [cons, length]

@[simp] theorem Slots.length_cons_some {n : Nat} (t : Tree) (s : Slots n) :
    (Slots.cons (some t) s).length = t.length + s.length := by
  simp [cons, length]

end ExprTree
