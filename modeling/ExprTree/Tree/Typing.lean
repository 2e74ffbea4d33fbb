import ExprTree.Tree.Basic

/-!
# Type inference

The type of a whole tree, from the leaves up: the types of a node's children are what its own rule is
asked about. A tree with an unbound slot anywhere has no type, and neither has a tree in which some
node refuses the types of its children.
-/

set_option autoImplicit false

namespace ExprTree

mutual

/-- The type that a tree produces, if it is complete and well-typed. -/
def Tree.ty? : Tree → Option Ty
  | .leaf l => some l.ty
  | .node o slots => slots.tys?.bind o.resultTy

def Slots.tys? {n : Nat} : Slots n → Option (List Ty)
  | .nil => some []
  | .unbound _ => none
  | .bound t rest => t.ty?.bind fun ty => rest.tys?.map (ty :: ·)

end

theorem Slots.length_tys? : ∀ {n : Nat} (s : Slots n) {ts : List Ty},
    s.tys? = some ts → ts.length = n
  | _, .nil, ts, h => by simp [tys?] at h; simp [← h]
  | _, .unbound _, ts, h => by simp [tys?] at h
  | _, .bound t rest, ts, h => by
    simp only [tys?, Option.bind_eq_some_iff, Option.map_eq_some_iff] at h
    obtain ⟨_, _, us, hus, rfl⟩ := h
    simp [length_tys? rest hus]

end ExprTree
