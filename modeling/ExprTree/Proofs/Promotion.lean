import ExprTree.Proofs.Completion
import ExprTree.Proofs.Widest

/-!
# Promotion

Sums, differences, products, extremes, absolute values and squares are taken in the widest type of
their operands. Typing finds it node by node, from the types of two subtrees or of one, and the nodes
above know nothing of the leaves below. All the same **a tree of such operators has the widest type of
its leaves** (`Tree.Promoting.ty?_eq`), however it is put together: the widest type of a list does not
depend on how the list is cut.

A lone leaf is no such tree, as it may be a truth value and has its type then. So the induction is
on number types only (`Tree.ty?_eq_num_iff`), where leaves and nodes follow one law.
-/

set_option autoImplicit false

namespace ExprTree

/-- The operators whose type is the widest of the types of their operands. -/
def Op.promoting : List Op :=
  [.arith .add, .arith .sub, .arith .mul, .arith .max, .arith .min, .unary .abs, .unary .square]

theorem Op.isLazy_of_promoting {o : Op} (h : o ∈ promoting) : o.isLazy = false := by
  cases o with
  | connective | choose => exact absurd h (by simp [promoting])
  | not | xor | arith | divide | unary | real | compare => rfl

/-- The types of the leaves of a tree, from left to right. -/
def Tree.leafTys (t : Tree) : List Ty := t.leaves.map Leaf.ty

/-! ## Leaves of a node -/

variable {u w : Tree} {n : NumTy}

theorem Tree.leafTys_leaf (l : Leaf) : (Tree.leaf l).leafTys = [l.ty] := by
  simp [leafTys]

/-- Where no slot is unbound, there is a leaf. -/
theorem Tree.leafTys_ne_nil {t : Tree} (complete : t.gaps = 0) : t.leafTys ≠ [] := by
  induction t using Tree.byNode with
  | leaf l => simp [leafTys_leaf]
  | node o slots ih =>
    obtain ⟨u, hu, hgaps⟩ := Slots.get?_of_gaps (by rwa [gaps] at complete) 0 o.arity_pos
    obtain ⟨ty, hty⟩ := List.exists_mem_of_ne_nil _ (ih 0 u hu hgaps)
    obtain ⟨l, hl, rfl⟩ := List.mem_map.mp hty
    exact List.ne_nil_of_mem (List.mem_map_of_mem (mem_leaves_node hu hl))

theorem Tree.mem_leafTys_node {o : Op} {slots : Slots o.arity} {ty : Ty} :
    ty ∈ (Tree.node o slots).leafTys ↔ ∃ i u, slots.get? i = some u ∧ ty ∈ u.leafTys := by
  unfold leafTys
  constructor
  · intro h
    obtain ⟨l, hl, rfl⟩ := List.mem_map.mp h
    obtain ⟨i, u, hu, hl⟩ := exists_of_mem_leaves_node hl
    exact ⟨i, u, hu, List.mem_map_of_mem hl⟩
  · intro ⟨i, u, hu, h⟩
    obtain ⟨l, hl, rfl⟩ := List.mem_map.mp h
    exact List.mem_map_of_mem (mem_leaves_node hu hl)

theorem Tree.widest_node_single {o : Op} {slots : Slots o.arity} (hn : o.arity = 1)
    (h0 : slots.get? 0 = some u) :
    Ty.widest (Tree.node o slots).leafTys = Ty.widest u.leafTys := by
  refine Ty.widest_congr fun ty => ?_
  rw [mem_leafTys_node]
  constructor
  · intro ⟨i, v, hv, hty⟩
    have hi : i < 1 := hn ▸ Slots.lt_of_get? hv
    obtain rfl : i = 0 := Nat.lt_one_iff.mp hi
    obtain rfl := Option.some.inj (h0.symm.trans hv)
    exact hty
  · intro hty
    exact ⟨0, u, h0, hty⟩

theorem Tree.widest_node_pair {o : Op} {slots : Slots o.arity} (hn : o.arity = 2)
    (h0 : slots.get? 0 = some u) (h1 : slots.get? 1 = some w) :
    Ty.widest (Tree.node o slots).leafTys = Ty.widest (u.leafTys ++ w.leafTys) := by
  refine Ty.widest_congr fun ty => ?_
  rw [mem_leafTys_node, List.mem_append]
  constructor
  · intro ⟨i, v, hv, hty⟩
    have hi : i < 2 := hn ▸ Slots.lt_of_get? hv
    obtain rfl | rfl : i = 0 ∨ i = 1 := by omega
    · obtain rfl := Option.some.inj (h0.symm.trans hv)
      exact Or.inl hty
    · obtain rfl := Option.some.inj (h1.symm.trans hv)
      exact Or.inr hty
  · intro hty
    rcases hty with hty | hty
    · exact ⟨0, u, h0, hty⟩
    · exact ⟨1, w, h1, hty⟩

/-! ## Types of nodes -/

theorem Tree.ty?_arith_eq_some_iff {a : Arith} {slots : Slots (Op.arith a).arity} {ty : Ty}
    (h0 : slots.get? 0 = some u) (h1 : slots.get? 1 = some w) :
    (Tree.node (.arith a) slots).ty? = some ty ↔
      ∃ l m, u.ty? = some (.num l) ∧ w.ty? = some (.num m) ∧ ty = .num (max l m) := by
  rw [ty?_node_iff]
  constructor
  · intro ⟨ts, hop, hslots⟩
    cases hop with
    | arith a l m =>
      obtain ⟨v, hv, hl⟩ := hslots 0 _ rfl
      obtain ⟨v', hv', hm⟩ := hslots 1 _ rfl
      obtain rfl := Option.some.inj (h0.symm.trans hv)
      obtain rfl := Option.some.inj (h1.symm.trans hv')
      exact ⟨l, m, hl, hm, rfl⟩
  · intro ⟨l, m, hl, hm, hty⟩
    refine ⟨[.num l, .num m], hty ▸ .arith a l m, ?_⟩
    intro i σ hσ
    rcases i with _ | _ | i
    · exact ⟨u, h0, hl.trans hσ⟩
    · exact ⟨w, h1, hm.trans hσ⟩
    · cases hσ

theorem Tree.ty?_unary_eq_some_iff {a : Unary} {slots : Slots (Op.unary a).arity} {ty : Ty}
    (h0 : slots.get? 0 = some u) :
    (Tree.node (.unary a) slots).ty? = some ty ↔ ∃ l, u.ty? = some (.num l) ∧ ty = .num l := by
  rw [ty?_node_iff]
  constructor
  · intro ⟨ts, hop, hslots⟩
    cases hop with
    | unary a l =>
      obtain ⟨v, hv, hl⟩ := hslots 0 _ rfl
      obtain rfl := Option.some.inj (h0.symm.trans hv)
      exact ⟨l, hl, rfl⟩
  · intro ⟨l, hl, hty⟩
    refine ⟨[.num l], hty ▸ .unary a l, ?_⟩
    intro i σ hσ
    rcases i with _ | i
    · exact ⟨u, h0, hl.trans hσ⟩
    · cases hσ

/-! ## Types of trees -/

/-- A complete tree of promoting operators, of which there is one at least. -/
structure Tree.Promoting (t : Tree) : Prop where
  ops : ∀ o ∈ t.ops, o ∈ Op.promoting
  complete : t.gaps = 0
  operates : t.ops ≠ []

/-- **A tree is of a number type exactly if that is the widest type of its leaves.** -/
theorem Tree.ty?_eq_num_iff {t : Tree} (ops : ∀ o ∈ t.ops, o ∈ Op.promoting)
    (complete : t.gaps = 0) :
    t.ty? = some (.num n) ↔ Ty.widest t.leafTys = some (.num n) := by
  induction t using Tree.byNode generalizing n with
  | leaf l => rw [leafTys_leaf, Ty.widest_singleton_eq_some_iff, ty?, Option.some.injEq]
  | node o slots ih =>
    have below : ∀ i < o.arity, ∃ u, slots.get? i = some u ∧ u.leafTys ≠ [] ∧
        ∀ n, u.ty? = some (.num n) ↔ Ty.widest u.leafTys = some (.num n) := by
      intro i hi
      obtain ⟨u, hu, hgaps⟩ := Slots.get?_of_gaps (by rwa [gaps] at complete) i hi
      have hops : ∀ o ∈ u.ops, o ∈ Op.promoting := fun o ho => ops o (mem_ops_node hu ho)
      exact ⟨u, hu, leafTys_ne_nil hgaps, fun n => ih i u hu hops hgaps⟩
    have ho : o ∈ Op.promoting := ops o (root_mem_ops o slots)
    cases o with
    | arith a =>
      obtain ⟨u, h0, hu, ihu⟩ := below 0 Nat.two_pos
      obtain ⟨w, h1, hw, ihw⟩ := below 1 Nat.one_lt_two
      rw [widest_node_pair rfl h0 h1, Ty.widest_append_eq_some_iff hu hw,
        ty?_arith_eq_some_iff h0 h1]
      simp only [ihu, ihw, Ty.num.injEq]
    | unary a =>
      obtain ⟨u, h0, hu, ihu⟩ := below 0 Nat.one_pos
      rw [widest_node_single rfl h0, ty?_unary_eq_some_iff h0]
      simp [ihu]
    | connective | not | xor | divide | real | compare | choose =>
      exact absurd ho (by simp [Op.promoting])

theorem Op.Typed.exists_num {o : Op} {ts : List Ty} {ty : Ty} (h : o.Typed ts ty)
    (ho : o ∈ Op.promoting) : ∃ n, ty = .num n := by
  cases h with
  | arith a l m => exact ⟨_, rfl⟩
  | unary a l => exact ⟨_, rfl⟩
  | connective | not | xor | divide | real | compare | choose =>
    exact absurd ho (by simp [Op.promoting])

/-- Whatever the leaves are, the node at the root makes a number of them or refuses them. -/
theorem Tree.Promoting.exists_num {t : Tree} (h : t.Promoting) {ty : Ty} (hty : t.ty? = some ty) :
    ∃ n, ty = .num n := by
  cases t with
  | leaf l => exact absurd rfl h.operates
  | node o slots =>
    obtain ⟨ts, hop, -⟩ := ty?_node_iff.mp hty
    exact hop.exists_num (h.ops o (root_mem_ops o slots))

/-- **The type of a tree of promoting operators is the widest type of its leaves.** -/
theorem Tree.Promoting.ty?_eq {t : Tree} (h : t.Promoting) : t.ty? = Ty.widest t.leafTys := by
  refine Option.ext fun ty => ?_
  constructor
  · intro hty
    obtain ⟨n, rfl⟩ := h.exists_num hty
    exact (ty?_eq_num_iff h.ops h.complete).mp hty
  · intro hty
    obtain ⟨n, rfl⟩ := Ty.exists_of_widest_eq_some hty
    exact (ty?_eq_num_iff h.ops h.complete).mpr hty

/-! ## Evaluation in a context -/

/-- **The type of a tree of promoting operators is the widest type of its leaves**, from left to
    right: there is none exactly if a leaf is a truth value, and another tree of such operators whose
    leaves have the same types in any order has the same type. A value that the tree evaluates to is
    of that type; and it does evaluate to one if the flag is clear and every leaf is of a number type,
    has a value and does not interrupt. -/
theorem Store.eval_promoted (s : Store) (c : Context) (t : Tree) (h : t.Promoting) :
    t.ty? = Ty.widest t.leafTys ∧
    (t.ty? = none ↔ ∃ l ∈ t.leaves, l.ty = .bool) ∧
    (∀ t' : Tree, t'.Promoting → t'.leafTys.Perm t.leafTys → t'.ty? = t.ty?) ∧
    (∀ v, (s.eval c t).1.outcome = .ok v → Ty.widest t.leafTys = some v.ty) ∧
    (s.isRaised c = false → (∀ l ∈ t.leaves, l.ty.isNumeric ∧ l.Ready s.bindings) →
      ∃ v, (s.eval c t).1.outcome = .ok v ∧ Ty.widest t.leafTys = some v.ty) := by
  have hnone : t.ty? = none ↔ ∃ l ∈ t.leaves, l.ty = .bool := by
    rw [h.ty?_eq, Ty.widest_eq_none_iff, or_iff_right (Tree.leafTys_ne_nil h.complete)]
    exact List.mem_map
  refine ⟨h.ty?_eq, hnone, ?_, ?_, ?_⟩
  · intro t' h' hperm
    rw [h.ty?_eq, h'.ty?_eq]
    exact Ty.widest_congr fun ty => hperm.mem_iff
  · intro v hv
    rw [← h.ty?_eq]
    exact Tree.ty?_of_strict (fun o ho => Op.isLazy_of_promoting (h.ops o ho)) hv
  · intro clear hleaves
    have hsome : t.ty? ≠ none := by
      rw [Ne, hnone]
      intro ⟨l, hl, hbool⟩
      have hnum : l.ty.isNumeric := (hleaves l hl).1
      rw [hbool] at hnum
      cases hnum
    obtain ⟨ty, hty⟩ := Option.ne_none_iff_exists'.mp hsome
    obtain ⟨v, hv, rfl⟩ := Tree.eval_ready hty fun l hl => (hleaves l hl).2
    rw [eval_of_clear clear, ← h.ty?_eq]
    exact ⟨v, hv, hty⟩

/-- The leaves are of three types, and the widest of them is below two other operators. -/
theorem Store.eval_promoted_nested :
    ((Op.arith .max).call #v[.leaf (.literal (.num (.i32 1))),
        (Op.arith .sub).call #v[(Op.unary .abs).call #v[.leaf (.var ⟨"x", .num .f32, 0⟩)],
          .leaf (.literal (.num (.i64 2)))]]).ty? = some (.num .f32) := by
  have h := eval_promoted initial ⟨1, false⟩ ((Op.arith .max).call
    #v[.leaf (.literal (.num (.i32 1))),
      (Op.arith .sub).call #v[(Op.unary .abs).call #v[.leaf (.var ⟨"x", .num .f32, 0⟩)],
        .leaf (.literal (.num (.i64 2)))]]) ⟨by decide, by decide, by decide⟩
  exact h.1.trans rfl

end ExprTree
