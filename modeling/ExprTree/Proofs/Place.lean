import ExprTree.Eval.Trail
import ExprTree.Tree.Measure
import ExprTree.Tree.Typing

/-!
# Places in trees

Theorems about a whole tree are proved node by node, and a node is known by what is in its slots.
This file supplies that view of the mutual definitions on trees and rows, once for each:

* `Tree.byNode`, the induction: a property of a node may assume it of everything in its slots;
* `Tree.at?`, the subtree at a place, by which the places of a trail refer to the tree;
* `Tree.leaves` and `Tree.ops`, what it is made of;
* `Slots.collect`, what every slot of a row has, such as a type.

Nothing after this file takes a row apart by its constructors.
-/

set_option autoImplicit false

namespace ExprTree

/-! ## Induction -/

mutual

/-- **Induction over trees**: what holds of leaves, and of a node whenever it holds of everything in
    the node's slots, holds of all trees. -/
@[elab_as_elim]
theorem Tree.byNode {motive : Tree → Prop} (leaf : ∀ l, motive (.leaf l))
    (node : ∀ o (slots : Slots o.arity), (∀ i u, slots.get? i = some u → motive u) →
      motive (.node o slots)) : ∀ t, motive t
  | .leaf l => leaf l
  | .node o slots => node o slots (Slots.byNode leaf node slots)

theorem Slots.byNode {motive : Tree → Prop} (leaf : ∀ l, motive (.leaf l))
    (node : ∀ o (slots : Slots o.arity), (∀ i u, slots.get? i = some u → motive u) →
      motive (.node o slots)) : ∀ {n : Nat} (s : Slots n) i u, s.get? i = some u → motive u
  | _, .nil, _, _, h => absurd h (by simp [Slots.get?])
  | _, .unbound _, 0, _, h => absurd h (by simp [Slots.get?])
  | _, .bound t _, 0, u, h => by
    have e : t = u := Option.some.inj h
    exact e ▸ Tree.byNode leaf node t
  | _, .unbound rest, i + 1, u, h => Slots.byNode leaf node rest i u h
  | _, .bound _ rest, i + 1, u, h => Slots.byNode leaf node rest i u h

end

theorem Slots.lt_of_get? {n : Nat} {s : Slots n} {i : Nat} {u : Tree} (h : s.get? i = some u) :
    i < n := by
  rcases Nat.lt_or_ge i n with hi | hi
  · exact hi
  · rw [s.get?_eq_none_of_le hi] at h
    exact absurd h (by simp)

theorem Slots.getElem?_toList_of_lt {n : Nat} (s : Slots n) {i : Nat} (h : i < n) :
    s.toList[i]? = some (s.get? i) := by
  rw [← s.getElem?_toList i, List.getElem?_eq_getElem (s.length_toList.symm ▸ h)]
  rfl

theorem Slots.exists_get?_of_mem {n : Nat} {s : Slots n} {u : Tree} (h : some u ∈ s.toList) :
    ∃ i, s.get? i = some u := by
  obtain ⟨i, hi⟩ := List.mem_iff_getElem?.mp h
  refine ⟨i, ?_⟩
  rw [← s.getElem?_toList, hi]
  rfl

/-- Where no slot is unbound, every one holds a tree, which has no unbound slot either. -/
theorem Slots.get?_of_gaps : ∀ {n : Nat} {s : Slots n}, s.gaps = 0 → ∀ i < n,
    ∃ u, s.get? i = some u ∧ u.gaps = 0
  | _, .nil, _, i, hi => absurd hi (Nat.not_lt_zero i)
  | _, .unbound rest, h, _, _ => absurd h (by simp [gaps])
  | _, .bound u rest, h, 0, _ => by
    rw [gaps, Nat.add_eq_zero_iff] at h
    exact ⟨u, rfl, h.1⟩
  | _, .bound u rest, h, i + 1, hi => by
    rw [gaps, Nat.add_eq_zero_iff] at h
    exact get?_of_gaps h.2 i (Nat.lt_of_succ_lt_succ hi)

/-! ## Subtrees -/

/-- The subtree at a place, if the steps to it all lead into bound slots. -/
def Tree.at? : Tree → Place → Option Tree
  | t, [] => some t
  | t, i :: p => (t.child? i).bind fun u => u.at? p

@[simp] theorem Tree.at?_nil (t : Tree) : t.at? [] = some t := rfl

@[simp] theorem Tree.at?_node_cons (o : Op) (slots : Slots o.arity) (i : Nat) (p : Place) :
    (Tree.node o slots).at? (i :: p) = (slots.get? i).bind fun u => u.at? p := rfl

/-! ## Nodes -/

def Tree.root : Tree → Leaf ⊕ Op
  | .leaf l => .inl l
  | .node o _ => .inr o

mutual

/-- What the nodes of a tree are, from left to right and each before those below it. -/
def Tree.nodes : Tree → List (Leaf ⊕ Op)
  | .leaf l => [.inl l]
  | .node o slots => .inr o :: slots.nodes

def Slots.nodes {n : Nat} : Slots n → List (Leaf ⊕ Op)
  | .nil => []
  | .unbound rest => rest.nodes
  | .bound t rest => t.nodes ++ rest.nodes

end

/-- The leaves of a tree, from left to right. -/
def Tree.leaves (t : Tree) : List Leaf := t.nodes.filterMap Sum.getLeft?

/-- The operators of a tree. -/
def Tree.ops (t : Tree) : List Op := t.nodes.filterMap Sum.getRight?

@[simp] theorem Tree.leaves_leaf (l : Leaf) : (Tree.leaf l).leaves = [l] := by
  simp [leaves, nodes]

theorem Slots.mem_nodes : ∀ {n : Nat} {s : Slots n} {i : Nat} {u : Tree} {x : Leaf ⊕ Op},
    s.get? i = some u → x ∈ u.nodes → x ∈ s.nodes
  | _, .nil, _, _, _, h, _ => absurd h (by simp [get?])
  | _, .unbound _, 0, _, _, h, _ => absurd h (by simp [get?])
  | _, .bound t rest, 0, u, _, h, hx => by
    have e : t = u := Option.some.inj h
    rw [nodes, e]
    exact List.mem_append_left _ hx
  | _, .unbound rest, i + 1, u, _, h, hx => by
    rw [nodes]
    exact mem_nodes (i := i) (u := u) h hx
  | _, .bound t rest, i + 1, u, _, h, hx => by
    rw [nodes]
    exact List.mem_append_right _ (mem_nodes (i := i) (u := u) h hx)

theorem Slots.exists_of_mem_nodes : ∀ {n : Nat} {s : Slots n} {x : Leaf ⊕ Op}, x ∈ s.nodes →
    ∃ i u, s.get? i = some u ∧ x ∈ u.nodes
  | _, .nil, _, h => absurd h (by simp [nodes])
  | _, .unbound rest, _, h => by
    rw [nodes] at h
    obtain ⟨i, u, hu, hx⟩ := exists_of_mem_nodes h
    exact ⟨i + 1, u, hu, hx⟩
  | _, .bound t rest, _, h => by
    rw [nodes, List.mem_append] at h
    rcases h with h | h
    · exact ⟨0, t, rfl, h⟩
    · obtain ⟨i, u, hu, hx⟩ := exists_of_mem_nodes h
      exact ⟨i + 1, u, hu, hx⟩

theorem Tree.mem_leaves_iff {t : Tree} {l : Leaf} : l ∈ t.leaves ↔ .inl l ∈ t.nodes := by
  simp [leaves]

theorem Tree.mem_ops_iff {t : Tree} {o : Op} : o ∈ t.ops ↔ .inr o ∈ t.nodes := by
  simp [ops]

theorem Tree.mem_leaves_node {o : Op} {slots : Slots o.arity} {i : Nat} {u : Tree} {l : Leaf}
    (hu : slots.get? i = some u) (hl : l ∈ u.leaves) : l ∈ (Tree.node o slots).leaves := by
  rw [mem_leaves_iff] at hl ⊢
  rw [nodes]
  exact List.mem_cons_of_mem _ (Slots.mem_nodes hu hl)

/-- Every leaf of a node is in one of its slots. -/
theorem Tree.exists_of_mem_leaves_node {o : Op} {slots : Slots o.arity} {l : Leaf}
    (hl : l ∈ (Tree.node o slots).leaves) : ∃ i u, slots.get? i = some u ∧ l ∈ u.leaves := by
  rw [mem_leaves_iff, nodes, List.mem_cons] at hl
  rcases hl with hl | hl
  · cases hl
  · obtain ⟨i, u, hu, hx⟩ := Slots.exists_of_mem_nodes hl
    exact ⟨i, u, hu, mem_leaves_iff.mpr hx⟩

theorem Tree.mem_ops_node {o o' : Op} {slots : Slots o.arity} {i : Nat} {u : Tree}
    (hu : slots.get? i = some u) (ho : o' ∈ u.ops) : o' ∈ (Tree.node o slots).ops := by
  rw [mem_ops_iff] at ho ⊢
  rw [nodes]
  exact List.mem_cons_of_mem _ (Slots.mem_nodes hu ho)

theorem Tree.root_mem_ops (o : Op) (slots : Slots o.arity) : o ∈ (Tree.node o slots).ops := by
  rw [mem_ops_iff, nodes]
  exact List.mem_cons_self

/-! ## Other leaves -/

mutual

/-- The tree with `f l` in the place of each leaf `l`. -/
def Tree.mapLeaves (f : Leaf → Leaf) : Tree → Tree
  | .leaf l => .leaf (f l)
  | .node o slots => .node o (slots.mapLeaves f)

def Slots.mapLeaves (f : Leaf → Leaf) {n : Nat} : Slots n → Slots n
  | .nil => .nil
  | .unbound rest => .unbound (rest.mapLeaves f)
  | .bound t rest => .bound (t.mapLeaves f) (rest.mapLeaves f)

end

theorem Slots.get?_mapLeaves (f : Leaf → Leaf) : ∀ {n : Nat} (s : Slots n) (i : Nat),
    (s.mapLeaves f).get? i = (s.get? i).map (Tree.mapLeaves f)
  | _, .nil, _ => by simp [mapLeaves, get?]
  | _, .unbound _, 0 => by simp [mapLeaves, get?]
  | _, .bound _ _, 0 => by simp [mapLeaves, get?]
  | _, .unbound rest, i + 1 => by simpa [mapLeaves, get?] using get?_mapLeaves f rest i
  | _, .bound _ rest, i + 1 => by simpa [mapLeaves, get?] using get?_mapLeaves f rest i

mutual

theorem Tree.nodes_mapLeaves (f : Leaf → Leaf) :
    (t : Tree) → (t.mapLeaves f).nodes = t.nodes.map (Sum.map f id)
  | .leaf l => by simp [Tree.mapLeaves, Tree.nodes]
  | .node o slots => by simp [Tree.mapLeaves, Tree.nodes, Slots.nodes_mapLeaves f slots]

theorem Slots.nodes_mapLeaves (f : Leaf → Leaf) {n : Nat} :
    (s : Slots n) → (s.mapLeaves f).nodes = s.nodes.map (Sum.map f id)
  | .nil => by simp [Slots.mapLeaves, Slots.nodes]
  | .unbound rest => by simp [Slots.mapLeaves, Slots.nodes, Slots.nodes_mapLeaves f rest]
  | .bound t rest => by
    simp [Slots.mapLeaves, Slots.nodes, Tree.nodes_mapLeaves f t, Slots.nodes_mapLeaves f rest]

end

theorem Tree.leaves_mapLeaves (f : Leaf → Leaf) (t : Tree) :
    (t.mapLeaves f).leaves = t.leaves.map f := by
  rw [leaves, nodes_mapLeaves, List.filterMap_map, leaves, List.map_filterMap]
  congr 1
  funext x
  cases x <;> rfl

/-! ## What all slots have -/

/-- What `f` says of each child in a row, from left to right, if no slot is unbound and `f` says
    something of all of them. -/
def Slots.collect {α : Type} (f : Tree → Option α) {n : Nat} : Slots n → Option (List α)
  | .nil => some []
  | .unbound _ => none
  | .bound t rest => (f t).bind fun a => (rest.collect f).map (a :: ·)

/-- **A row collects a list exactly when every slot holds a tree that has an entry in it**, and then
    the list is those entries, in order. -/
theorem Slots.collect_eq_some_iff {α : Type} {f : Tree → Option α} :
    ∀ {n : Nat} (s : Slots n) (as : List α),
      s.collect f = some as ↔ as.length = n ∧ ∀ i < n, (s.get? i).bind f = as[i]?
  | _, .nil, as => by
    rw [collect, Option.some.injEq]
    constructor
    · intro h
      subst h
      refine ⟨rfl, ?_⟩
      intro i hi
      exact absurd hi (Nat.not_lt_zero i)
    · rintro ⟨h, _⟩
      exact (List.length_eq_zero_iff.mp h).symm
  | n + 1, .unbound rest, as => by
    rw [collect]
    constructor
    · intro h
      exact absurd h (by simp)
    · rintro ⟨hn, h⟩
      have h0 := h 0 (Nat.succ_pos n)
      rw [List.getElem?_eq_getElem (by omega)] at h0
      exact absurd h0 (by simp [get?])
  | n + 1, .bound t rest, as => by
    rw [collect]
    constructor
    · intro h
      obtain ⟨a, ha, hrest⟩ := Option.bind_eq_some_iff.mp h
      obtain ⟨bs, hbs, rfl⟩ := Option.map_eq_some_iff.mp hrest
      obtain ⟨hn, hslots⟩ := (collect_eq_some_iff rest bs).mp hbs
      refine ⟨by simp [hn], ?_⟩
      intro i hi
      cases i with
      | zero => simpa [get?] using ha
      | succ i => simpa [get?] using hslots i (Nat.lt_of_succ_lt_succ hi)
    · rintro ⟨hn, h⟩
      cases as with
      | nil => exact absurd hn (by simp)
      | cons a bs =>
        have ha : f t = some a := by simpa [get?] using h 0 (Nat.succ_pos n)
        have hbs : rest.collect f = some bs := by
          refine (collect_eq_some_iff rest bs).mpr ⟨by simpa using hn, ?_⟩
          intro i hi
          simpa [get?] using h (i + 1) (Nat.succ_lt_succ hi)
        rw [ha, hbs]
        rfl

theorem Slots.exists_collect {α : Type} {f : Tree → Option α} : ∀ {n : Nat} (s : Slots n),
    (∀ i < n, ∃ a, (s.get? i).bind f = some a) → ∃ as, s.collect f = some as
  | _, .nil, _ => ⟨[], rfl⟩
  | _, .unbound rest, h => by
    obtain ⟨a, ha⟩ := h 0 (Nat.succ_pos _)
    exact absurd ha (by simp [get?])
  | _, .bound t rest, h => by
    obtain ⟨a, ha⟩ := h 0 (Nat.succ_pos _)
    obtain ⟨as, has⟩ := exists_collect rest fun i hi => h (i + 1) (Nat.succ_lt_succ hi)
    have ht : f t = some a := ha
    rw [collect, ht, has]
    exact ⟨a :: as, rfl⟩

theorem Slots.collect_single {α : Type} {f : Tree → Option α} {n : Nat} {s : Slots n} {u : Tree}
    {a : α} (hu : s.get? 0 = some u) (hn : n = 1) (ha : f u = some a) : s.collect f = some [a] := by
  refine (s.collect_eq_some_iff _).mpr ⟨hn.symm, ?_⟩
  intro i hi
  obtain rfl : i = 0 := by omega
  rw [hu]
  exact ha

theorem Slots.collect_pair {α : Type} {f : Tree → Option α} {n : Nat} {s : Slots n} {u w : Tree}
    {a c : α} (hu : s.get? 0 = some u) (hw : s.get? 1 = some w) (hn : n = 2) (ha : f u = some a)
    (hc : f w = some c) : s.collect f = some [a, c] := by
  refine (s.collect_eq_some_iff _).mpr ⟨hn.symm, ?_⟩
  intro i hi
  obtain rfl | rfl : i = 0 ∨ i = 1 := by omega
  · rw [hu]
    exact ha
  · rw [hw]
    exact hc

theorem Slots.tys?_eq_collect {n : Nat} (s : Slots n) : s.tys? = s.collect Tree.ty? := by
  cases s with
  | nil => rw [tys?, collect]
  | unbound rest => rw [tys?, collect]
  | bound t rest => rw [tys?, collect, tys?_eq_collect rest]

theorem Slots.tys?_eq_some_iff {n : Nat} (s : Slots n) (ts : List Ty) :
    s.tys? = some ts ↔ ts.length = n ∧ ∀ i < n, (s.get? i).bind Tree.ty? = ts[i]? := by
  rw [tys?_eq_collect, collect_eq_some_iff]

end ExprTree
