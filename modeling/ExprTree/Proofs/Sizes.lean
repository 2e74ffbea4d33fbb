import Mathlib.Algebra.GroupWithZero.Nat
import Mathlib.Algebra.Order.BigOperators.Group.List
import Mathlib.Algebra.Order.Group.Nat
import ExprTree.Proofs.Replacement

/-!
# Sizes of trees and of edited trees

Length is a sum over the slots of a node and depth a maximum, in which an unbound slot counts for
nothing. So a tree that is edited at a place has the length that it had, less that of what was there
and more that of what is there now (`Tree.length_put`). Depth does not give back what it was made of:
**it is compared with the depth of the tree that has nothing at that place** (`Tree.height_put`).

No operator has more than three slots, which bounds the length of a tree by its depth
(`Tree.length_le`).
-/

set_option autoImplicit false

namespace ExprTree

/-! ## Sizes of rows -/

def slotLength (c : Option Tree) : Nat := c.elim 0 Tree.length

/-- The number of steps from above a slot to the farthest node in it. -/
def slotHeight (c : Option Tree) : Nat := c.elim 0 fun u => 1 + u.depth

namespace Slots

variable {n : Nat}

theorem length_eq_sum {n : Nat} (s : Slots n) : s.length = (s.toList.map slotLength).sum := by
  cases s with
  | nil => simp [length, toList]
  | unbound rest => simp [length, toList, slotLength, length_eq_sum rest]
  | bound u rest => simp [length, toList, slotLength, length_eq_sum rest]

theorem height_le_iff {n : Nat} (s : Slots n) {d : Nat} :
    s.height ≤ d ↔ ∀ c ∈ s.toList, slotHeight c ≤ d := by
  cases s with
  | nil => simp [height, toList]
  | unbound rest => simp [height, toList, slotHeight, height_le_iff rest]
  | bound u rest => simp [height, toList, slotHeight, height_le_iff rest]

theorem toList_set (s : Slots n) (i : Nat) (c : Option Tree) :
    (s.set i c).toList = s.toList.set i c := by
  refine List.ext_getElem? fun j => ?_
  rw [List.getElem?_set, s.length_toList]
  rcases Nat.lt_or_ge j n with hj | hj
  · rw [getElem?_toList_of_lt _ hj, getElem?_toList_of_lt _ hj, get?_set]
    by_cases h : i = j
    · subst h
      rw [if_pos ⟨rfl, hj⟩, if_pos rfl, if_pos hj]
    · rw [if_neg fun h' => h h'.1.symm, if_neg h]
  · rw [List.getElem?_eq_none (by simpa using hj), List.getElem?_eq_none (by simpa using hj)]
    split <;> simp_all

/-- A row around one of its slots, whatever is in it. -/
theorem exists_around (s : Slots n) {i : Nat} (hi : i < n) : ∃ before after,
    s.toList = before ++ s.get? i :: after ∧
      ∀ c, (s.set i c).toList = before ++ c :: after := by
  have hlen : i < s.toList.length := s.length_toList.symm ▸ hi
  refine ⟨s.toList.take i, s.toList.drop (i + 1), ?_, ?_⟩
  · have hget : s.toList[i] = s.get? i := by
      have h := s.getElem?_toList_of_lt hi
      rw [List.getElem?_eq_getElem hlen] at h
      exact Option.some.inj h
    rw [← hget, List.cons_getElem_drop_succ, List.take_append_drop]
  · intro c
    rw [toList_set, List.set_eq_take_append_cons_drop, if_pos hlen]

theorem length_set (s : Slots n) {i : Nat} (hi : i < n) (c : Option Tree) :
    (s.set i c).length + slotLength (s.get? i) = s.length + slotLength c := by
  obtain ⟨before, after, hs, hset⟩ := s.exists_around hi
  rw [length_eq_sum, length_eq_sum, hs, hset]
  simp only [List.map_append, List.map_cons, List.sum_append, List.sum_cons]
  omega

theorem height_set (s : Slots n) {i : Nat} (hi : i < n) (c : Option Tree) :
    (s.set i c).height = max (slotHeight c) (s.set i none).height := by
  obtain ⟨before, after, -, hset⟩ := s.exists_around hi
  refine eq_of_forall_ge_iff fun d => ?_
  rw [height_le_iff, Nat.max_le, height_le_iff, hset, hset]
  simp only [List.forall_mem_append, List.forall_mem_cons]
  constructor
  · rintro ⟨hb, hc, ha⟩
    exact ⟨hc, hb, Nat.zero_le d, ha⟩
  · rintro ⟨hc, hb, -, ha⟩
    exact ⟨hb, hc, ha⟩

end Slots

/-! ## Edits -/

namespace Tree

variable {t s₀ : Tree} {p : Place}

/-- What is put at a place is there afterwards. -/
theorem at?_put (hs : t.at? p = some s₀) (c : Option Tree) :
    (t.put c p).bind (fun t' => t'.at? p) = c := by
  induction p generalizing t with
  | nil => cases c <;> rfl
  | cons i p ih =>
    obtain ⟨o, slots, u, rfl, hu, hbelow⟩ := at?_cons_eq_some_iff.mp hs
    rw [put_node_cons, Option.bind_some, at?_node_cons, Slots.get?_set,
      if_pos ⟨rfl, Slots.lt_of_get? hu⟩, hu]
    exact ih hbelow

/-- **An edit exchanges the length of what was at the place for that of what is put there.** -/
theorem length_put (hs : t.at? p = some s₀) (c : Option Tree) :
    slotLength (t.put c p) + s₀.length = t.length + slotLength c := by
  induction p generalizing t with
  | nil =>
    obtain rfl : t = s₀ := Option.some.inj hs
    exact Nat.add_comm _ _
  | cons i p ih =>
    obtain ⟨o, slots, u, rfl, hu, hbelow⟩ := at?_cons_eq_some_iff.mp hs
    have hrow := slots.length_set (Slots.lt_of_get? hu) (u.put c p)
    rw [hu] at hrow
    rw [put_node_cons, hu, Option.bind_some]
    show length (.node o _) + s₀.length = _
    rw [length, length]
    have hslot : slotLength (some u) = u.length := rfl
    have := ih hbelow
    omega

/-- **After an edit, the farthest node is in what has been put there or outside of it.** -/
theorem height_put (hs : t.at? p = some s₀) (new : Tree) :
    slotHeight (t.put (some new) p) =
      max (1 + (p.length + new.depth)) (slotHeight (t.put none p)) := by
  induction p generalizing t with
  | nil => simp [slotHeight]
  | cons i p ih =>
    obtain ⟨o, slots, u, rfl, hu, hbelow⟩ := at?_cons_eq_some_iff.mp hs
    have hi : i < o.arity := Slots.lt_of_get? hu
    rw [put_node_cons, put_node_cons, hu, Option.bind_some, Option.bind_some]
    show 1 + depth (.node o _) = max _ (1 + depth (.node o _))
    rw [depth, depth, slots.height_set hi (u.put (some new) p), slots.height_set hi (u.put none p),
      ih hbelow, List.length_cons]
    omega

end Tree

/-! ## Length and depth -/

theorem Op.arity_le (o : Op) : o.arity ≤ 3 := by
  cases o <;> simp [arity]

theorem Slots.depth_lt_height {n : Nat} {s : Slots n} {u : Tree} (h : some u ∈ s.toList) :
    u.depth + 1 ≤ s.height := by
  rw [Nat.add_comm]
  exact s.height_le_iff.mp (Nat.le_refl _) (some u) h

/-- There is a node on every level down to the deepest. -/
theorem Tree.depth_lt_length (t : Tree) : t.depth + 1 ≤ t.length := by
  induction t using Tree.byNode with
  | leaf l => simp [depth, length]
  | node o slots ih =>
    have hheight : slots.height ≤ slots.length := by
      rw [Slots.height_le_iff, Slots.length_eq_sum]
      intro c hc
      have hslot : slotHeight c ≤ slotLength c := by
        cases c with
        | none => exact Nat.le_refl 0
        | some u =>
          obtain ⟨i, hu⟩ := Slots.exists_get?_of_mem hc
          rw [slotHeight, Option.elim_some, Nat.add_comm]
          exact ih i u hu
      exact Nat.le_trans hslot (List.le_sum_of_mem (List.mem_map_of_mem hc))
    rw [depth, length]
    omega

/-- There are three times as many nodes at most on a level as on the one above. -/
theorem Tree.length_le (t : Tree) : 2 * t.length + 1 ≤ 3 ^ (t.depth + 1) := by
  induction t using Tree.byNode with
  | leaf l => simp [depth, length]
  | node o slots ih =>
    have hpow : 0 < 3 ^ slots.height := Nat.pow_pos (by decide)
    have hslot : ∀ c ∈ slots.toList, slotLength c ≤ (3 ^ slots.height - 1) / 2 := by
      intro c hc
      cases c with
      | none => exact Nat.zero_le _
      | some u =>
        obtain ⟨i, hu⟩ := Slots.exists_get?_of_mem hc
        have hle : 2 * u.length + 1 ≤ 3 ^ slots.height := Nat.le_trans (ih i u hu)
          (Nat.pow_le_pow_right (by decide) (Slots.depth_lt_height hc))
        rw [slotLength, Option.elim_some]
        omega
    have hsum : slots.length ≤ o.arity * ((3 ^ slots.height - 1) / 2) := by
      have h := List.sum_le_card_nsmul (slots.toList.map slotLength) _
        (List.forall_mem_map.mpr hslot)
      rwa [List.length_map, slots.length_toList, Nat.nsmul_eq_mul, ← slots.length_eq_sum] at h
    have hrow : slots.length ≤ 3 * ((3 ^ slots.height - 1) / 2) :=
      Nat.le_trans hsum (Nat.mul_le_mul_right _ o.arity_le)
    rw [length, depth, Nat.pow_succ]
    omega

/-! ## What an edit does to both -/

/-- **Length and depth of an edited tree.** Let `s₀` be the subtree of `t` at a place below the root.
    The tree without it is shorter by the length of `s₀`. The tree that has `s` there instead is longer
    than that by the length of `s`, and as deep as the deeper of `s`, at its place, and the tree without
    anything there. And of every tree, with unbound slots or without, the length is more than its depth,
    and at most that of a tree of its depth in which every operator has three operands. -/
theorem Tree.sizes_edited (t : Tree) :
    (t.depth + 1 ≤ t.length ∧ t.length ≤ (3 ^ (t.depth + 1) - 1) / 2) ∧
    ∀ (p : Place) (s₀ : Tree), p ≠ [] → t.at? p = some s₀ →
      ∃ e, t.put none p = some e ∧ e.at? p = none ∧ e.length = t.length - s₀.length ∧
        s₀.length ≤ t.length ∧
        ∀ s, ∃ t', t.put (some s) p = some t' ∧ t'.at? p = some s ∧
          t'.length + s₀.length = t.length + s.length ∧
          t'.depth = max (p.length + s.depth) e.depth := by
  refine ⟨⟨t.depth_lt_length, ?_⟩, ?_⟩
  · have := t.length_le
    omega
  · intro p s₀ hp hs
    obtain ⟨i, q, rfl⟩ := List.exists_cons_of_ne_nil hp
    obtain ⟨e, he⟩ : ∃ e, t.put none (i :: q) = some e := ⟨_, rfl⟩
    have hat := at?_put hs none
    have hlength := length_put hs none
    rw [he] at hat hlength
    simp only [slotLength, Option.elim_some, Option.elim_none] at hlength
    refine ⟨e, he, hat, by omega, by omega, ?_⟩
    intro s
    obtain ⟨t', ht'⟩ : ∃ t', t.put (some s) (i :: q) = some t' := ⟨_, rfl⟩
    have hat' := at?_put hs (some s)
    have hlength' := length_put hs (some s)
    have hheight := height_put hs s
    rw [ht'] at hat' hlength' hheight
    rw [he] at hheight
    simp only [slotLength, slotHeight, Option.elim_some] at hlength' hheight
    exact ⟨t', ht', hat', hlength', by omega⟩

/-- The deepest subtree makes room for an operator over empty slots, which is as small as a leaf. -/
theorem Tree.sizes_edited_shallower :
    ∃ t', ((Op.arith .add).call
        #v[(Op.unary .square).call #v[(Op.unary .square).call #v[.leaf (.var ⟨"x", .num .i32, 0⟩)]],
          (Op.unary .abs).call #v[(Op.unary .abs).empty]]).put (some Op.xor.empty) [0, 0] = some t' ∧
      t'.length = 5 ∧ t'.depth = 2 := by
  obtain ⟨e, he, -, -, -, h⟩ := (sizes_edited ((Op.arith .add).call
    #v[(Op.unary .square).call #v[(Op.unary .square).call #v[.leaf (.var ⟨"x", .num .i32, 0⟩)]],
      (Op.unary .abs).call #v[(Op.unary .abs).empty]])).2 [0, 0] _ (by simp) rfl
  obtain ⟨t', ht', -, hlength, hdepth⟩ := h Op.xor.empty
  obtain rfl := Option.some.inj he
  exact ⟨t', ht', Nat.add_right_cancel (m := 2) hlength, hdepth⟩

end ExprTree
