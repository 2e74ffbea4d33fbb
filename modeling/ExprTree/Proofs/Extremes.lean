import ExprTree.Proofs.Modular

/-!
# Extremes of integers

The greater or the lesser of two integers is one of them, so it is in the range of its type and needs
no reduction (`Arith.bmod_onInt`). From this **a tree of extremes over integer leaves comes to its
exact value** (`Tree.exists_extreme`): it widens on the way, but it never wraps, and what it comes to
is in a leaf.

Where all operators are the same, the value is also a bound of the leaves, and there is only one bound
among them. So such trees may be put together in any way and their leaves taken in any order
(`Tree.Extreme.eq_of_perm`). Where both operators occur, that is not so.
-/

set_option autoImplicit false

namespace ExprTree

/-- The operators that give back one of their operands. -/
def Op.extremal : List Op := [.arith .max, .arith .min]

/-! ## The operations over the integers -/

namespace Arith

variable {a : Arith} {k m n : Int}

theorem eq_of_extremal (ha : .arith a ∈ Op.extremal) : a = .max ∨ a = .min := by
  simpa [Op.extremal] using ha

theorem onInt_eq_or (ha : .arith a ∈ Op.extremal) (m n : Int) :
    a.onInt m n = m ∨ a.onInt m n = n := by
  rcases eq_of_extremal ha with rfl | rfl
  · exact max_choice m n
  · exact min_choice m n

theorem onInt_comm (ha : .arith a ∈ Op.extremal) (m n : Int) : a.onInt m n = a.onInt n m := by
  rcases eq_of_extremal ha with rfl | rfl
  · exact Int.max_comm m n
  · exact Int.min_comm m n

/-- What is absorbed by an operand is absorbed by the result. -/
theorem onInt_absorb (ha : .arith a ∈ Op.extremal) (h : a.onInt m k = m) :
    a.onInt (a.onInt m n) k = a.onInt m n := by
  rcases eq_of_extremal ha with rfl | rfl
  · simp only [onInt] at h ⊢
    rw [max_right_comm, h]
  · simp only [onInt] at h ⊢
    rw [min_right_comm, h]

end Arith

/-- Among the numbers of one type there is one at most for an integer. -/
theorem Number.eq_of_toInt? {x y : Number} {m : Int} (hx : x.toInt? = some m)
    (hy : y.toInt? = some m) (hty : x.ty = y.ty) : x = y := by
  rcases cases_of_toInt? hx with ⟨k, rfl, rfl⟩ | ⟨k, rfl, rfl⟩
  · rcases cases_of_toInt? hy with ⟨n, rfl, hn⟩ | ⟨n, rfl, hn⟩
    · rw [Int32.toInt_inj.mp hn]
    · cases hty
  · rcases cases_of_toInt? hy with ⟨n, rfl, hn⟩ | ⟨n, rfl, hn⟩
    · cases hty
    · rw [Int64.toInt_inj.mp hn]

/-! ## Room in the wider type -/

/-- What is in the range of some bits is in the range of more. -/
theorem bmod_of_le {j k : Nat} {m : Int} (h : j ≤ k) (hm : m.bmod (2 ^ j) = m) :
    m.bmod (2 ^ k) = m := by
  have hpow : 2 ^ j ≤ 2 ^ k := Nat.pow_le_pow_right Nat.two_pos h
  have hle := Int.le_bmod (x := m) (Nat.two_pow_pos j)
  have hlt := Int.bmod_lt (x := m) (Nat.two_pow_pos j)
  rw [hm] at hle hlt
  exact Int.bmod_eq_of_le (by omega) (by omega)

theorem NumTy.bits_le_max {s t : NumTy} (hs : s = .i32 ∨ s = .i64) (ht : t = .i32 ∨ t = .i64) :
    s.bits ≤ (max s t).bits ∧ t.bits ≤ (max s t).bits := by
  rcases hs with rfl | rfl <;> rcases ht with rfl | rfl <;> decide

/-- **The result is one of the operands, and its type has room for either.** -/
theorem Arith.bmod_onInt {a : Arith} (ha : .arith a ∈ Op.extremal) {x y : Number} {m n : Int}
    (hx : x.toInt? = some m) (hy : y.toInt? = some n) :
    (a.onInt m n).bmod (2 ^ (a.apply x y).ty.bits) = a.onInt m n := by
  obtain ⟨hxbits, hybits⟩ := NumTy.bits_le_max (Number.ty_of_toInt? hx) (Number.ty_of_toInt? hy)
  rw [a.ty_apply]
  rcases a.onInt_eq_or ha m n with h | h
  · rw [h]
    exact bmod_of_le hxbits (Number.bmod_of_toInt? hx)
  · rw [h]
    exact bmod_of_le hybits (Number.bmod_of_toInt? hy)

/-! ## Trees of extremes -/

/-- A complete tree of extremes over integer leaves, all of which have values. -/
structure Tree.Extremal (b : Bindings) (t : Tree) : Prop where
  ops : ∀ o ∈ t.ops, o ∈ Op.extremal
  complete : t.gaps = 0
  integral : ∀ l ∈ t.leaves, l.ty.isInteger
  ready : ∀ l ∈ t.leaves, l.Ready b

theorem Tree.Extremal.slot {b : Bindings} {o : Op} {slots : Slots o.arity} {i : Nat} {u : Tree}
    (h : (Tree.node o slots).Extremal b) (hu : slots.get? i = some u) (hgaps : u.gaps = 0) :
    u.Extremal b where
  ops o ho := h.ops o (mem_ops_node hu ho)
  complete := hgaps
  integral l hl := h.integral l (mem_leaves_node hu hl)
  ready l hl := h.ready l (mem_leaves_node hu hl)

/-- The tree comes to the number `x`, which is the exact integer `m` and in a leaf. If the operators
    are all the same, it absorbs every leaf. -/
structure Tree.Extreme (b : Bindings) (t : Tree) (x : Number) (m : Int) : Prop where
  integral : t.Integral b x m m
  attained : ∃ l ∈ t.leaves, ∃ v, l.outcome b = .ok v ∧ v.toInt? = some m
  absorbs : ∀ a, .arith a ∈ Op.extremal → (∀ o ∈ t.ops, o = .arith a) →
    ∀ l ∈ t.leaves, ∀ v k, l.outcome b = .ok v → v.toInt? = some k → a.onInt m k = m

variable {b b' : Bindings} {t t' u w : Tree} {x y : Number} {m n : Int}

theorem Tree.Extreme.of_leaf {l : Leaf} (integral : l.ty.isInteger) (ready : l.Ready b) :
    ∃ x m, (Tree.leaf l).Extreme b x m := by
  obtain ⟨x, m, h⟩ := Integral.of_leaf integral ready
  obtain ⟨v, hv⟩ := ready.value
  have hm : v.toInt? = some m := by
    have hexact := h.exact
    rw [integer?, hv] at hexact
    exact hexact
  refine ⟨x, m, h, ⟨l, by simp, v, hv, hm⟩, ?_⟩
  intro a ha _ l' hl v' k hv' hk
  rw [leaves_leaf, List.mem_singleton] at hl
  obtain rfl : v' = v := by
    rw [hl, hv] at hv'
    exact (Except.ok.inj hv').symm
  obtain rfl : k = m := Option.some.inj (hk.symm.trans hm)
  rcases a.onInt_eq_or ha k k with h | h
  · exact h
  · exact h

theorem Tree.Extreme.arith {a : Arith} {slots : Slots (Op.arith a).arity}
    (ha : .arith a ∈ Op.extremal) (h0 : slots.get? 0 = some u) (h1 : slots.get? 1 = some w)
    (hu : u.Extreme b x m) (hw : w.Extreme b y n) :
    (Tree.node (.arith a) slots).Extreme b (a.apply x y) (a.onInt m n) := by
  have hnode := Integral.arith h0 h1 hu.integral hw.integral
  rw [a.bmod_onInt ha hu.integral.toInt hw.integral.toInt] at hnode
  refine ⟨hnode, ?_, ?_⟩
  · rcases a.onInt_eq_or ha m n with h | h
    · rw [h]
      obtain ⟨l, hl, hval⟩ := hu.attained
      exact ⟨l, mem_leaves_node h0 hl, hval⟩
    · rw [h]
      obtain ⟨l, hl, hval⟩ := hw.attained
      exact ⟨l, mem_leaves_node h1 hl, hval⟩
  · intro a' ha' hops l hl v k hv hk
    obtain rfl : a = a' := Op.arith.inj (hops _ (root_mem_ops (.arith a) slots))
    obtain ⟨i, z, hz, hl⟩ := exists_of_mem_leaves_node hl
    have hbelow : ∀ o ∈ z.ops, o = .arith a := fun o ho => hops o (mem_ops_node hz ho)
    have hi : i < 2 := Slots.lt_of_get? hz
    obtain rfl | rfl : i = 0 ∨ i = 1 := by omega
    · obtain rfl := Option.some.inj (h0.symm.trans hz)
      exact a.onInt_absorb ha (hu.absorbs a ha hbelow l hl v k hv hk)
    · obtain rfl := Option.some.inj (h1.symm.trans hz)
      rw [a.onInt_comm ha m n]
      exact a.onInt_absorb ha (hw.absorbs a ha hbelow l hl v k hv hk)

/-- **A tree of extremes over integers comes to its exact value**, which is in one of its leaves. -/
theorem Tree.exists_extreme (h : t.Extremal b) : ∃ x m, t.Extreme b x m := by
  induction t using Tree.byNode with
  | leaf l => exact Extreme.of_leaf (h.integral l (by simp)) (h.ready l (by simp))
  | node o slots ih =>
    have ho : o ∈ Op.extremal := h.ops o (root_mem_ops o slots)
    have below : ∀ i < o.arity, ∃ u x m, slots.get? i = some u ∧ u.Extreme b x m := by
      intro i hi
      have hgaps := h.complete
      rw [gaps] at hgaps
      obtain ⟨u, hu, hgaps⟩ := Slots.get?_of_gaps hgaps i hi
      obtain ⟨x, m, hext⟩ := ih i u hu (h.slot hu hgaps)
      exact ⟨u, x, m, hu, hext⟩
    cases o with
    | arith a =>
      obtain ⟨u, x, m, h0, hu⟩ := below 0 Nat.two_pos
      obtain ⟨w, y, n, h1, hw⟩ := below 1 Nat.one_lt_two
      exact ⟨_, _, Extreme.arith ho h0 h1 hu hw⟩
    | connective | not | xor | divide | unary | real | compare | choose =>
      exact absurd ho (by simp [Op.extremal])

/-! ## Leaves of the same values -/

theorem Tree.Integral.ty_eq_i64_iff {e : Int} (h : t.Integral b x m e) :
    x.ty = .i64 ↔ .num .i64 ∈ t.leaves.map Leaf.ty := by
  constructor
  · intro hx
    obtain ⟨l, hl, hty⟩ := h.mem
    exact List.mem_map.mpr ⟨l, hl, by rw [hty, hx]⟩
  · intro hmem
    obtain ⟨l, hl, hty⟩ := List.mem_map.mp hmem
    exact h.wide l hl hty

/-- The values of leaves tell their types. -/
theorem Tree.mem_leafTy_of_outcomes {ty : Ty} (ready : ∀ l ∈ t.leaves, l.Ready b)
    (hsub : t.leaves.map (Leaf.outcome b) ⊆ t'.leaves.map (Leaf.outcome b'))
    (h : ty ∈ t.leaves.map Leaf.ty) : ty ∈ t'.leaves.map Leaf.ty := by
  obtain ⟨l, hl, rfl⟩ := List.mem_map.mp h
  obtain ⟨v, hv⟩ := (ready l hl).value
  obtain ⟨l', hl', hv'⟩ := List.mem_map.mp (hsub (List.mem_map_of_mem hl))
  have hty : l'.ty = l.ty := by
    rw [← Leaf.ty_of_outcome (hv'.trans hv), Leaf.ty_of_outcome hv]
  exact hty ▸ List.mem_map_of_mem hl'

/-- **Trees of the one operator or the other do not depend on the order of their leaves**, nor on
    how they are put together. -/
theorem Tree.Extreme.eq_of_perm {a : Arith} (ha : .arith a ∈ Op.extremal) (ht : t.Extremal b)
    (ht' : t'.Extremal b') (ops : ∀ o ∈ t.ops, o = .arith a) (ops' : ∀ o ∈ t'.ops, o = .arith a)
    (hperm : (t'.leaves.map (Leaf.outcome b')).Perm (t.leaves.map (Leaf.outcome b)))
    (h : t.Extreme b x m) (h' : t'.Extreme b' y n) : y = x := by
  have hnm : n = m := by
    obtain ⟨l, hl, v, hv, hm⟩ := h.attained
    obtain ⟨l', hl', v', hv', hn⟩ := h'.attained
    -- Either value is in a leaf of the other tree as well.
    obtain ⟨k, hk, hkv⟩ := List.mem_map.mp (hperm.symm.subset (List.mem_map_of_mem hl))
    obtain ⟨k', hk', hkv'⟩ := List.mem_map.mp (hperm.subset (List.mem_map_of_mem hl'))
    calc n = a.onInt n m := (h'.absorbs a ha ops' k hk v m (hkv.trans hv) hm).symm
      _ = a.onInt m n := a.onInt_comm ha n m
      _ = m := h.absorbs a ha ops k' hk' v' n (hkv'.trans hv') hn
  have hwide : y.ty = .i64 ↔ x.ty = .i64 := by
    rw [h.integral.ty_eq_i64_iff, h'.integral.ty_eq_i64_iff]
    exact ⟨mem_leafTy_of_outcomes ht'.ready hperm.subset,
      mem_leafTy_of_outcomes ht.ready hperm.symm.subset⟩
  have hty : y.ty = x.ty := by
    rcases h.integral.ty_eq with hx | hx
    · rcases h'.integral.ty_eq with hy | hy
      · rw [hx, hy]
      · rw [hwide.mp hy, hy]
    · rw [hwide.mpr hx, hx]
  exact Number.eq_of_toInt? (hnm ▸ h'.integral.toInt) h.integral.toInt hty

/-! ## Evaluation in a context -/

theorem Store.eval_of_integral {s : Store} {c : Context} {e : Int}
    (ready : ∀ l ∈ t.leaves, l.Ready s.bindings) (clear : s.isRaised c = false)
    (h : t.Integral s.bindings x m e) : (s.eval c t).1.outcome = .ok (.num x) := by
  obtain ⟨v, hv, heager, -⟩ := Tree.eager_of_ready h.typed ready
  obtain rfl : v = .num x := Option.some.inj (heager.symm.trans h.eager)
  rw [eval_of_clear clear]
  exact hv

/-- **Extremes of integers are exact.** A complete tree of maxima and minima over integer leaves, all
    of which have values, evaluates to its value over the unbounded integers if the flag is clear. That
    is the value of one of its leaves, and it is of the wider of their types. If all the operators are
    maxima, or all are minima, then every tree of them whose leaves have the same values, in any order
    and in whatever store, evaluates to the same. -/
theorem Store.eval_extremal (s : Store) (c : Context) (t : Tree) (h : t.Extremal s.bindings)
    (clear : s.isRaised c = false) :
    ∃ v m, (s.eval c t).1.outcome = .ok v ∧ v.toInt? = some m ∧
      t.integer? s.bindings = some m ∧
      (∃ l ∈ t.leaves, ∃ w, l.outcome s.bindings = .ok w ∧ w.toInt? = some m) ∧
      v.ty = .num (if .num .i64 ∈ t.leaves.map Leaf.ty then .i64 else .i32) ∧
      ∀ a, .arith a ∈ Op.extremal → (∀ o ∈ t.ops, o = .arith a) →
        ∀ (s' : Store) (c' : Context) (t' : Tree), t'.Extremal s'.bindings →
          s'.isRaised c' = false → (∀ o ∈ t'.ops, o = .arith a) →
          (t'.leaves.map (Leaf.outcome s'.bindings)).Perm (t.leaves.map (Leaf.outcome s.bindings)) →
          (s'.eval c' t').1.outcome = .ok v := by
  obtain ⟨x, m, hx⟩ := Tree.exists_extreme h
  refine ⟨.num x, m, eval_of_integral h.ready clear hx.integral, hx.integral.toInt, hx.integral.exact,
    hx.attained, ?_, ?_⟩
  · rw [Value.ty_num]
    split
    · next hmem => rw [hx.integral.ty_eq_i64_iff.mpr hmem]
    · next hmem => rw [hx.integral.ty_eq.resolve_right (mt hx.integral.ty_eq_i64_iff.mp hmem)]
  · intro a ha ops s' c' t' h' clear' ops' hperm
    obtain ⟨y, n, hy⟩ := Tree.exists_extreme h'
    obtain rfl := Tree.Extreme.eq_of_perm ha h h' ops ops' hperm hx hy
    exact eval_of_integral h'.ready clear' hy.integral

/-- The greatest of the leaves is negative and of the narrower type. -/
theorem Store.eval_extremal_negative :
    ∃ v, (initial.eval ⟨0, false⟩ ((Op.arith .max).call #v[.leaf (.literal (.num (.i64 (-3)))),
        (Op.arith .max).call #v[.leaf (.literal (.num (.i32 (-2)))),
          .leaf (.literal (.num (.i64 (-5))))]])).1.outcome = .ok v ∧
      v.toInt? = some (-2) ∧ v.ty = .num .i64 := by
  have hleaves : ∀ l ∈ [Leaf.literal (.num (.i64 (-3))), .literal (.num (.i32 (-2))),
      .literal (.num (.i64 (-5)))], l.ty.isInteger ∧ l.Ready initial.bindings := by
    simp only [List.forall_mem_cons]
    exact ⟨⟨rfl, ⟨_, rfl⟩, rfl⟩, ⟨rfl, ⟨_, rfl⟩, rfl⟩, ⟨rfl, ⟨_, rfl⟩, rfl⟩, nofun⟩
  have h : ((Op.arith .max).call #v[.leaf (.literal (.num (.i64 (-3)))),
      (Op.arith .max).call #v[.leaf (.literal (.num (.i32 (-2)))),
        .leaf (.literal (.num (.i64 (-5))))]]).Extremal initial.bindings :=
    ⟨by decide, by decide, fun l hl => (hleaves l hl).1, fun l hl => (hleaves l hl).2⟩
  obtain ⟨v, m, hv, hm, hexact, -, hty, -⟩ := eval_extremal initial ⟨0, false⟩ _ h rfl
  obtain rfl : m = -2 := (Option.some.inj hexact).symm
  exact ⟨v, hv, hm, hty⟩

end ExprTree
