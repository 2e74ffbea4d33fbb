import Mathlib.Data.Int.ModEq
import ExprTree.Proofs.Eager
import ExprTree.Proofs.Widest

/-!
# Integer arithmetic is modular

The numbers of an integer type are residues, and sum, difference, product and square of residues are
those of the integers. `Tree.integer?` is the value of a tree over the unbounded integers, and
**a tree of ring operations over integer leaves comes to that value up to a multiple of a power of two**
(`Tree.exists_residue`).

Which power is a matter of the leaves. A subtree over 32-bit leaves wraps at 32 bits and is taken at 64
bits only then, so in a tree of mixed leaves no more than the lower 32 bits can be right. Where all
leaves have one type, the value is the one residue in the range of that type.
-/

set_option autoImplicit false

namespace ExprTree

/-! ## Numbers as integers -/

/-- Among the integer types the one of 64 bits is the widest. -/
theorem NumTy.max_i64_left {t : NumTy} (h : t = .i32 ∨ t = .i64) : max .i64 t = .i64 := by
  rcases h with rfl | rfl
  · rfl
  · rfl

theorem NumTy.max_i64_right {t : NumTy} (h : t = .i32 ∨ t = .i64) : max t .i64 = .i64 := by
  rcases h with rfl | rfl
  · rfl
  · rfl

/-- The integer that a number of an integer type is. -/
def Number.toInt? : Number → Option Int
  | i64 n => some n.toInt
  | i32 n => some n.toInt
  | f64 _ | f32 _ => none

def Value.toInt? (v : Value) : Option Int := v.toNumber?.bind Number.toInt?

def NumTy.bits : NumTy → Nat
  | i32 | f32 => 32
  | i64 | f64 => 64

theorem Number.cases_of_toInt? {x : Number} {m : Int} (h : x.toInt? = some m) :
    (∃ n : Int32, x = .i32 n ∧ m = n.toInt) ∨ ∃ n : Int64, x = .i64 n ∧ m = n.toInt := by
  cases x with
  | f64 x => cases h
  | f32 x => cases h
  | i64 n => exact Or.inr ⟨n, rfl, (Option.some.inj h).symm⟩
  | i32 n => exact Or.inl ⟨n, rfl, (Option.some.inj h).symm⟩

theorem Number.ty_of_toInt? {x : Number} {m : Int} (h : x.toInt? = some m) :
    x.ty = .i32 ∨ x.ty = .i64 := by
  rcases cases_of_toInt? h with ⟨n, rfl, -⟩ | ⟨n, rfl, -⟩
  · exact Or.inl rfl
  · exact Or.inr rfl

/-- A number is the residue of itself in the range of its type. -/
theorem Number.bmod_of_toInt? {x : Number} {m : Int} (h : x.toInt? = some m) :
    m.bmod (2 ^ x.ty.bits) = m := by
  rcases cases_of_toInt? h with ⟨n, rfl, rfl⟩ | ⟨n, rfl, rfl⟩
  · exact n.toInt_bmod
  · exact n.toInt_bmod

/-! ## The operations over the integers -/

def Arith.onInt : Arith → Int → Int → Int
  | add, m, n => m + n
  | sub, m, n => m - n
  | mul, m, n => m * n
  | max, m, n => Max.max m n
  | min, m, n => Min.min m n

def Unary.onInt : Unary → Int → Int
  | abs, m => m.natAbs
  | square, m => m * m

theorem Arith.toInt_onI64 (a : Arith) (m n : Int64) :
    (a.onI64 m n).toInt = (a.onInt m.toInt n.toInt).bmod (2 ^ 64) := by
  cases a with
  | add => exact Int64.toInt_add m n
  | sub => exact Int64.toInt_sub m n
  | mul => exact Int64.toInt_mul m n
  | max =>
    simp only [onI64, onInt, Int64.lt_iff_toInt_lt]
    split
    · rw [Int.max_eq_right (by omega)]
      exact n.toInt_bmod.symm
    · rw [Int.max_eq_left (by omega)]
      exact m.toInt_bmod.symm
  | min =>
    simp only [onI64, onInt, Int64.lt_iff_toInt_lt]
    split
    · rw [Int.min_eq_right (by omega)]
      exact n.toInt_bmod.symm
    · rw [Int.min_eq_left (by omega)]
      exact m.toInt_bmod.symm

theorem Arith.toInt_onI32 (a : Arith) (m n : Int32) :
    (a.onI32 m n).toInt = (a.onInt m.toInt n.toInt).bmod (2 ^ 32) := by
  cases a with
  | add => exact Int32.toInt_add m n
  | sub => exact Int32.toInt_sub m n
  | mul => exact Int32.toInt_mul m n
  | max =>
    simp only [onI32, onInt, Int32.lt_iff_toInt_lt]
    split
    · rw [Int.max_eq_right (by omega)]
      exact n.toInt_bmod.symm
    · rw [Int.max_eq_left (by omega)]
      exact m.toInt_bmod.symm
  | min =>
    simp only [onI32, onInt, Int32.lt_iff_toInt_lt]
    split
    · rw [Int.min_eq_right (by omega)]
      exact n.toInt_bmod.symm
    · rw [Int.min_eq_left (by omega)]
      exact m.toInt_bmod.symm

/-- **An operation on two integers is the exact one, reduced to the range of the wider type.** -/
theorem Arith.toInt?_apply (a : Arith) {x y : Number} {m n : Int} (hx : x.toInt? = some m)
    (hy : y.toInt? = some n) :
    (a.apply x y).toInt? = some ((a.onInt m n).bmod (2 ^ (a.apply x y).ty.bits)) := by
  rcases Number.cases_of_toInt? hx with ⟨m, rfl, rfl⟩ | ⟨m, rfl, rfl⟩ <;>
    rcases Number.cases_of_toInt? hy with ⟨n, rfl, rfl⟩ | ⟨n, rfl, rfl⟩
  · exact congrArg some (a.toInt_onI32 m n)
  · rw [← Int32.toInt_toInt64 m]
    exact congrArg some (a.toInt_onI64 m.toInt64 n)
  · rw [← Int32.toInt_toInt64 n]
    exact congrArg some (a.toInt_onI64 m n.toInt64)
  · exact congrArg some (a.toInt_onI64 m n)

theorem Unary.toInt_apply_i64 (u : Unary) (n : Int64) :
    (u.apply (.i64 n)).toInt? = some ((u.onInt n.toInt).bmod (2 ^ 64)) := by
  cases u with
  | abs =>
    simp only [apply, onInt, Number.toInt?, Int64.lt_iff_toInt_lt, Int64.toInt_zero]
    split
    · rw [Int64.toInt_neg, Int.ofNat_natAbs_of_nonpos (by omega)]
    · rw [Int.natAbs_of_nonneg (by omega)]
      exact congrArg some n.toInt_bmod.symm
  | square => exact congrArg some (Int64.toInt_mul n n)

theorem Unary.toInt_apply_i32 (u : Unary) (n : Int32) :
    (u.apply (.i32 n)).toInt? = some ((u.onInt n.toInt).bmod (2 ^ 32)) := by
  cases u with
  | abs =>
    simp only [apply, onInt, Number.toInt?, Int32.lt_iff_toInt_lt, Int32.toInt_zero]
    split
    · rw [Int32.toInt_neg, Int.ofNat_natAbs_of_nonpos (by omega)]
    · rw [Int.natAbs_of_nonneg (by omega)]
      exact congrArg some n.toInt_bmod.symm
  | square => exact congrArg some (Int32.toInt_mul n n)

/-- An operation on one integer is the exact one, reduced to the range of its type. -/
theorem Unary.toInt?_apply (u : Unary) {x : Number} {m : Int} (hx : x.toInt? = some m) :
    (u.apply x).toInt? = some ((u.onInt m).bmod (2 ^ (u.apply x).ty.bits)) := by
  rw [u.ty_apply]
  rcases Number.cases_of_toInt? hx with ⟨n, rfl, rfl⟩ | ⟨n, rfl, rfl⟩
  · exact u.toInt_apply_i32 n
  · exact u.toInt_apply_i64 n

/-! ## Exact values -/

def Op.onInts : Op → List Int → Option Int
  | arith a, [m, n] => some (a.onInt m n)
  | unary u, [m] => some (u.onInt m)
  | _, _ => none

mutual

/-- The value of a tree over the unbounded integers, if it is an expression over integers. -/
def Tree.integer? (b : Bindings) : Tree → Option Int
  | .leaf l => (l.outcome b).toOption.bind Value.toInt?
  | .node o slots => (slots.integers? b).bind o.onInts

def Slots.integers? (b : Bindings) {n : Nat} : Slots n → Option (List Int)
  | .nil => some []
  | .unbound _ => none
  | .bound t rest => (t.integer? b).bind fun m => (rest.integers? b).map (m :: ·)

end

theorem Slots.integers?_eq_collect (b : Bindings) {n : Nat} (s : Slots n) :
    s.integers? b = s.collect (Tree.integer? b) := by
  cases s with
  | nil => rw [integers?, collect]
  | unbound rest => rw [integers?, collect]
  | bound t rest => rw [integers?, collect, integers?_eq_collect b rest]

theorem Tree.integer?_node (b : Bindings) (o : Op) (slots : Slots o.arity) :
    (Tree.node o slots).integer? b = (slots.collect (Tree.integer? b)).bind o.onInts := by
  rw [integer?, Slots.integers?_eq_collect]

/-! ## Trees over integers -/

/-- The tree comes to the number `x`, which is the integer `m`, and over the unbounded integers it
    comes to `e`. The number is of the widest type that a leaf has. -/
structure Tree.Integral (b : Bindings) (t : Tree) (x : Number) (m e : Int) : Prop where
  typed : t.ty? = some (.num x.ty)
  eager : t.eager b = some (.num x)
  exact : t.integer? b = some e
  toInt : x.toInt? = some m
  mem : ∃ l ∈ t.leaves, l.ty = .num x.ty
  wide : ∀ l ∈ t.leaves, l.ty = .num .i64 → x.ty = .i64

variable {b : Bindings} {u w : Tree} {x y : Number} {m n e f : Int}

theorem Tree.Integral.ty_eq (h : u.Integral b x m e) : x.ty = .i32 ∨ x.ty = .i64 :=
  Number.ty_of_toInt? h.toInt

theorem Tree.Integral.of_leaf {l : Leaf} (integral : l.ty.isInteger) (ready : l.Ready b) :
    ∃ x m, (Tree.leaf l).Integral b x m m := by
  obtain ⟨v, hv⟩ := ready.value
  have hty : v.ty = l.ty := Leaf.ty_of_outcome hv
  rw [← hty] at integral
  cases v with
  | bool a => exact absurd integral (by simp [Ty.isInteger])
  | num x =>
    have hx : ∃ m, x.toInt? = some m := by
      cases x with
      | f64 x => exact absurd integral (by simp [Ty.isInteger, Number.ty])
      | f32 x => exact absurd integral (by simp [Ty.isInteger, Number.ty])
      | i64 n => exact ⟨_, rfl⟩
      | i32 n => exact ⟨_, rfl⟩
    obtain ⟨m, hm⟩ := hx
    refine ⟨x, m, ?_, ?_, ?_, hm, ?_, ?_⟩
    · rw [ty?, ← hty, Value.ty_num]
    · rw [Tree.eager, hv]
      rfl
    · rw [integer?, hv]
      exact hm
    · exact ⟨l, by simp, hty.symm⟩
    · intro l' hl h
      rw [leaves_leaf, List.mem_singleton] at hl
      rw [hl, ← hty] at h
      exact Ty.num.inj h

theorem Tree.Integral.arith {a : Arith} {slots : Slots (Op.arith a).arity}
    (h0 : slots.get? 0 = some u) (h1 : slots.get? 1 = some w) (hu : u.Integral b x m e)
    (hw : w.Integral b y n f) :
    (Tree.node (.arith a) slots).Integral b (a.apply x y)
      ((a.onInt m n).bmod (2 ^ (a.apply x y).ty.bits)) (a.onInt e f) := by
  refine ⟨?_, ?_, ?_, a.toInt?_apply hu.toInt hw.toInt, ?_, ?_⟩
  · rw [ty?, Slots.tys?_eq_collect, Slots.collect_pair h0 h1 rfl hu.typed hw.typed, a.ty_apply]
    rfl
  · rw [eager_node, Slots.collect_pair h0 h1 rfl hu.eager hw.eager]
    rfl
  · rw [integer?_node, Slots.collect_pair h0 h1 rfl hu.exact hw.exact]
    rfl
  · obtain ⟨l, hl, hlty⟩ := hu.mem
    obtain ⟨l', hl', hlty'⟩ := hw.mem
    rw [a.ty_apply]
    rcases Std.MaxEqOr.max_eq_or x.ty y.ty with h | h
    · exact ⟨l, mem_leaves_node h0 hl, by rw [hlty, h]⟩
    · exact ⟨l', mem_leaves_node h1 hl', by rw [hlty', h]⟩
  · intro l hl hlty
    obtain ⟨i, v, hv, hl⟩ := exists_of_mem_leaves_node hl
    have hi : i < 2 := Slots.lt_of_get? hv
    rw [a.ty_apply]
    obtain rfl | rfl : i = 0 ∨ i = 1 := by omega
    · obtain rfl := Option.some.inj (h0.symm.trans hv)
      rw [hu.wide l hl hlty]
      exact NumTy.max_i64_left hw.ty_eq
    · obtain rfl := Option.some.inj (h1.symm.trans hv)
      rw [hw.wide l hl hlty]
      exact NumTy.max_i64_right hu.ty_eq

theorem Tree.Integral.unary {a : Unary} {slots : Slots (Op.unary a).arity}
    (h0 : slots.get? 0 = some u) (hu : u.Integral b x m e) :
    (Tree.node (.unary a) slots).Integral b (a.apply x)
      ((a.onInt m).bmod (2 ^ (a.apply x).ty.bits)) (a.onInt e) := by
  refine ⟨?_, ?_, ?_, a.toInt?_apply hu.toInt, ?_, ?_⟩
  · rw [ty?, Slots.tys?_eq_collect, Slots.collect_single h0 rfl hu.typed, a.ty_apply]
    rfl
  · rw [eager_node, Slots.collect_single h0 rfl hu.eager]
    rfl
  · rw [integer?_node, Slots.collect_single h0 rfl hu.exact]
    rfl
  · obtain ⟨l, hl, hlty⟩ := hu.mem
    rw [a.ty_apply]
    exact ⟨l, mem_leaves_node h0 hl, hlty⟩
  · intro l hl hlty
    obtain ⟨i, v, hv, hl⟩ := exists_of_mem_leaves_node hl
    have hi : i < 1 := Slots.lt_of_get? hv
    obtain rfl : i = 0 := by omega
    obtain rfl := Option.some.inj (h0.symm.trans hv)
    rw [a.ty_apply]
    exact hu.wide l hl hlty

/-! ## Residues -/

/-- The operators that residues have too. -/
def Op.ring : List Op := [.arith .add, .arith .sub, .arith .mul, .unary .square]

theorem Arith.onInt_modEq {a : Arith} (ha : .arith a ∈ Op.ring) {k : Int} (hm : m ≡ e [ZMOD k])
    (hn : n ≡ f [ZMOD k]) : a.onInt m n ≡ a.onInt e f [ZMOD k] := by
  cases a with
  | add => exact hm.add hn
  | sub => exact hm.sub hn
  | mul => exact hm.mul hn
  | max => exact absurd ha (by decide)
  | min => exact absurd ha (by decide)

theorem Unary.onInt_modEq {a : Unary} (ha : .unary a ∈ Op.ring) {k : Int} (hm : m ≡ e [ZMOD k]) :
    a.onInt m ≡ a.onInt e [ZMOD k] := by
  cases a with
  | abs => exact absurd ha (by decide)
  | square => exact hm.mul hm

/-- Reduced to `j` bits, an integer keeps the lower of them. -/
theorem bmod_modEq {j k : Nat} (h : k ≤ j) (m : Int) : m.bmod (2 ^ j) ≡ m [ZMOD 2 ^ k] := by
  have hj : m.bmod (2 ^ j) ≡ m [ZMOD (2 ^ j : Nat)] := Int.bmod_emod ..
  refine hj.of_dvd ?_
  rw [Nat.cast_pow]
  exact pow_dvd_pow _ h

/-- So many bits are in the types of all leaves. -/
def Tree.Fits (t : Tree) (k : Nat) : Prop := ∀ l ∈ t.leaves, ∀ n, l.ty = .num n → k ≤ n.bits

theorem Tree.Integral.le_bits (h : u.Integral b x m e) {k : Nat} (hk : u.Fits k) :
    k ≤ x.ty.bits := by
  obtain ⟨l, hl, hlty⟩ := h.mem
  exact hk l hl x.ty hlty

theorem Tree.Fits.slot {o : Op} {slots : Slots o.arity} {k i : Nat}
    (h : (Tree.node o slots).Fits k) (hu : slots.get? i = some u) : u.Fits k :=
  fun l hl => h l (mem_leaves_node hu hl)

/-- **A tree of ring operations over integers comes to its exact value, up to a multiple of a power
    of two**: of any that is in the types of all its leaves. -/
theorem Tree.exists_residue {t : Tree} (ring : ∀ o ∈ t.ops, o ∈ Op.ring) (complete : t.gaps = 0)
    (integral : ∀ l ∈ t.leaves, l.ty.isInteger) (ready : ∀ l ∈ t.leaves, l.Ready b) :
    ∃ x m e, t.Integral b x m e ∧ ∀ k, t.Fits k → m ≡ e [ZMOD 2 ^ k] := by
  induction t using Tree.byNode with
  | leaf l =>
    obtain ⟨x, m, h⟩ := Integral.of_leaf (integral l (by simp)) (ready l (by simp))
    exact ⟨x, m, m, h, fun k _ => rfl⟩
  | node o slots ih =>
    have ho : o ∈ Op.ring := ring o (root_mem_ops o slots)
    have below : ∀ i < o.arity, ∃ u x m e, slots.get? i = some u ∧ u.Integral b x m e ∧
        ∀ k, u.Fits k → m ≡ e [ZMOD 2 ^ k] := by
      intro i hi
      obtain ⟨u, hu, hgaps⟩ := Slots.get?_of_gaps (by rwa [gaps] at complete) i hi
      obtain ⟨x, m, e, hint, hres⟩ := ih i u hu (fun o ho => ring o (mem_ops_node hu ho)) hgaps
        (fun l hl => integral l (mem_leaves_node hu hl))
        (fun l hl => ready l (mem_leaves_node hu hl))
      exact ⟨u, x, m, e, hu, hint, hres⟩
    cases o with
    | arith a =>
      obtain ⟨u, x, m, e, h0, hu, hm⟩ := below 0 Nat.two_pos
      obtain ⟨w, y, n, f, h1, hw, hn⟩ := below 1 Nat.one_lt_two
      have hnode := Integral.arith h0 h1 hu hw
      refine ⟨_, _, _, hnode, ?_⟩
      intro k hk
      -- The node wraps at the width of its widest leaf, which has room for `k` bits.
      refine (bmod_modEq (hnode.le_bits hk) _).trans ?_
      exact Arith.onInt_modEq ho (hm k (hk.slot h0)) (hn k (hk.slot h1))
    | unary a =>
      obtain ⟨u, x, m, e, h0, hu, hm⟩ := below 0 Nat.one_pos
      have hnode := Integral.unary h0 hu
      refine ⟨_, _, _, hnode, ?_⟩
      intro k hk
      refine (bmod_modEq (hnode.le_bits hk) _).trans ?_
      exact Unary.onInt_modEq ho (hm k (hk.slot h0))
    | connective | not | xor | divide | real | compare | choose =>
      exact absurd ho (by simp [Op.ring])

/-! ## Evaluation in a context -/

/-- **Integer arithmetic is modular.** A complete tree of sums, differences, products and squares over
    integer leaves, all of which have values, evaluates to an integer if the flag is clear. That is of
    the wider of the types of its leaves. If the leaves are all of one type, the result is the value
    over the unbounded integers, reduced to the range of the type; and whatever the leaves are, it
    agrees with that value modulo `2 ^ 32`. -/
theorem Store.eval_modular (s : Store) (c : Context) (t : Tree)
    (ring : ∀ o ∈ t.ops, o ∈ Op.ring) (complete : t.gaps = 0)
    (integral : ∀ l ∈ t.leaves, l.ty.isInteger) (ready : ∀ l ∈ t.leaves, l.Ready s.bindings)
    (clear : s.isRaised c = false) :
    ∃ v m e, (s.eval c t).1.outcome = .ok v ∧ v.toInt? = some m ∧
      t.integer? s.bindings = some e ∧
      v.ty = .num (if .num .i64 ∈ t.leaves.map Leaf.ty then .i64 else .i32) ∧
      (∀ n, (∀ l ∈ t.leaves, l.ty = .num n) → m = e.bmod (2 ^ n.bits)) ∧
      m ≡ e [ZMOD 2 ^ 32] := by
  obtain ⟨x, m, e, h, hres⟩ := Tree.exists_residue ring complete integral ready
  obtain ⟨v, hv, heager, -⟩ := Tree.eager_of_ready h.typed ready
  obtain rfl : v = .num x := Option.some.inj (heager.symm.trans h.eager)
  refine ⟨.num x, m, e, ?_, h.toInt, h.exact, ?_, ?_, ?_⟩
  · rw [eval_of_clear clear]
    exact hv
  · split
    · next hmem =>
      obtain ⟨l, hl, hlty⟩ := List.mem_map.mp hmem
      rw [Value.ty_num, h.wide l hl hlty]
    · next hmem =>
      rcases h.ty_eq with hx | hx
      · rw [Value.ty_num, hx]
      · obtain ⟨l, hl, hlty⟩ := h.mem
        exact absurd (List.mem_map.mpr ⟨l, hl, hlty.trans (congrArg Ty.num hx)⟩) hmem
  · intro n hn
    obtain ⟨l, hl, hlty⟩ := h.mem
    have hx : x.ty = n := Ty.num.inj (hlty.symm.trans (hn l hl))
    have hfits : t.Fits n.bits := by
      intro l hl n' hl'
      rw [Ty.num.inj ((hn l hl).symm.trans hl')]
    -- Two residues in the range of a type are equal if they are congruent.
    have hmod : m % (2 ^ n.bits : Nat) = e % (2 ^ n.bits : Nat) := by
      simpa [Int.ModEq] using hres n.bits hfits
    rw [← Number.bmod_of_toInt? h.toInt, hx, ← Int.emod_bmod, hmod, Int.emod_bmod]
  · refine hres 32 ?_
    intro l hl n hn
    have hint := integral l hl
    rw [hn] at hint
    cases n with
    | i32 => exact Nat.le_refl 32
    | i64 => exact (by decide : 32 ≤ 64)
    | f32 => exact absurd hint (by simp [Ty.isInteger])
    | f64 => exact absurd hint (by simp [Ty.isInteger])

/-- The square wraps to zero at 32 bits before it is taken at 64, so it is only modulo `2 ^ 32` that
    the sum is what it should be. -/
theorem Store.eval_modular_mixed :
    ∃ v m e, (initial.eval ⟨0, false⟩ ((Op.arith .add).call
        #v[(Op.unary .square).call #v[.leaf (.literal (.num (.i32 65536)))],
          .leaf (.literal (.num (.i64 1)))])).1.outcome = .ok v ∧ v.toInt? = some m ∧
      ((Op.arith .add).call
        #v[(Op.unary .square).call #v[.leaf (.literal (.num (.i32 65536)))],
          .leaf (.literal (.num (.i64 1)))]).integer? initial.bindings = some e ∧
      m ≡ e [ZMOD 2 ^ 32] := by
  have hleaves : ∀ l ∈ [Leaf.literal (.num (.i32 65536)), .literal (.num (.i64 1))],
      l.ty.isInteger ∧ l.Ready initial.bindings := by
    intro l hl
    rcases List.mem_cons.mp hl with rfl | hl
    · exact ⟨rfl, ⟨_, rfl⟩, rfl⟩
    · rw [List.mem_singleton.mp hl]
      exact ⟨rfl, ⟨_, rfl⟩, rfl⟩
  obtain ⟨v, m, e, hv, hm, he, -, -, hmod⟩ := eval_modular initial ⟨0, false⟩
    ((Op.arith .add).call #v[(Op.unary .square).call #v[.leaf (.literal (.num (.i32 65536)))],
      .leaf (.literal (.num (.i64 1)))])
    (by decide) (by decide) (fun l hl => (hleaves l hl).1) (fun l hl => (hleaves l hl).2)
    (by decide)
  exact ⟨v, m, e, hv, hm, he, hmod⟩

end ExprTree
