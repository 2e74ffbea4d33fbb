import ExprTree.Proofs.FloatOrder
import ExprTree.Proofs.Modular
import ExprTree.Proofs.Nearest

/-!
# Comparisons of integers

Integers are compared as 64-bit floats, and a float has no room for every 64-bit integer. What is
compared are the numbers that the integers are rounded to, `Binary.unitsOfInt`, so **all laws of the
comparison are laws of an order on numbers, carried back along a monotone function**
(`Binary.unitsOfInt_mono`): the comparison never contradicts the order of the integers, and integers
that it takes for equal are those that were rounded together. Up to `2 ^ 53` nothing is rounded
(`Binary.unitsOfInt_of_le`), and there the two orders are one.
-/

set_option autoImplicit false

namespace ExprTree

/-! ## Integers as floats -/

namespace Binary

theorem oriented_of_neg {n : Int} (h : n < 0) (k : Nat) :
    oriented (decide (n < 0)) k = -(k : Int) := by
  rw [decide_eq_true h]
  rfl

theorem oriented_of_nonneg {n : Int} (h : 0 ≤ n) (k : Nat) : oriented (decide (n < 0)) k = k := by
  rw [decide_eq_false (Int.not_lt.mpr h)]
  rfl

theorem oriented_mono {g : Nat → Nat} (hg : Monotone g) {m n : Int} (h : m ≤ n) :
    oriented (decide (m < 0)) (g m.natAbs) ≤ oriented (decide (n < 0)) (g n.natAbs) := by
  rcases Int.lt_or_le m 0 with hm | hm
  · rw [oriented_of_neg hm]
    rcases Int.lt_or_le n 0 with hn | hn
    · have hle : g n.natAbs ≤ g m.natAbs := hg (by omega)
      rw [oriented_of_neg hn]
      omega
    · rw [oriented_of_nonneg hn]
      omega
  · have hle : g m.natAbs ≤ g n.natAbs := hg (by omega)
    rw [oriented_of_nonneg hm, oriented_of_nonneg (Int.le_trans hm h)]
    omega

theorem oriented_natAbs (n : Int) (k : Nat) :
    oriented (decide (n < 0)) (n.natAbs * k) = n * k := by
  rcases Int.lt_or_le n 0 with hn | hn
  · have habs : (n.natAbs : Int) = -n := by omega
    rw [oriented_of_neg hn, Int.natCast_mul, habs, Int.neg_mul, Int.neg_neg]
  · rw [oriented_of_nonneg hn, Int.natCast_mul, Int.natAbs_of_nonneg hn]

namespace Format

variable (f : Format)

/-- The word that a natural number is rounded to. -/
def wordOfNat (n : Nat) : Nat := f.nearest (n * 2 ^ f.scale) 1

theorem ofInt_eq (n : Int) :
    f.ofInt n = f.signed (decide (n < 0)) (f.wordOfNat n.natAbs) := rfl

theorem wordOfNat_le (n : Nat) : f.wordOfNat n ≤ f.infinity := nearest_le_infinity _ _

theorem value_ofInt (n : Int) :
    f.value (f.ofInt n) = oriented (decide (n < 0)) (f.units (f.wordOfNat n.natAbs)) :=
  f.value_signed _ (Nat.lt_of_le_of_lt (f.wordOfNat_le _) f.infinity_lt_signBit)

variable {f}

theorem wordOfNat_mono (hp : 0 < f.precision) : Monotone f.wordOfNat := fun _ _ h =>
  nearest_mono hp Nat.one_pos (Nat.mul_le_mul_right _ h)

/-- **Rounding keeps the order of integers.** -/
theorem value_ofInt_mono (hp : 0 < f.precision) {m n : Int} (h : m ≤ n) :
    f.value (f.ofInt m) ≤ f.value (f.ofInt n) := by
  rw [value_ofInt, value_ofInt]
  exact oriented_mono (f.units_strictMono.monotone.comp (wordOfNat_mono hp)) h

/-- What the significand has room for is not rounded. -/
theorem units_wordOfNat (hp : 0 < f.precision) {n : Nat} (h : n ≤ 2 * f.binade)
    (hfinite : n * 2 ^ f.scale ≤ f.units f.infinity) :
    f.units (f.wordOfNat n) = n * 2 ^ f.scale := by
  obtain ⟨w, hw⟩ := exists_units h f.scale
  have hle : w ≤ f.infinity := f.units_strictMono.le_iff_le.mp (hw.trans_le hfinite)
  rw [wordOfNat, ← hw, nearest_units hp hle]

end Format

open Format

/-- The number that an integer is rounded to, in units. -/
def unitsOfInt (n : Int) : Int := double.value (double.ofInt n)

theorem unitsOfInt_mono {m n : Int} (h : m ≤ n) : unitsOfInt m ≤ unitsOfInt n :=
  value_ofInt_mono (by decide) h

/-- The magnitudes of 64-bit integers go up to that of a word far below the infinite one. -/
theorem units_double_greatest :
    double.units (double.binade * 1086) = 2 ^ 63 * 2 ^ double.scale := by
  have hexp : 52 + 1085 = 63 + double.scale := by decide
  rw [double.units_first 1085, double_binade, ← Nat.pow_add, ← Nat.pow_add, hexp]

theorem wordOfNat_lt {n : Nat} (h : n ≤ 2 ^ 63) : double.wordOfNat n < double.infinity := by
  have hle : double.wordOfNat n ≤ double.wordOfNat (2 ^ 63) := wordOfNat_mono (by decide) h
  rw [wordOfNat, wordOfNat, ← units_double_greatest, nearest_units (by decide) (by decide)] at hle
  exact Nat.lt_of_le_of_lt hle (by decide)

/-- **Up to `2 ^ 53` integers are not rounded.** -/
theorem unitsOfInt_of_le {n : Int} (h : n.natAbs ≤ 2 ^ 53) :
    unitsOfInt n = n * (2 ^ double.scale : Nat) := by
  have hfinite : n.natAbs * 2 ^ double.scale ≤ double.units double.infinity :=
    calc n.natAbs * 2 ^ double.scale
        ≤ 2 ^ 63 * 2 ^ double.scale := Nat.mul_le_mul_right _ (by omega)
      _ = double.units (double.binade * 1086) := units_double_greatest.symm
      _ ≤ double.units double.infinity := double.units_strictMono.monotone (by decide)
  rw [unitsOfInt, value_ofInt, units_wordOfNat (by decide) h hfinite, oriented_natAbs]

theorem lt_of_unitsOfInt_lt {m n : Int} (h : unitsOfInt m < unitsOfInt n) : m < n := by
  by_contra hle
  have hge : unitsOfInt n ≤ unitsOfInt m := unitsOfInt_mono (by omega)
  omega

theorem unitsOfInt_lt_iff {m n : Int} (hm : m.natAbs ≤ 2 ^ 53) (hn : n.natAbs ≤ 2 ^ 53) :
    unitsOfInt m < unitsOfInt n ↔ m < n := by
  rw [unitsOfInt_of_le hm, unitsOfInt_of_le hn]
  exact Int.mul_lt_mul_right (by exact_mod_cast Nat.two_pow_pos _)

theorem unitsOfInt_neg_iff (n : Int) : unitsOfInt n < 0 ↔ n < 0 := by
  have hpos : 0 < 2 ^ double.scale := Nat.two_pow_pos _
  have hzero : unitsOfInt 0 = 0 := (unitsOfInt_of_le (by decide)).trans (Int.zero_mul _)
  have hminus : unitsOfInt (-1) < 0 := by
    rw [unitsOfInt_of_le (by decide)]
    omega
  constructor
  · intro h
    by_contra hn
    have hle : unitsOfInt 0 ≤ unitsOfInt n := unitsOfInt_mono (by omega)
    omega
  · intro h
    have hle : unitsOfInt n ≤ unitsOfInt (-1) := unitsOfInt_mono (by omega)
    omega

theorem doubleOfInt_lt_iff {m n : Int} (hm : m.natAbs ≤ 2 ^ 63) (hn : n.natAbs ≤ 2 ^ 63) :
    doubleOfInt m < doubleOfInt n ↔ unitsOfInt m < unitsOfInt n := by
  unfold doubleOfInt unitsOfInt
  rw [ofInt_eq, ofInt_eq]
  exact doubleOfWord_lt_iff _ _ (wordOfNat_lt hm) (wordOfNat_lt hn)

/-- **Integers that are rounded to one number become one float**, the sign of zero included. -/
theorem doubleOfInt_eq {m n : Int} (h : unitsOfInt m = unitsOfInt n) :
    doubleOfInt m = doubleOfInt n := by
  have hsign : decide (m < 0) = decide (n < 0) := by
    rw [decide_eq_decide, ← unitsOfInt_neg_iff m, ← unitsOfInt_neg_iff n, h]
  have hword : double.wordOfNat m.natAbs = double.wordOfNat n.natAbs := by
    unfold unitsOfInt at h
    rw [value_ofInt, value_ofInt, hsign, oriented, oriented] at h
    apply double.units_strictMono.injective
    split at h <;> omega
  unfold doubleOfInt
  rw [ofInt_eq, ofInt_eq, hsign, hword]

end Binary

/-! ## The operation -/

namespace Number

variable {x y : Number} {m n : Int}

theorem natAbs_le_of_toInt? (h : x.toInt? = some m) : m.natAbs ≤ 2 ^ 63 := by
  rcases cases_of_toInt? h with ⟨n, rfl, rfl⟩ | ⟨n, rfl, rfl⟩
  · have hle := n.le_toInt
    have hlt := n.toInt_lt
    omega
  · have hle := n.le_toInt
    have hlt := n.toInt_lt
    omega

theorem toF64_of_toInt? (h : x.toInt? = some m) : x.toF64 = Binary.doubleOfInt m := by
  rcases cases_of_toInt? h with ⟨n, rfl, rfl⟩ | ⟨n, rfl, rfl⟩
  · rfl
  · rfl

theorem toF64_lt_iff (hx : x.toInt? = some m) (hy : y.toInt? = some n) :
    x.toF64 < y.toF64 ↔ Binary.unitsOfInt m < Binary.unitsOfInt n := by
  rw [toF64_of_toInt? hx, toF64_of_toInt? hy]
  exact Binary.doubleOfInt_lt_iff (natAbs_le_of_toInt? hx) (natAbs_le_of_toInt? hy)

end Number

/-- The comparison of the numbers that two integers are rounded to. -/
def Comparison.onInt (cmp : Comparison) (m n : Int) : Bool :=
  match cmp with
  | greater => decide (Binary.unitsOfInt n < Binary.unitsOfInt m)
  | less => decide (Binary.unitsOfInt m < Binary.unitsOfInt n)

theorem Comparison.apply_of_toInt? (cmp : Comparison) {x y : Number} {m n : Int}
    (hx : x.toInt? = some m) (hy : y.toInt? = some n) : cmp.apply x y = cmp.onInt m n := by
  cases cmp with
  | greater => exact decide_eq_decide.mpr (Number.toF64_lt_iff hy hx)
  | less => exact decide_eq_decide.mpr (Number.toF64_lt_iff hx hy)

/-! ## Comparison nodes -/

def Comparison.over (cmp : Comparison) (t u : Tree) : Tree := (Op.compare cmp).call #v[t, u]

section

variable {b : Bindings} {cmp : Comparison} {t u : Tree} {x y : Number}

theorem Comparison.eval_over (b : Bindings) (cmp : Comparison) (t u : Tree) (flag : Bool) :
    (cmp.over t u).eval b flag =
      (request cmp.symbol (some (t.eval b)) 0 .number flag).andThen fun x flag =>
        (request cmp.symbol (some (u.eval b)) 1 .number flag).andThen fun y flag =>
          ⟨.ok (.bool (cmp.apply x y)), flag, .nil⟩ :=
  (Tree.eval_node b (.compare cmp) _ flag).trans rfl

theorem outcome_request_number {node : String} {run : Bool → Run Value} {i : Nat}
    (h : (run false).outcome = .ok (.num x)) :
    (request node (some run) i .number false).outcome = .ok x := by
  show (run false).outcome.bind _ = _
  rw [h]
  rfl

theorem Comparison.outcome_over (ht : (t.eval b false).outcome = .ok (.num x))
    (hu : (u.eval b false).outcome = .ok (.num y)) :
    ((cmp.over t u).eval b false).outcome =
      if (t.eval b false).flag then .error .interrupted else .ok (.bool (cmp.apply x y)) := by
  rw [eval_over, Run.andThen_ok (outcome_request_number ht)]
  show (Run.andThen (request cmp.symbol _ 1 .number (t.eval b false).flag) _).outcome = _
  cases (t.eval b false).flag with
  | true => rfl
  | false => rw [Run.andThen_ok (outcome_request_number hu), if_neg Bool.false_ne_true]

end

/-! ## Evaluation in a context -/

namespace Store

/-- The tree evaluates to the integer, of either width. -/
def YieldsInt (s : Store) (c : Context) (t : Tree) (m : Int) : Prop :=
  ∃ v, (s.eval c t).1.outcome = .ok v ∧ v.toInt? = some m

/-- The comparison of the two trees evaluates to the truth value. -/
def Answers (s : Store) (c : Context) (cmp : Comparison) (t u : Tree) (p : Bool) : Prop :=
  (s.eval c (cmp.over t u)).1.outcome = .ok (.bool p)

/-- Neither tree is found to be greater than the other. -/
def Ties (s : Store) (c : Context) (t u : Tree) : Prop :=
  s.Answers c .greater t u false ∧ s.Answers c .less t u false

variable {s : Store} {c : Context} {cmp : Comparison} {t u w : Tree} {i j k : Int}

theorem YieldsInt.exists_number (h : s.YieldsInt c t i) :
    ∃ x, (s.eval c t).1.outcome = .ok (.num x) ∧ x.toInt? = some i := by
  obtain ⟨v, hv, hi⟩ := h
  cases v with
  | bool p => cases hi
  | num x => exact ⟨x, hv, hi⟩

/-- **The comparison comes to what the rounded integers say**, unless the first of them left the flag
    set. -/
theorem YieldsInt.outcome_over (ht : s.YieldsInt c t i) (hu : s.YieldsInt c u j)
    (cmp : Comparison) :
    (s.eval c (cmp.over t u)).1.outcome =
      if (s.eval c t).1.flag then .error .interrupted else .ok (.bool (cmp.onInt i j)) := by
  obtain ⟨x, hx, hxi⟩ := ht.exists_number
  obtain ⟨y, hy, hyj⟩ := hu.exists_number
  cases hflag : s.isRaised c with
  | true =>
    have hset : (s.eval c t).1.flag = true := by
      rw [eval_fst, Tree.flag_eval, hflag, Bool.true_or]
    rw [hset, if_pos rfl, eval_fst, hflag, Comparison.eval_over]
    rfl
  | false =>
    rw [eval_of_clear hflag] at hx hy ⊢
    rw [eval_of_clear hflag, Comparison.outcome_over hx hy, cmp.apply_of_toInt? hxi hyj]

theorem YieldsInt.answers_iff (ht : s.YieldsInt c t i) (hu : s.YieldsInt c u j) {p : Bool} :
    s.Answers c cmp t u p ↔ (s.eval c t).1.flag = false ∧ cmp.onInt i j = p := by
  rw [Answers, ht.outcome_over hu]
  cases (s.eval c t).1.flag <;> simp

theorem YieldsInt.answers_greater_iff (ht : s.YieldsInt c t i) (hu : s.YieldsInt c u j) :
    s.Answers c .greater t u true ↔
      (s.eval c t).1.flag = false ∧ Binary.unitsOfInt j < Binary.unitsOfInt i :=
  (ht.answers_iff hu).trans (and_congr_right fun _ => decide_eq_true_iff)

theorem YieldsInt.answers_not_greater_iff (ht : s.YieldsInt c t i) (hu : s.YieldsInt c u j) :
    s.Answers c .greater t u false ↔
      (s.eval c t).1.flag = false ∧ ¬ Binary.unitsOfInt j < Binary.unitsOfInt i :=
  (ht.answers_iff hu).trans (and_congr_right fun _ => decide_eq_false_iff_not)

/-- Integers are tied if they are rounded to one number. -/
theorem YieldsInt.ties_iff (ht : s.YieldsInt c t i) (hu : s.YieldsInt c u j) :
    s.Ties c t u ↔ (s.eval c t).1.flag = false ∧ Binary.unitsOfInt i = Binary.unitsOfInt j := by
  rw [Ties, ht.answers_not_greater_iff hu, ht.answers_iff hu]
  constructor
  · rintro ⟨⟨hflag, hgreater⟩, -, hless⟩
    have hless : ¬ Binary.unitsOfInt i < Binary.unitsOfInt j := of_decide_eq_false hless
    exact ⟨hflag, by omega⟩
  · rintro ⟨hflag, heq⟩
    have hless : ¬ Binary.unitsOfInt i < Binary.unitsOfInt j := by omega
    exact ⟨⟨hflag, by omega⟩, hflag, decide_eq_false hless⟩

/-- What there is to say about the comparisons of three trees that evaluate to the integers `i`, `j`
    and `k`. -/
structure OrdersIntegers (s : Store) (c : Context) (t u w : Tree) (i j k : Int) : Prop where
  /-- A comparison has an answer, unless the first operand left the flag set. -/
  answered : ∀ cmp, if (s.eval c t).1.flag
    then (s.eval c (cmp.over t u)).1.outcome = .error .interrupted else ∃ p, s.Answers c cmp t u p
  mirrored : (s.eval c t).1.flag = false → (s.eval c u).1.flag = false →
    ∃ p, s.Answers c .greater t u p ∧ s.Answers c .less u t p
  sound : s.Answers c .greater t u true → j < i
  /-- Only integers that become one float are mistaken for equal, and one of them is great. -/
  tied : j < i → s.Answers c .greater t u false →
    Binary.doubleOfInt i = Binary.doubleOfInt j ∧ (2 ^ 53 < i.natAbs ∨ 2 ^ 53 < j.natAbs)
  exact : i.natAbs ≤ 2 ^ 53 → j.natAbs ≤ 2 ^ 53 → ∀ p, s.Answers c .greater t u p →
    p = decide (j < i)
  irreflexive : ¬ s.Answers c .greater t t true
  asymmetric : s.Answers c .greater t u true → ¬ s.Answers c .greater u t true
  transitive : s.Answers c .greater t u true → s.Answers c .greater u w true →
    s.Answers c .greater t w true
  ties_transitive : s.Ties c t u → s.Ties c u w → s.Ties c t w

/-- **Comparisons of integers follow the order of the integers as far as floats tell them apart.** The
    lesser of two integers is never found to be the greater, and integers that are not told apart keep
    to the laws of a strict weak order. -/
theorem eval_ordered (ht : s.YieldsInt c t i) (hu : s.YieldsInt c u j) (hw : s.YieldsInt c w k) :
    s.OrdersIntegers c t u w i j k where
  answered cmp := by
    rw [ht.outcome_over hu]
    split
    · rfl
    · next hflag => exact ⟨_, (ht.answers_iff hu).mpr ⟨Bool.eq_false_iff.mpr hflag, rfl⟩⟩
  mirrored hflag hflag' :=
    ⟨_, (ht.answers_iff hu).mpr ⟨hflag, rfl⟩, (hu.answers_iff ht).mpr ⟨hflag', rfl⟩⟩
  sound h := Binary.lt_of_unitsOfInt_lt ((ht.answers_greater_iff hu).mp h).2
  tied hlt h := by
    have hnot := ((ht.answers_not_greater_iff hu).mp h).2
    have hle : Binary.unitsOfInt j ≤ Binary.unitsOfInt i := Binary.unitsOfInt_mono (by omega)
    refine ⟨Binary.doubleOfInt_eq (by omega), ?_⟩
    by_contra hsmall
    have hj : j.natAbs ≤ 2 ^ 53 := by omega
    have hi : i.natAbs ≤ 2 ^ 53 := by omega
    exact hnot ((Binary.unitsOfInt_lt_iff hj hi).mpr hlt)
  exact hi hj p h := by
    obtain ⟨-, rfl⟩ := (ht.answers_iff hu).mp h
    exact decide_eq_decide.mpr (Binary.unitsOfInt_lt_iff hj hi)
  irreflexive h := Int.lt_irrefl _ ((ht.answers_greater_iff ht).mp h).2
  asymmetric h h' :=
    Int.lt_asymm ((ht.answers_greater_iff hu).mp h).2 ((hu.answers_greater_iff ht).mp h').2
  transitive h h' := by
    obtain ⟨hflag, hlt⟩ := (ht.answers_greater_iff hu).mp h
    obtain ⟨-, hlt'⟩ := (hu.answers_greater_iff hw).mp h'
    exact (ht.answers_greater_iff hw).mpr ⟨hflag, Int.lt_trans hlt' hlt⟩
  ties_transitive h h' := by
    obtain ⟨hflag, heq⟩ := (ht.ties_iff hu).mp h
    obtain ⟨-, heq'⟩ := (hu.ties_iff hw).mp h'
    exact (ht.ties_iff hw).mpr ⟨hflag, heq.trans heq'⟩

/-- The first two integers are one float, and the third has another type. -/
theorem eval_ordered_great :
    initial.OrdersIntegers ⟨0, false⟩ (.leaf (.literal (.num (.i64 9007199254740993))))
      (.leaf (.literal (.num (.i64 9007199254740992)))) (.leaf (.literal (.num (.i32 7))))
      9007199254740993 9007199254740992 7 :=
  eval_ordered ⟨_, rfl, rfl⟩ ⟨_, rfl, rfl⟩ ⟨_, rfl, rfl⟩

end Store

end ExprTree
