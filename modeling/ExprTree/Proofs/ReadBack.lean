import Mathlib.Algebra.Field.Rat
import Mathlib.Algebra.Order.Ring.Rat
import Mathlib.Algebra.GroupWithZero.Basic
import ExprTree.Decimal.Numeral

/-!
# Shortest numerals are told apart

The decimals that are read back as one word of a format lie between the midpoints to its neighbours, and
a midpoint belongs to the even one of the two words it lies between. So **no decimal is read back as two
words** (`readBack_disjoint`). The shortest numeral of a word is one of those decimals
(`Interval.contains_shortest`), which is why different words have shortest numerals of different value
(`Numeral.value_shortest_injective`). That it is the shortest of them is not needed for this.
-/

set_option autoImplicit false

namespace ExprTree

/-! ## Magnitudes -/

namespace Binary.Format

variable (f : Format)

theorem binade_pos : 0 < f.binade := Nat.two_pow_pos _

theorem units_of_lt {b : Nat} (h : b < f.binade) : f.units b = b := by
  rw [units, if_pos h]

/-- From the second binade on, word by word. -/
theorem units_of_binade (q : Nat) {r : Nat} (hr : r < f.binade) :
    f.units (f.binade * (q + 1) + r) = (f.binade + r) * 2 ^ q := by
  have hge : ¬ f.binade * (q + 1) + r < f.binade := by
    rw [Nat.mul_succ]
    omega
  rw [units, if_neg hge, Nat.mul_add_mod, Nat.mod_eq_of_lt hr, Nat.mul_add_div f.binade_pos,
    Nat.div_eq_of_lt hr]
  rfl

/-- The first word of a binade. -/
theorem units_first (q : Nat) : f.units (f.binade * (q + 1)) = f.binade * 2 ^ q :=
  f.units_of_binade q f.binade_pos

/-- **Every word has a greater magnitude than the one before.** -/
theorem units_lt_succ (b : Nat) : f.units b < f.units (b + 1) := by
  have hpos := f.binade_pos
  rcases Nat.lt_or_ge b f.binade with hb | hb
  · rw [f.units_of_lt hb]
    rcases Nat.lt_or_ge (b + 1) f.binade with hb' | hb'
    · rw [f.units_of_lt hb']
      exact Nat.lt_succ_self b
    · have hlast : b + 1 = f.binade * (0 + 1) := by omega
      rw [hlast, units_first]
      omega
  · -- Either the next word is in the same binade, or it is the first of the next one.
    obtain ⟨q, r, hr, rfl⟩ : ∃ q r, r < f.binade ∧ b = f.binade * (q + 1) + r := by
      have hq : 1 ≤ b / f.binade := (Nat.one_le_div_iff hpos).mpr hb
      refine ⟨b / f.binade - 1, b % f.binade, Nat.mod_lt b hpos, ?_⟩
      rw [Nat.sub_add_cancel hq, Nat.div_add_mod]
    rw [f.units_of_binade q hr]
    rcases Nat.lt_or_ge (r + 1) f.binade with hr' | hr'
    · rw [Nat.add_assoc, f.units_of_binade q hr']
      exact Nat.mul_lt_mul_of_pos_right (by omega) (Nat.two_pow_pos q)
    · have hlast : f.binade * (q + 1) + r + 1 = f.binade * (q + 1 + 1) := by
        rw [Nat.mul_succ f.binade (q + 1)]
        omega
      rw [hlast, units_first, Nat.pow_succ, Nat.mul_comm (2 ^ q) 2, ← Nat.mul_assoc]
      exact Nat.mul_lt_mul_of_pos_right (by omega) (Nat.two_pow_pos q)

theorem units_strictMono : StrictMono f.units := strictMono_nat_of_lt_succ f.units_lt_succ

end Binary.Format

namespace Decimal

open ExprTree.Binary (Format)

/-! ## Intervals -/

namespace Interval

variable {i : Interval}

theorem le_of_contains {n : Nat} (h : i.contains n) : i.low ≤ n ∧ n ≤ i.high := by
  unfold contains at h
  split at h
  · exact of_decide_eq_true h
  · have hn : i.low < n ∧ n < i.high := of_decide_eq_true h
    exact ⟨Nat.le_of_lt hn.1, Nat.le_of_lt hn.2⟩

/-- Only a closed interval has an end in it. -/
theorem closed_of_contains {n : Nat} (h : i.contains n) (hn : n = i.low ∨ n = i.high) :
    i.closed := by
  unfold contains at h
  split at h
  · assumption
  · have hn' : i.low < n ∧ n < i.high := of_decide_eq_true h
    omega

theorem contains_of_lt {n : Nat} (h : i.low < n) (h' : n < i.high) : i.contains n := by
  unfold contains
  split
  · exact decide_eq_true ⟨Nat.le_of_lt h, Nat.le_of_lt h'⟩
  · exact decide_eq_true ⟨h, h'⟩

theorem contains_of_coefficient? {z c : Nat} (h : i.coefficient? z = some c) :
    i.contains (c * 10 ^ z) := by
  simp only [coefficient?] at h
  split at h
  · cases h
    split <;> assumption
  · cases h
    assumption
  · cases h
    assumption
  · cases h

/-- The search never leaves the interval. -/
theorem contains_coarsest (h : i.contains i.value) (z : Nat) :
    i.contains ((i.coarsest z).1 * 10 ^ (i.coarsest z).2) := by
  induction z with
  | zero => simpa [coarsest] using h
  | succ z ih =>
    rw [coarsest]
    split
    · next c hc => exact contains_of_coefficient? hc
    · exact ih

theorem contains_shortest (h : i.contains i.value) :
    i.contains (i.shortest.1 * 10 ^ i.shortest.2) :=
  contains_coarsest h _

end Interval

/-! ## What is read back -/

theorem contains_readBack (f : Format) {b : Nat} (hb : b ≠ 0) :
    (readBack f b).contains (readBack f b).value := by
  have hpos : 0 < 5 ^ (f.scale + 1) := Nat.pow_pos (by decide)
  have hlow : f.units (b - 1) < f.units b := f.units_strictMono (by omega)
  have hhigh : f.units b < f.units (b + 1) := f.units_lt_succ b
  refine Interval.contains_of_lt ?_ ?_
  · exact Nat.mul_lt_mul_of_pos_right (by omega) hpos
  · exact Nat.mul_lt_mul_of_pos_right (by omega) hpos

theorem pos_of_contains {f : Format} {b n : Nat} (hb : b ≠ 0) (h : (readBack f b).contains n) :
    0 < n := by
  have hlow : 0 < f.units (b - 1) + f.units b :=
    Nat.add_pos_right _ (Nat.lt_of_le_of_lt (Nat.zero_le _) (f.units_strictMono (by omega : 0 < b)))
  exact Nat.lt_of_lt_of_le (Nat.mul_pos hlow (Nat.pow_pos (by decide)))
    (Interval.le_of_contains h).1

/-- A greater word is read back from greater decimals, but for the midpoint between neighbours. -/
theorem high_le_low {f : Format} {b b' : Nat} (h : b < b') :
    (readBack f b).high ≤ (readBack f b').low ∧
      ((readBack f b).high = (readBack f b').low → b' = b + 1) := by
  have hpos : 0 < 5 ^ (f.scale + 1) := Nat.pow_pos (by decide)
  have hlow : f.units b ≤ f.units (b' - 1) := f.units_strictMono.monotone (by omega)
  have hhigh : f.units (b + 1) ≤ f.units b' := f.units_strictMono.monotone h
  constructor
  · exact Nat.mul_le_mul_right _ (Nat.add_le_add hlow hhigh)
  · intro he
    have hsum : f.units b + f.units (b + 1) = f.units (b' - 1) + f.units b' :=
      Nat.eq_of_mul_eq_mul_right hpos he
    exact (f.units_strictMono.injective (by omega : f.units (b + 1) = f.units b')).symm

/-- **No decimal is read back as two words.** The midpoint between two of them is read as the even
    one, and neighbours are not both even. -/
theorem readBack_disjoint {f : Format} {b b' n : Nat} (h : (readBack f b).contains n)
    (h' : (readBack f b').contains n) : b = b' := by
  have notLess : ∀ {b b' : Nat}, (readBack f b).contains n → (readBack f b').contains n →
      ¬ b < b' := by
    intro b b' h h' hlt
    obtain ⟨hle, hnext⟩ := high_le_low (f := f) hlt
    have hn := Interval.le_of_contains h
    have hn' := Interval.le_of_contains h'
    have heven : b % 2 = 0 := by
      simpa [readBack] using Interval.closed_of_contains h (Or.inr (by omega))
    have heven' : b' % 2 = 0 := by
      simpa [readBack] using Interval.closed_of_contains h' (Or.inl (by omega))
    have := hnext (by omega)
    omega
  exact Nat.le_antisymm (Nat.le_of_not_lt (notLess h' h)) (Nat.le_of_not_lt (notLess h h'))

/-! ## Values of numerals -/

namespace Numeral

/-- The number that a numeral stands for. -/
def value (n : Numeral) : ℚ :=
  Nat.ofDigitChars 10 n.digits 0 * (10 : ℚ) ^ (n.exponent + 1 - n.digits.length)

theorem value_ofCoefficient (c : Nat) (e : Int) : (ofCoefficient c e).value = c * (10 : ℚ) ^ e := by
  have he : e + (Nat.toDigits 10 c).length - 1 + 1 - (Nat.toDigits 10 c).length = e := by omega
  unfold value ofCoefficient
  rw [Nat.ofDigitChars_ten_toDigits, he]

/-- The value is a decimal that is read back as the word. -/
theorem value_shortest (f : Format) {b : Nat} (hb : b ≠ 0) :
    ∃ n, (readBack f b).contains n ∧
      (shortest f b).value = n * (10 : ℚ) ^ (-(f.scale + 1 : Int)) := by
  refine ⟨_, Interval.contains_shortest (contains_readBack f hb), ?_⟩
  rw [shortest, if_neg hb, value_ofCoefficient]
  rw [Nat.cast_mul, Nat.cast_pow, mul_assoc, Nat.cast_ofNat, ← zpow_natCast, ← zpow_add₀ (by simp)]
  rfl

theorem value_shortest_zero (f : Format) : (shortest f 0).value = 0 := by
  have hzero : Nat.ofDigitChars 10 ['0'] 0 = 0 := rfl
  rw [shortest, if_pos rfl, value, hzero, Nat.cast_zero, zero_mul]

/-- **The shortest numerals of different words have different values.** -/
theorem value_shortest_injective {f : Format} {b b' : Nat}
    (h : (shortest f b).value = (shortest f b').value) : b = b' := by
  have hpow : (10 : ℚ) ^ (-(f.scale + 1 : Int)) ≠ 0 := zpow_ne_zero _ (by simp)
  have nonzero : ∀ {b : Nat}, b ≠ 0 → (shortest f b).value ≠ 0 := by
    intro b hb hzero
    obtain ⟨n, hn, hv⟩ := value_shortest f hb
    rw [hv] at hzero
    rcases mul_eq_zero.mp hzero with h | h
    · exact Nat.ne_of_gt (pos_of_contains hb hn) (by exact_mod_cast h)
    · exact hpow h
  -- Zero is apart: its numeral is not searched for in an interval.
  by_cases hb : b = 0
  · by_cases hb' : b' = 0
    · rw [hb, hb']
    · rw [hb, value_shortest_zero] at h
      exact absurd h.symm (nonzero hb')
  · by_cases hb' : b' = 0
    · rw [hb', value_shortest_zero] at h
      exact absurd h (nonzero hb)
    · obtain ⟨n, hn, hv⟩ := value_shortest f hb
      obtain ⟨n', hn', hv'⟩ := value_shortest f hb'
      rw [hv, hv'] at h
      have heq : n = n' := by exact_mod_cast mul_right_cancel₀ hpow h
      rw [heq] at hn
      exact readBack_disjoint hn hn'

end Numeral

end Decimal

end ExprTree
