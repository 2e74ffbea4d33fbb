import Mathlib.Tactic.Linarith
import Mathlib.Tactic.Ring
import ExprTree.Proofs.ReadBack

/-!
# Rounding to the nearest word

A word is what a quotient is rounded to only if the quotient is not beyond the midpoint to either
neighbour (`Format.le_of_lt_nearest`, `Format.le_of_nearest_lt`). **All else follows from that law**, as
midpoints are in the order of the words: a magnitude is rounded to its own word
(`Format.nearest_units`), and rounding keeps the order (`Format.nearest_mono`). Where ties go does not
matter for either.

The law is read off the two steps of rounding. First as many binary digits are dropped as the
significand has no room for, then what is left is rounded to an integer, and the word counts from the
binade that was reached by the first step. A rounded integer may be the first of the next binade, and
the count is right for that one too (`Format.units_reached`).
-/

set_option autoImplicit false

namespace ExprTree.Binary

/-! ## Rounding to an integer -/

/-- **The rounded quotient is off by one half at most.** -/
theorem roundDiv_bounds (a : Nat) {b : Nat} (hb : 0 < b) :
    2 * a ≤ (2 * roundDiv a b + 1) * b ∧ 2 * roundDiv a b * b ≤ 2 * a + b := by
  have ha : a = b * (a / b) + a % b := (Nat.div_add_mod a b).symm
  have hmod : a % b < b := Nat.mod_lt a hb
  generalize hq : a / b = q at ha
  generalize hr : a % b = r at ha hmod
  have hround : roundDiv a b = q ∧ 2 * r ≤ b ∨ roundDiv a b = q + 1 ∧ b ≤ 2 * r := by
    rcases Nat.lt_trichotomy (2 * r) b with h | h | h
    · exact Or.inl ⟨by rw [roundDiv_below_half (hr ▸ h), hq], by omega⟩
    · have hhalf := roundDiv_half (hr ▸ h : 2 * (a % b) = b)
      rw [hq] at hhalf
      rcases Nat.mod_two_eq_zero_or_one q with he | he
      · exact Or.inl ⟨by rw [hhalf, he, Nat.add_zero], by omega⟩
      · exact Or.inr ⟨by rw [hhalf, he], by omega⟩
    · exact Or.inr ⟨by rw [roundDiv_above_half (hr ▸ h), hq], by omega⟩
  rcases hround with ⟨h, hr⟩ | ⟨h, hr⟩
  · rw [h, ha]
    constructor <;> nlinarith
  · rw [h, ha]
    constructor <;> nlinarith

theorem roundDiv_le {a b c : Nat} (hb : 0 < b) (h : a < c * b) : roundDiv a b ≤ c := by
  have hlaw := (roundDiv_bounds a hb).2
  by_contra hc
  have hmul : (c + 1) * b ≤ roundDiv a b * b := Nat.mul_le_mul_right b (by omega)
  nlinarith

theorem le_roundDiv {a b c : Nat} (hb : 0 < b) (h : c * b ≤ a) : c ≤ roundDiv a b := by
  have hlaw := (roundDiv_bounds a hb).1
  by_contra hc
  have hmul : (roundDiv a b + 1) * b ≤ c * b := Nat.mul_le_mul_right b (by omega)
  nlinarith

/-! ## Rounding to a word -/

namespace Format

theorem binade_eq (f : Format) : f.binade = 2 ^ (f.precision - 1) := rfl

variable {f : Format}

/-- The word that stands `r` words after the start of binade `d`, where the binades are counted from
    the one of step one. It may be the first of the next binade. -/
theorem units_reached {d r : Nat} (hr : r ≤ 2 * f.binade) (hd : d = 0 ∨ f.binade ≤ r) :
    f.units (d * f.binade + r) = r * 2 ^ d := by
  rcases Nat.lt_or_ge r f.binade with hlow | hge
  · obtain rfl : d = 0 := hd.resolve_right (Nat.not_le_of_lt hlow)
    rw [Nat.zero_mul, Nat.zero_add, f.units_of_lt hlow, Nat.pow_zero, Nat.mul_one]
  · obtain ⟨s, rfl⟩ := Nat.exists_eq_add_of_le hge
    rcases Nat.lt_or_ge s f.binade with hs | hs
    · have hword : d * f.binade + (f.binade + s) = f.binade * (d + 1) + s := by ring
      rw [hword, f.units_of_binade d hs]
    · obtain rfl : s = f.binade := by omega
      have hword : d * f.binade + (f.binade + f.binade) = f.binade * (d + 1 + 1) := by ring
      rw [hword, f.units_first]
      ring

/-- What the significand has room for is a magnitude, whatever power of two it is multiplied by. -/
theorem exists_units {r : Nat} (hr : r ≤ 2 * f.binade) (d : Nat) : ∃ w, f.units w = r * 2 ^ d := by
  induction d generalizing r with
  | zero => exact ⟨0 * f.binade + r, units_reached hr (Or.inl rfl)⟩
  | succ d ih =>
    rcases Nat.lt_or_ge r f.binade with hlow | hge
    · -- there is room for another bit
      obtain ⟨w, hw⟩ := ih (by omega : 2 * r ≤ 2 * f.binade)
      refine ⟨w, hw.trans ?_⟩
      ring
    · exact ⟨(d + 1) * f.binade + r, units_reached hr (Or.inr hge)⟩

/-- What rounding is made of: a number of dropped digits and an integer, which the significand has
    room for and which fills it if digits were dropped. -/
structure Reaches (f : Format) (a b d r : Nat) : Prop where
  rounded : r = roundDiv a (b * 2 ^ d)
  fits : r ≤ 2 * f.binade
  filled : d = 0 ∨ f.binade * (b * 2 ^ d) ≤ a

theorem exists_reaches (hp : 0 < f.precision) (a : Nat) {b : Nat} (hb : 0 < b) :
    ∃ d r, f.Reaches a b d r ∧ f.nearest a b = min f.infinity (d * f.binade + r) := by
  refine ⟨(a / b).log2 + 1 - f.precision, _, ⟨rfl, ?_, ?_⟩, rfl⟩
  · -- the quotient has as many binary digits as are kept or dropped
    have hdigits : a / b < 2 ^ ((a / b).log2 + 1) := Nat.lt_log2_self
    have hkept : 2 ^ ((a / b).log2 + 1) ≤
        2 * f.binade * 2 ^ ((a / b).log2 + 1 - f.precision) := by
      have htwo : 2 * f.binade = 2 ^ f.precision := by
        rw [f.binade_eq, ← Nat.pow_succ', Nat.succ_eq_add_one, Nat.sub_add_cancel hp]
      rw [htwo, ← Nat.pow_add]
      exact Nat.pow_le_pow_right (by decide) (by omega)
    refine roundDiv_le (Nat.mul_pos hb (Nat.two_pow_pos _)) ?_
    have hlt := (Nat.div_lt_iff_lt_mul hb).mp (Nat.lt_of_lt_of_le hdigits hkept)
    calc a < _ := hlt
      _ = _ := by ring
  · rcases Nat.eq_zero_or_pos ((a / b).log2 + 1 - f.precision) with hd | hd
    · exact Or.inl hd
    · right
      have hq : a / b ≠ 0 := by
        intro hq
        rw [hq, Nat.log2_zero] at hd
        omega
      have hfull : f.binade * 2 ^ ((a / b).log2 + 1 - f.precision) ≤ a / b := by
        have hexp : f.precision - 1 + ((a / b).log2 + 1 - f.precision) = (a / b).log2 := by omega
        rw [f.binade_eq, ← Nat.pow_add, hexp]
        exact Nat.log2_self_le hq
      have hle := (Nat.le_div_iff_mul_le hb).mp hfull
      calc _ = _ := by ring
        _ ≤ a := hle

namespace Reaches

variable {a b d r : Nat}

theorem le (h : f.Reaches a b d r) (hb : 0 < b) (hfull : f.binade * (b * 2 ^ d) ≤ a) :
    f.binade ≤ r := by
  rw [h.rounded]
  exact le_roundDiv (Nat.mul_pos hb (Nat.two_pow_pos d)) hfull

theorem low (h : f.Reaches a b d r) (hb : 0 < b) : d = 0 ∨ f.binade ≤ r :=
  h.filled.imp_right (h.le hb)

theorem units (h : f.Reaches a b d r) (hb : 0 < b) :
    f.units (d * f.binade + r) = r * 2 ^ d :=
  units_reached h.fits (h.low hb)

/-- The word is not reached from beyond the midpoint to the word before. -/
theorem above (h : f.Reaches a b d r) (hb : 0 < b) {w : Nat} (hw : w + 1 = d * f.binade + r) :
    (f.units w + f.units (w + 1)) * b ≤ 2 * a := by
  have hbound := (roundDiv_bounds a (Nat.mul_pos hb (Nat.two_pow_pos d))).2
  rw [← h.rounded] at hbound
  have hunits := h.units hb
  rw [← hw] at hunits
  have hstep : f.units w ≤ f.units (w + 1) := f.units_strictMono.monotone (Nat.le_succ w)
  by_cases hfirst : f.binade * (b * 2 ^ d) ≤ a ∧ r = f.binade
  · -- the first word of a binade: the quotient is not below it
    obtain ⟨hfull, rfl⟩ := hfirst
    calc (f.units w + f.units (w + 1)) * b
        ≤ (f.units (w + 1) + f.units (w + 1)) * b :=
          Nat.mul_le_mul_right b (Nat.add_le_add_right hstep _)
      _ = 2 * (f.binade * (b * 2 ^ d)) := by rw [hunits]; ring
      _ ≤ 2 * a := Nat.mul_le_mul_left 2 hfull
  · have hlow := h.low hb
    obtain ⟨s, rfl⟩ : ∃ s, r = s + 1 := by
      refine ⟨r - 1, (Nat.sub_add_cancel ?_).symm⟩
      have hpos := f.binade_pos
      rcases hlow with rfl | hlow <;> omega
    have hw' : w = d * f.binade + s := by omega
    have hprev : f.units w = s * 2 ^ d := by
      rw [hw']
      refine units_reached (by have := h.fits; omega) ?_
      refine h.filled.imp_right fun hfull => Nat.le_of_lt_succ ?_
      exact Nat.lt_of_le_of_ne (h.le hb hfull) fun he => hfirst ⟨hfull, he.symm⟩
    rw [hprev, hunits]
    nlinarith

/-- The word is not reached from beyond the midpoint to the next word. -/
theorem below (h : f.Reaches a b d r) (hb : 0 < b) :
    2 * a ≤ (f.units (d * f.binade + r) + f.units (d * f.binade + r + 1)) * b := by
  have hbound := (roundDiv_bounds a (Nat.mul_pos hb (Nat.two_pow_pos d))).1
  rw [← h.rounded] at hbound
  have hnext : (r + 1) * 2 ^ d ≤ f.units (d * f.binade + r + 1) := by
    rcases Nat.lt_or_ge r (2 * f.binade) with hr | hr
    · rw [Nat.add_assoc, units_reached hr ((h.low hb).imp_right (Nat.le_succ_of_le ·))]
    · -- the next word is the second of its binade
      have hpos := f.binade_pos
      have he : r = 2 * f.binade := Nat.le_antisymm h.fits hr
      have hword : d * f.binade + r + 1 = (d + 1) * f.binade + (f.binade + 1) := by
        rw [he]
        ring
      rw [hword, units_reached (by omega) (Or.inr (Nat.le_succ _)), Nat.pow_succ', ← Nat.mul_assoc]
      exact Nat.mul_le_mul_right _ (by omega)
  calc 2 * a ≤ (2 * r + 1) * (b * 2 ^ d) := hbound
    _ = (r * 2 ^ d + (r + 1) * 2 ^ d) * b := by ring
    _ ≤ _ := by
      rw [h.units hb]
      exact Nat.mul_le_mul_right b (Nat.add_le_add_left hnext _)

end Reaches

theorem nearest_le_infinity (a b : Nat) : f.nearest a b ≤ f.infinity := Nat.min_le_left _ _

/-- **A quotient is rounded above a word only from the midpoint to the next word on.** -/
theorem le_of_lt_nearest (hp : 0 < f.precision) {a b w : Nat} (hb : 0 < b)
    (h : w < f.nearest a b) : (f.units w + f.units (w + 1)) * b ≤ 2 * a := by
  obtain ⟨d, r, hreach, hnear⟩ := exists_reaches hp a hb
  have hlt : w < d * f.binade + r := Nat.lt_of_lt_of_le h (hnear ▸ Nat.min_le_right _ _)
  refine Nat.le_trans (Nat.mul_le_mul_right b ?_)
    (hreach.above hb (Nat.sub_add_cancel (Nat.one_le_of_lt hlt)))
  exact Nat.add_le_add (f.units_strictMono.monotone (by omega))
    (f.units_strictMono.monotone (by omega))

/-- **A quotient is rounded below a word only up to the midpoint to the word before.** -/
theorem le_of_nearest_lt (hp : 0 < f.precision) {a b w : Nat} (hb : 0 < b)
    (h : f.nearest a b < w + 1) (hw : w + 1 ≤ f.infinity) :
    2 * a ≤ (f.units w + f.units (w + 1)) * b := by
  obtain ⟨d, r, hreach, hnear⟩ := exists_reaches hp a hb
  rw [hnear] at h
  have hlt : d * f.binade + r < w + 1 := by omega
  refine Nat.le_trans (hreach.below hb) (Nat.mul_le_mul_right b ?_)
  exact Nat.add_le_add (f.units_strictMono.monotone (by omega))
    (f.units_strictMono.monotone (by omega))

/-- **A magnitude is rounded to its own word.** -/
theorem nearest_units (hp : 0 < f.precision) {w : Nat} (hw : w ≤ f.infinity) :
    f.nearest (f.units w) 1 = w := by
  rcases Nat.lt_trichotomy (f.nearest (f.units w) 1) w with h | h | h
  · obtain ⟨v, rfl⟩ : ∃ v, w = v + 1 := ⟨w - 1, by omega⟩
    have hle := le_of_nearest_lt hp Nat.one_pos h hw
    have hlt := f.units_lt_succ v
    omega
  · exact h
  · have hle := le_of_lt_nearest hp Nat.one_pos h
    have hlt := f.units_lt_succ w
    omega

/-- **Rounding keeps the order.** -/
theorem nearest_mono (hp : 0 < f.precision) {a a' b : Nat} (hb : 0 < b) (h : a ≤ a') :
    f.nearest a b ≤ f.nearest a' b := by
  by_contra hlt
  have hlt : f.nearest a' b < f.nearest a b := Nat.lt_of_not_le hlt
  have habove := le_of_lt_nearest hp hb hlt
  have hbelow := le_of_nearest_lt hp hb (Nat.lt_succ_self _)
    (Nat.le_trans hlt (nearest_le_infinity a b))
  obtain rfl : a = a' := by omega
  exact Nat.lt_irrefl _ hlt

end Format

end ExprTree.Binary
