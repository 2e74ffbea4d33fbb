import Mathlib
import ExprTree.Binary.Convert
import ExprTree.Proofs.ReadBack

/-!
# Floats in the order of their words

A machine compares floats by their parts, the exponents first and then the significands. A word lists
the magnitudes in order, so for finite numbers **that comes to comparing the words of the magnitudes**
(`compare_parts`), and with the signs to comparing the numbers that the words stand for
(`doubleOfWord_lt_iff`), which are counted exactly, in units, by `Format.value`.

What takes a word apart is the library's model of floats. `unpacked` is what it makes of a finite word
(`unpack_doubleOfWord`), and nothing after that speaks of bits.
-/

set_option autoImplicit false

namespace ExprTree.Binary

open Float.Model (UnpackedFloat)
open Float.Model.UnpackedFloat (Sign isNaNBits pack_unpack unpack unpackExponent unpackExponent_def
  unpackMantissa unpackMantissa_def unpackSign unpackSign_def)

/-! ## The number of a word -/

/-- An integer from its sign and its magnitude. -/
def oriented (negative : Bool) (n : Nat) : Int := if negative then -(n : Int) else n

/-- The order is one of magnitudes, whatever they are counted in. -/
theorem oriented_lt_iff {g : Nat → Nat} (hg : StrictMono g) (hzero : g 0 = 0)
    (negative negative' : Bool) (m n : Nat) :
    oriented negative (g m) < oriented negative' (g n) ↔
      oriented negative m < oriented negative' n := by
  have hm := hg.lt_iff_lt (a := 0) (b := m)
  have hn := hg.lt_iff_lt (a := 0) (b := n)
  have hmn := hg.lt_iff_lt (a := m) (b := n)
  have hnm := hg.lt_iff_lt (a := n) (b := m)
  cases negative <;> cases negative' <;> simp [oriented] <;> omega

namespace Format

variable (f : Format)

/-- The number that a word stands for, in units. -/
def value (w : Nat) : Int := oriented (f.isNegative w) (f.units (f.magnitude w))

theorem infinity_lt_signBit : f.infinity < f.signBit :=
  Nat.mul_lt_mul_of_pos_right (Nat.sub_lt (Nat.two_pow_pos _) Nat.one_pos) f.binade_pos

theorem value_signed (negative : Bool) {b : Nat} (hb : b < f.signBit) :
    f.value (f.signed negative b) = oriented negative (f.units b) := by
  cases negative with
  | false =>
    have hsign : f.isNegative b = false := decide_eq_false (Nat.not_le_of_lt hb)
    show f.value b = oriented false (f.units b)
    rw [value, hsign, magnitude, Nat.mod_eq_of_lt hb]
  | true =>
    have hsign : f.isNegative (f.signBit + b) = true := decide_eq_true (Nat.le_add_right _ _)
    show f.value (f.signBit + b) = oriented true (f.units b)
    rw [value, hsign, magnitude, Nat.add_mod_left, Nat.mod_eq_of_lt hb]

end Format

theorem double_binade : double.binade = 2 ^ 52 := rfl

theorem double_infinity : double.infinity = 2047 * 2 ^ 52 := rfl

theorem double_signBit : double.signBit = 2 ^ 63 := rfl

/-! ## The parts of a magnitude -/

/-- The significand of a magnitude, with the leading bit that the word leaves out. -/
def significand (b : Nat) : Nat :=
  if b < double.binade then b else double.binade + b % double.binade

/-- The exponent of the last bit of the significand. -/
def exponent (b : Nat) : Int := max (b / double.binade) 1 - 1075

theorem significand_of_lt {b : Nat} (h : b < double.binade) : significand b = b := if_pos h

theorem significand_of_le {b : Nat} (h : double.binade ≤ b) :
    significand b = double.binade + b % double.binade := if_neg (Nat.not_lt_of_le h)

theorem significand_pos {b : Nat} (hb : b ≠ 0) : 0 < significand b := by
  have hpos := double.binade_pos
  unfold significand
  split <;> omega

/-- A greater word has a greater exponent, or the same one and a greater significand. -/
theorem parts_of_lt {b b' : Nat} (h : b < b') :
    exponent b < exponent b' ∨ exponent b = exponent b' ∧ significand b < significand b' := by
  unfold exponent significand
  rw [double_binade]
  split <;> split <;> omega

/-- **A comparison of parts is a comparison of words.** -/
theorem compare_parts (b b' : Nat) :
    (compare (exponent b) (exponent b')).then (compare (significand b) (significand b')) =
      compare b b' := by
  rcases Nat.lt_trichotomy b b' with h | rfl | h
  · rw [Nat.compare_eq_lt.mpr h, Ordering.then_eq_lt, Int.compare_eq_lt, Int.compare_eq_eq,
      Nat.compare_eq_lt]
    exact parts_of_lt h
  · simp
  · rw [Nat.compare_eq_gt.mpr h, Ordering.then_eq_gt, Int.compare_eq_gt, Int.compare_eq_eq,
      Nat.compare_eq_gt]
    exact (parts_of_lt h).imp_right fun parts => ⟨parts.1.symm, parts.2⟩

/-! ## Taking a finite word apart -/

def sign (negative : Bool) : Sign := if negative then .negative else .positive

/-- The parts of a finite number. -/
def unpacked (negative : Bool) (b : Nat) : UnpackedFloat :=
  if h : b = 0 then .zero (sign negative)
  else .finite (sign negative) (significand b) (exponent b) (significand_pos h)

section

variable {v : BitVec Float.Model.Format.binary64.numBits} {negative : Bool} {b : Nat}

/-- The three fields of a finite number. -/
theorem fields_of_signed (hb : b < double.infinity) (hv : v.toNat = double.signed negative b) :
    (unpackExponent v).toNat = b / 2 ^ 52 ∧ (unpackMantissa v).toNat = b % 2 ^ 52 ∧
      Sign.ofBitVec (unpackSign v) = sign negative := by
  rw [double_infinity] at hb
  rw [Format.signed, double_signBit] at hv
  refine ⟨?_, ?_, ?_⟩
  · rw [unpackExponent_def, BitVec.extractLsb'_toNat, hv, Nat.shiftRight_eq_div_pow]
    change _ / 2 ^ 52 % 2 ^ 11 = _
    split <;> omega
  · rw [unpackMantissa_def, BitVec.extractLsb'_toNat, hv, Nat.shiftRight_zero]
    change _ % 2 ^ 52 = _
    split <;> omega
  · have hsign : (unpackSign v).toNat = if negative then 1 else 0 := by
      rw [unpackSign_def, BitVec.extractLsb'_toNat, hv, Nat.shiftRight_eq_div_pow]
      change _ / 2 ^ 63 % 2 = _
      split <;> omega
    cases negative with
    | false =>
      have hbit : unpackSign v = 0#1 := BitVec.eq_of_toNat_eq hsign
      rw [hbit]
      rfl
    | true =>
      have hbit : unpackSign v = 1#1 := BitVec.eq_of_toNat_eq hsign
      rw [hbit]
      rfl

theorem toNat_leading {n : Nat} (m : BitVec n) : (1#1 ++ m).toNat = 2 ^ n + m.toNat := by
  rw [BitVec.toNat_append, ← Nat.shiftLeft_add_eq_or_of_lt m.isLt, Nat.shiftLeft_eq]
  simp

theorem exponent_ne_ones (hb : b < double.infinity) (hv : v.toNat = double.signed negative b) :
    unpackExponent v ≠ -1#11 := by
  intro h
  have hfield : b / 2 ^ 52 = 2047 :=
    (fields_of_signed hb hv).1.symm.trans (congrArg BitVec.toNat h)
  rw [double_infinity] at hb
  omega

theorem unpack_signed (hb : b < double.infinity) (hv : v.toNat = double.signed negative b) :
    unpack .binary64 v = unpacked negative b := by
  obtain ⟨he, hm, hs⟩ := fields_of_signed hb hv
  have hbias : Float.Model.Format.binary64.exponentBias = 1023 := rfl
  have hlow : unpackExponent v = 0#11 ↔ b < 2 ^ 52 := by
    rw [← BitVec.toNat_inj, he]
    change b / 2 ^ 52 = 0 ↔ _
    omega
  have hzero : unpackMantissa v = 0#52 ↔ b % 2 ^ 52 = 0 := by
    rw [← BitVec.toNat_inj, hm]
    rfl
  simp only [unpack, unpacked]
  rw [hs, if_neg (exponent_ne_ones hb hv)]
  by_cases hb0 : b = 0
  · rw [if_pos (hlow.mpr (by omega)), dif_pos (hzero.mpr (by omega)), dif_pos hb0]
  · rw [dif_neg hb0]
    by_cases hb1 : b < 2 ^ 52
    · rw [if_pos (hlow.mpr hb1), dif_neg (mt hzero.mp (by omega))]
      simp only [UnpackedFloat.finite.injEq, true_and, hm, he, hbias, significand_of_lt hb1,
        exponent, double_binade]
      omega
    · rw [if_neg (mt hlow.mp hb1)]
      simp only [UnpackedFloat.finite.injEq, true_and, toNat_leading, hm, he, hbias,
        significand_of_le (Nat.le_of_not_lt hb1), exponent, double_binade]
      omega

theorem pack_unpack_signed (hb : b < double.infinity) (hv : v.toNat = double.signed negative b) :
    UnpackedFloat.pack .binary64 (unpack .binary64 v) = v := by
  have hnumber : ¬ isNaNBits v := fun h => exponent_ne_ones hb hv (of_decide_eq_true h).1
  rw [pack_unpack, if_neg hnumber]

end

/-- **A finite word is taken for the number that it stands for.** -/
theorem unpack_doubleOfWord (negative : Bool) {b : Nat} (hb : b < double.infinity) :
    (doubleOfWord (double.signed negative b)).toFloat.toModel.unpack = unpacked negative b := by
  have hv : (UInt64.ofNat (double.signed negative b)).toBitVec.toNat =
      double.signed negative b := by
    rw [double_infinity] at hb
    rw [UInt64.toNat_toBitVec, UInt64.toNat_ofNat', Nat.mod_eq_of_lt]
    rw [Format.signed, double_signBit]
    split <;> omega
  exact (congrArg (unpack .binary64) (pack_unpack_signed hb hv)).trans (unpack_signed hb hv)

/-! ## The order of finite floats -/

theorem lt_iff_unpack (x y : F64) :
    x < y ↔ x.toFloat.toModel.unpack.lt y.toFloat.toModel.unpack = true := decide_eq_true_iff

/-- Between numbers of one sign the words of their magnitudes decide, and the signs do otherwise. -/
theorem lt_unpacked_iff (negative negative' : Bool) (b b' : Nat) :
    (unpacked negative b).lt (unpacked negative' b') = true ↔
      oriented negative b < oriented negative' b' := by
  unfold unpacked oriented
  by_cases hb : b = 0 <;> by_cases hb' : b' = 0
  · rw [dif_pos hb, dif_pos hb', hb, hb']
    cases negative <;> cases negative' <;> simp [UnpackedFloat.lt, UnpackedFloat.compare]
  · rw [dif_pos hb, dif_neg hb', hb]
    cases negative <;> cases negative' <;>
      simp [sign, UnpackedFloat.lt, UnpackedFloat.compare] <;> omega
  · rw [dif_neg hb, dif_pos hb', hb']
    cases negative <;> cases negative' <;>
      simp [sign, UnpackedFloat.lt, UnpackedFloat.compare] <;> omega
  · rw [dif_neg hb, dif_neg hb']
    cases negative with
    | false =>
      cases negative' with
      | false =>
        show (some (Ordering.then _ _) == some .lt) = true ↔ _
        rw [compare_parts]
        simp [Nat.compare_eq_lt]
      | true =>
        have hge : ¬ (b : Int) < -(b' : Int) := by omega
        exact iff_of_false Bool.false_ne_true hge
    | true =>
      cases negative' with
      | false =>
        have hlt : -(b : Int) < (b' : Int) := by omega
        exact iff_of_true rfl hlt
      | true =>
        show (some (Ordering.swap (Ordering.then _ _)) == some .lt) = true ↔ _
        rw [compare_parts]
        simp [Nat.compare_eq_gt]

/-- **Finite floats are in the order of the numbers that their words stand for.** -/
theorem doubleOfWord_lt_iff (negative negative' : Bool) {b b' : Nat} (hb : b < double.infinity)
    (hb' : b' < double.infinity) :
    doubleOfWord (double.signed negative b) < doubleOfWord (double.signed negative' b') ↔
      double.value (double.signed negative b) < double.value (double.signed negative' b') := by
  have hsign := double.infinity_lt_signBit
  rw [lt_iff_unpack, unpack_doubleOfWord negative hb, unpack_doubleOfWord negative' hb', lt_unpacked_iff,
    double.value_signed negative (Nat.lt_trans hb hsign),
    double.value_signed negative' (Nat.lt_trans hb' hsign)]
  exact (oriented_lt_iff double.units_strictMono rfl negative negative' b b').symm

end ExprTree.Binary
