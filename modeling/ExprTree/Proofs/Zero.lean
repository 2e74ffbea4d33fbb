import ExprTree.Op.Compute
import ExprTree.Proofs.FloatOrder
import ExprTree.Proofs.Nearest

/-!
# Zeros

A division looks at its divisor after it has become a 64-bit float. Among floats there are two that
equal zero (`Binary.beq_zero_iff`), and **nothing else becomes one of them**: a quotient is rounded to
zero only up to one half of a unit (`Binary.Format.nearest_eq_zero_iff`), and neither an integer nor a
magnitude of the narrower format is so small. So it makes no difference where the zero is looked for
(`Number.toF64_beq_zero_iff`).
-/

set_option autoImplicit false

namespace ExprTree

namespace Binary

open Float.Model.UnpackedFloat (Sign beq_iff_ne_notANumber_and_eq isNaNBits isNaNBits_packedNaN pack
  pack_unpack packedZero unpack unpack_eq_zero_iff_of_valid)

/-! ## Words of zero -/

namespace Format

variable {f : Format}

theorem magnitude_eq_zero_iff {w : Nat} (hw : w < 2 * f.signBit) :
    f.magnitude w = 0 ↔ w = 0 ∨ w = f.signBit := by
  unfold magnitude
  rcases Nat.lt_or_ge w f.signBit with h | h
  · rw [Nat.mod_eq_of_lt h]
    omega
  · rw [Nat.mod_eq_sub_mod h, Nat.mod_eq_of_lt (by omega)]
    omega

theorem units_zero : f.units 0 = 0 := f.units_of_lt f.binade_pos

theorem units_one : f.units 1 = 1 := by
  rcases Nat.lt_or_ge 1 f.binade with h | h
  · exact f.units_of_lt h
  · have hone : f.binade = 1 := Nat.le_antisymm h f.binade_pos
    have hfirst := f.units_first 0
    rwa [hone] at hfirst

theorem units_eq_zero_iff {b : Nat} : f.units b = 0 ↔ b = 0 := by
  rw [← f.units_strictMono.injective.eq_iff (a := b), units_zero]

/-- **What is a whole number of a greater unit is not rounded to zero.** -/
theorem nearest_eq_zero_iff (hp : 0 < f.precision) (hf : 0 < f.infinity) {m j k : Nat} (h : j ≤ k) :
    f.nearest (m * 2 ^ k) (2 ^ j) = 0 ↔ m = 0 := by
  have hpos : 0 < 2 ^ j := Nat.two_pow_pos j
  have hhalf : f.units 0 + f.units (0 + 1) = 1 := by rw [units_zero, units_one]
  constructor
  · intro hnear
    by_contra hm
    have hle := le_of_nearest_lt hp hpos (Nat.lt_one_iff.mpr hnear) hf
    rw [hhalf, Nat.one_mul] at hle
    have hunit : 2 ^ j ≤ 2 ^ k := Nat.pow_le_pow_right Nat.two_pos h
    have hmul : 2 ^ k ≤ m * 2 ^ k := Nat.le_mul_of_pos_left _ (Nat.pos_of_ne_zero hm)
    omega
  · rintro rfl
    by_contra hnear
    have hle := le_of_lt_nearest hp hpos (Nat.pos_of_ne_zero hnear)
    rw [hhalf, Nat.one_mul, Nat.zero_mul] at hle
    exact Nat.not_le_of_lt hpos hle

/-- The words of magnitudes that come out of a conversion. -/
def Converted (f : Format) (b : Nat) : Prop := b ≤ f.infinity ∨ b = f.nan

/-- An integer is rounded to zero only if it is zero. -/
theorem exists_ofInt (hp : 0 < f.precision) (hf : 0 < f.infinity) (n : Int) :
    ∃ b, f.Converted b ∧ f.ofInt n = f.signed (decide (n < 0)) b ∧ (b = 0 ↔ n = 0) := by
  refine ⟨_, Or.inl (nearest_le_infinity _ _), rfl, ?_⟩
  exact (nearest_eq_zero_iff hp hf (Nat.zero_le f.scale)).trans Int.natAbs_eq_zero

/-- A float that is taken to a finer format becomes zero only if it is zero. -/
theorem exists_recode {g : Format} (hp : 0 < g.precision) (hg : 0 < g.infinity)
    (hscale : f.scale ≤ g.scale) (hf : 0 < f.infinity) (w : Nat) :
    ∃ b, g.Converted b ∧ f.recode g w = g.signed (f.isNegative w) b ∧
      (b = 0 ↔ f.magnitude w = 0) := by
  have hnan : 0 < g.nan := Nat.add_pos_left hg _
  refine ⟨_, ?_, rfl, ?_⟩
  · split
    · exact Or.inl (nearest_le_infinity _ _)
    · split
      · exact Or.inl (Nat.le_refl _)
      · exact Or.inr rfl
  · split
    · exact (nearest_eq_zero_iff hp hg hscale).trans units_eq_zero_iff
    · split <;> omega

end Format

/-! ## Floats that equal zero -/

theorem beq_zero_iff_unpack (x : F64) :
    x == doubleOfWord 0 ↔ ∃ s, x.toFloat.toModel.unpack = .zero s := by
  show x.toFloat.toModel.unpack.beq (.zero .positive) = true ↔ _
  rw [beq_iff_ne_notANumber_and_eq]
  constructor
  · intro ⟨_, _, h⟩
    rcases h with h | ⟨h, -⟩ | ⟨h, -⟩
    · exact ⟨_, h⟩
    · exact ⟨_, h⟩
    · exact ⟨_, h⟩
  · intro ⟨s, h⟩
    cases s <;> simp [h]

/-- Bits are taken for a zero only if they are its bits. -/
theorem unpack_eq_zero_iff (x : F64) (s : Sign) :
    x.toFloat.toModel.unpack = .zero s ↔ wordOfDouble x = (packedZero .binary64 s).toNat := by
  have hbits : x.toFloat.toModel.toBits.toBitVec =
      pack .binary64 (unpack .binary64 x.bits.toBitVec) := rfl
  refine (unpack_eq_zero_iff_of_valid x.toFloat.toModel.valid).trans ?_
  refine Iff.trans ?_ BitVec.toNat_inj.symm
  show x.toFloat.toModel.toBits.toBitVec = _ ↔ x.bits.toBitVec = _
  rw [hbits, pack_unpack]
  split
  · next hnan =>
    have hzero : ∀ v, isNaNBits v → v ≠ packedZero .binary64 s := by
      rintro v hv rfl
      cases s <;> exact absurd hv (by decide)
    exact iff_of_false (hzero _ isNaNBits_packedNaN) (hzero _ hnan)
  · rfl

/-- **The floats that equal zero are the two zeros.** -/
theorem beq_zero_iff (x : F64) :
    x == doubleOfWord 0 ↔ wordOfDouble x = 0 ∨ wordOfDouble x = double.signBit := by
  rw [beq_zero_iff_unpack]
  constructor
  · intro ⟨s, hs⟩
    cases s with
    | positive => exact Or.inl ((unpack_eq_zero_iff x .positive).mp hs)
    | negative => exact Or.inr ((unpack_eq_zero_iff x .negative).mp hs)
  · intro h
    rcases h with h | h
    · exact ⟨.positive, (unpack_eq_zero_iff x .positive).mpr h⟩
    · exact ⟨.negative, (unpack_eq_zero_iff x .negative).mpr h⟩

theorem doubleOfWord_beq_zero_iff (negative : Bool) {b : Nat} (hb : double.Converted b) :
    doubleOfWord (double.signed negative b) == doubleOfWord 0 ↔ b = 0 := by
  rcases hb with hb | rfl
  · rcases Nat.lt_or_eq_of_le hb with h | rfl
    · rw [beq_zero_iff_unpack, unpack_doubleOfWord negative h]
      unfold unpacked
      split <;> simp [*]
    · cases negative <;> decide
  · cases negative <;> decide

/-! ## Conversions -/

theorem doubleOfInt_beq_zero_iff (n : Int) : doubleOfInt n == doubleOfWord 0 ↔ n = 0 := by
  obtain ⟨b, hb, hword, hzero⟩ :=
    Format.exists_ofInt (f := double) (by decide) (by decide) n
  rw [doubleOfInt, hword, doubleOfWord_beq_zero_iff _ hb, hzero]

theorem widen_beq_zero_iff (x : F32) :
    widen x == doubleOfWord 0 ↔ wordOfSingle x = 0 ∨ wordOfSingle x = single.signBit := by
  obtain ⟨b, hb, hword, hzero⟩ := Format.exists_recode (f := single) (g := double)
    (by decide) (by decide) (by decide) (by decide) (wordOfSingle x)
  rw [widen, hword, doubleOfWord_beq_zero_iff _ hb, hzero,
    Format.magnitude_eq_zero_iff x.bits.toNat_lt]

end Binary

/-! ## Numbers -/

namespace Number

open Binary

/-- The number is the zero of an integer type, or one of the two zeros of a type of floats. -/
def IsZero : Number → Prop
  | f64 x => wordOfDouble x = 0 ∨ wordOfDouble x = double.signBit
  | f32 x => wordOfSingle x = 0 ∨ wordOfSingle x = single.signBit
  | i64 n => n = 0
  | i32 n => n = 0

instance : DecidablePred IsZero
  | f64 x => inferInstanceAs (Decidable (wordOfDouble x = 0 ∨ wordOfDouble x = double.signBit))
  | f32 x => inferInstanceAs (Decidable (wordOfSingle x = 0 ∨ wordOfSingle x = single.signBit))
  | i64 n => inferInstanceAs (Decidable (n = 0))
  | i32 n => inferInstanceAs (Decidable (n = 0))

/-- **A number becomes a zero only if it is one.** -/
theorem toF64_beq_zero_iff (y : Number) : y.toF64 == doubleOfWord 0 ↔ y.IsZero := by
  cases y with
  | f64 x => exact beq_zero_iff x
  | f32 x => exact widen_beq_zero_iff x
  | i64 n =>
    rw [toF64, doubleOfInt_beq_zero_iff, ← Int64.toInt_zero, Int64.toInt_inj]
    rfl
  | i32 n =>
    rw [toF64, doubleOfInt_beq_zero_iff, ← Int32.toInt_zero, Int32.toInt_inj]
    rfl

end Number

/-- What is not a number is no zero. -/
example : ¬ (Number.f64 (Binary.doubleOfWord Binary.double.nan)).IsZero := by decide

/-- So the fallback is for the numbers that are zero before any conversion. -/
theorem guardedQuotient_eq (p : F64) (x y : Number) :
    guardedQuotient p x y = if y.IsZero then p else x.toF64 / y.toF64 := by
  unfold guardedQuotient
  split
  · next h => rw [if_pos (y.toF64_beq_zero_iff.mp h)]
  · next h => rw [if_neg (mt y.toF64_beq_zero_iff.mpr h)]

end ExprTree
