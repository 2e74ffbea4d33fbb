/-!
# Binary interchange formats

A format lists its magnitudes in order: word `0` is zero, word `1` the smallest positive magnitude,
and every next word the next magnitude, up to the word `infinity`. The words above that one are
not numbers. All magnitudes are whole multiples of the smallest, so a magnitude is a natural number
of *units*, and no fraction is needed to speak about one exactly:

* `units b` is the magnitude of word `b`; within a *binade* neighbouring words differ by one step,
  and the step doubles from each binade to the next;
* `nearest a b` is the word whose magnitude is nearest to `a / b` units, a tie going to the even
  word.

A signed number is a magnitude word with `signBit` added when it is negative.
-/

set_option autoImplicit false

namespace ExprTree.Binary

/-! ## Rounding a quotient -/

/-- The integer nearest to `a / b`; halfway between two integers, the even one. -/
def roundDiv (a b : Nat) : Nat :=
  if 2 * (a % b) < b then a / b
  else if b < 2 * (a % b) then a / b + 1
  else a / b + a / b % 2

theorem roundDiv_below_half {a b : Nat} (h : 2 * (a % b) < b) : roundDiv a b = a / b := by
  simp [roundDiv, h]

theorem roundDiv_above_half {a b : Nat} (h : b < 2 * (a % b)) : roundDiv a b = a / b + 1 := by
  simp [roundDiv, h, Nat.lt_asymm h]

theorem roundDiv_half {a b : Nat} (h : 2 * (a % b) = b) :
    roundDiv a b = a / b + a / b % 2 := by
  simp [roundDiv, h]

/-! ## Formats -/

/-- A binary interchange format: the length of the significand, its hidden bit included, and the
    width of the exponent field. -/
structure Format where
  precision : Nat
  exponentBits : Nat
deriving DecidableEq, Repr

def single : Format := ⟨24, 8⟩

def double : Format := ⟨53, 11⟩

namespace Format

variable (f : Format)

/-- The number of words that share one step width. -/
def binade : Nat := Nat.pow 2 (f.precision - 1)

/-- The word of the infinite magnitude. -/
def infinity : Nat := (Nat.pow 2 f.exponentBits - 1) * f.binade

/-- The word of what is no number, where it comes out of a computation. -/
def nan : Nat := f.infinity + Nat.pow 2 (f.precision - 2)

/-- What a negative number adds to the word of its magnitude. -/
def signBit : Nat := Nat.pow 2 f.exponentBits * f.binade

/-- The smallest positive magnitude, one unit, is `2 ^ (-scale)`. -/
def scale : Nat := Nat.pow 2 (f.exponentBits - 1) + f.precision - 3

/-- The magnitude of word `b` in units. The words below the second binade count units one by
    one; from there on each binade starts at a power of two and doubles the step. -/
def units (b : Nat) : Nat :=
  if b < f.binade then b
  else (f.binade + b % f.binade) * Nat.pow 2 (b / f.binade - 1)

/-- The word nearest to `a / b` units, a tie going to the even word. From halfway between the
    greatest finite magnitude and the next power of two on it is `infinity`. -/
def nearest (a b : Nat) : Nat :=
  -- what is left after dropping has its leading bit in place: it counts one binade by itself
  let dropped := (a / b).log2 + 1 - f.precision
  min f.infinity (dropped * f.binade + roundDiv a (b * Nat.pow 2 dropped))

/-- The word of the magnitude of a signed word. -/
def magnitude (w : Nat) : Nat := w % f.signBit

/-- A word carries the sign bit. -/
def isNegative (w : Nat) : Bool := decide (f.signBit ≤ w)

/-- A signed word from its sign and the word of its magnitude. -/
def signed (negative : Bool) (b : Nat) : Nat := if negative then f.signBit + b else b

/-- The signed word nearest to an integer. -/
def ofInt (n : Int) : Nat :=
  f.signed (decide (n < 0)) (f.nearest (n.natAbs * Nat.pow 2 f.scale) 1)

/-- The signed word of format `g` nearest to a signed word of format `f`. Infinities stay
    infinite, and what is not a number stays none. -/
def recode (g : Format) (w : Nat) : Nat :=
  let b := f.magnitude w
  g.signed (f.isNegative w) <|
    if b < f.infinity then g.nearest (f.units b * Nat.pow 2 g.scale) (Nat.pow 2 f.scale)
    else if b = f.infinity then g.infinity
    else g.nan

end Format

end ExprTree.Binary
