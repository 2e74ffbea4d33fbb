import ExprTree.Binary.Format
import ExprTree.Decimal.Shortest

/-!
# Decimal numerals of binary magnitudes

A `Numeral` is a string of decimal digits and the power of ten that the first of them stands for. The
*shortest* numeral of a magnitude is the one with the fewest digits that no other magnitude of the
format is nearer to.

It starts from an exact decimal: a unit of a format is `2 ^ (-s)`, which is `5 ^ s` times
`10 ^ (-s)`, so every magnitude is a natural number of the latter.
-/

set_option autoImplicit false

namespace ExprTree.Decimal

open ExprTree.Binary (Format)

/-- The digits `d₀ d₁ …` with the value `d₀.d₁… × 10 ^ exponent`. -/
structure Numeral where
  digits : List Char
  exponent : Int
deriving DecidableEq, Repr

def Numeral.ofCoefficient (c : Nat) (e : Int) : Numeral :=
  let digits := Nat.toDigits 10 c
  ⟨digits, e + digits.length - 1⟩

/-- The decimals that are read back as word `b` of a format, in multiples of `10 ^ (-scale - 1)`:
    those between the midpoints to the two neighbouring magnitudes. A midpoint itself is read as
    the even one of its two words. -/
def readBack (f : Format) (b : Nat) : Interval :=
  let halves := Nat.pow 5 (f.scale + 1)
  { low := (f.units (b - 1) + f.units b) * halves
    value := 2 * f.units b * halves
    high := (f.units b + f.units (b + 1)) * halves
    closed := b % 2 == 0 }

/-- The shortest numeral that is read back as word `b`. -/
def Numeral.shortest (f : Format) (b : Nat) : Numeral :=
  if b = 0 then ⟨['0'], 0⟩
  else
    let (c, z) := (readBack f b).shortest
    .ofCoefficient c (z - (f.scale + 1))

end ExprTree.Decimal
