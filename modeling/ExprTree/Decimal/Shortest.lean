/-!
# The shortest decimal of an interval

A number printed so that it can be read back need not be printed exactly: any decimal that lies
closer to it than to its neighbours will do. This module finds, in an interval of naturals, the
member with the most trailing zeros, and of those the one nearest to the interval's value. Read as
`c * 10 ^ z`, that member has the fewest digits.

The search tries the grids of multiples of `10 ^ z` from coarse to fine. On one grid only the two
neighbours of the value can matter: if any multiple of `10 ^ z` is in the interval, so is one of
them.
-/

set_option autoImplicit false

namespace ExprTree.Decimal

/-- A number of digits that suffices to write `n`: since `2 ^ 93 < 10 ^ 28`, it is known from the
    length of `n` in bits. -/
def digitBound (n : Nat) : Nat := (n.log2 + 1) * 28 / 93 + 1

/-- The least number of digits, `d` at most, that suffices to write `n` if `d` do. -/
def digitsUpTo (n : Nat) : Nat → Nat
  | 0 => 0
  | d + 1 => if n < Nat.pow 10 d then digitsUpTo n d else d + 1

/-- The number of digits of `n`; zero has none. -/
def digitCount (n : Nat) : Nat := digitsUpTo n (digitBound n)

/-- The naturals from `low` to `high`, around a `value`; the two ends belong to it if it is
    `closed`. -/
structure Interval where
  low : Nat
  value : Nat
  high : Nat
  closed : Bool

namespace Interval

variable (i : Interval)

def contains (n : Nat) : Bool :=
  if i.closed then decide (i.low ≤ n ∧ n ≤ i.high) else decide (i.low < n ∧ n < i.high)

/-- The `c` for which `c * 10 ^ z` is in the interval and nearest to its value, if any is in it. Of
    two that are equally near it is the greater. -/
def coefficient? (z : Nat) : Option Nat :=
  let step := Nat.pow 10 z
  let c := i.value / step
  match i.contains (c * step), i.contains ((c + 1) * step) with
  | true, true => some (if 2 * (i.value % step) < step then c else c + 1)
  | true, false => some c
  | false, true => some (c + 1)
  | false, false => none

/-- The coarsest grid with at most `z` zeros that meets the interval, and the coefficient there. The
    value itself is what the finest grid has. -/
def coarsest : Nat → Nat × Nat
  | 0 => (i.value, 0)
  | z + 1 =>
    match i.coefficient? (z + 1) with
    | some c => (c, z + 1)
    | none => coarsest z

/-- The coefficient and the zeros of the shortest decimal in the interval. A grid coarser than the
    value has digits is not tried: beyond its first multiple it is empty up to the value. -/
def shortest : Nat × Nat := i.coarsest (digitCount i.value)

end Interval

end ExprTree.Decimal
