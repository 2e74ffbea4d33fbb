import ExprTree.Decimal.Numeral

/-!
# Layouts of decimal text

A `Layout` says how a numeral is written: for which exponents the digits stand in their places, and
whether a whole number then keeps a `.0`. All other numerals are written with an exponent, `1.5e-7`.
`Layout.text` writes a signed word of a binary format, the words that are no numbers included.
-/

set_option autoImplicit false

namespace ExprTree.Decimal

open ExprTree.Binary (Format)

/-- The decisions that tell one way of writing decimals from another. -/
structure Layout where
  /-- The exponents whose numerals are written positionally. -/
  positional : Int → Bool
  /-- A positional whole number ends in `.0`. -/
  keepsPoint : Bool

/-- Digits in their places: zeros fill the gap to the point on either side. -/
def positionalText (keepsPoint : Bool) (n : Numeral) : List Char :=
  if n.exponent < 0 then
    '0' :: '.' :: (List.replicate (n.exponent.natAbs - 1) '0' ++ n.digits)
  else
    let whole := n.exponent.natAbs + 1
    if n.digits.length ≤ whole then
      n.digits ++ List.replicate (whole - n.digits.length) '0'
        ++ (if keepsPoint then ['.', '0'] else [])
    else n.digits.take whole ++ '.' :: n.digits.drop whole

/-- One digit before the point, the others after it, and the power of ten. -/
def exponentText (n : Numeral) : List Char :=
  let fraction := n.digits.drop 1
  n.digits.take 1 ++ (if fraction.isEmpty then [] else '.' :: fraction)
    ++ 'e' :: n.exponent.repr.toList

namespace Layout

variable (l : Layout)

def numeralText (n : Numeral) : List Char :=
  if l.positional n.exponent then positionalText l.keepsPoint n else exponentText n

/-- A signed word of a format, its finite magnitudes written with the shortest digits that are read back
    as the word. What is no number has no sign. -/
def text (f : Format) (w : Nat) : String :=
  let b := f.magnitude w
  if f.infinity < b then "NaN"
  else
    let magnitude := if b = f.infinity then ['i', 'n', 'f'] else l.numeralText (.shortest f b)
    .ofList (if f.isNegative w then '-' :: magnitude else magnitude)

end Layout

/-- Every number in full, whole numbers without a point. -/
def plain : Layout := ⟨fun _ => true, false⟩

/-- Numbers from `1e-4` to below `1e16` in full and with a point, so that none of them looks like
    an integer; all others with an exponent. -/
def literal : Layout := ⟨fun e => decide (-4 ≤ e ∧ e < 16), true⟩

end ExprTree.Decimal
