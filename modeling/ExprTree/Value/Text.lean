import ExprTree.Decimal.Layout
import ExprTree.Value.Basic

/-!
# The texts of a value

`plainText` writes a value for reading. `literalText` writes it so that its type can be told from
the text: a 64-bit float has a point or an exponent, the narrower float and the wider integer carry
the name of their type, and a 32-bit integer is bare digits. Both write the shortest digits that
are read back as the same float.
-/

set_option autoImplicit false

namespace ExprTree

open Decimal (plain literal)

namespace Number

def plainText : Number → String
  | f64 x => plain.text Binary.double (Binary.wordOfDouble x)
  | f32 x => plain.text Binary.single (Binary.wordOfSingle x)
  | i64 n => n.toInt.repr
  | i32 n => n.toInt.repr

def literalText : Number → String
  | f64 x => literal.text Binary.double (Binary.wordOfDouble x)
  | f32 x => literal.text Binary.single (Binary.wordOfSingle x) ++ "f32"
  | i64 n => n.toInt.repr ++ "i64"
  | i32 n => n.toInt.repr

end Number

def boolText (b : Bool) : String := if b then "true" else "false"

namespace Value

def plainText : Value → String
  | bool b => boolText b
  | num n => n.plainText

def literalText : Value → String
  | bool b => boolText b
  | num n => n.literalText

end Value

end ExprTree
