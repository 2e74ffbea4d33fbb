import ExprTree.Binary.Convert

/-!
# The operators

The operators fall into nine families, and inside a family only a small choice differs: which truth
value decides a connective early, which function of a real number is taken. The rules of typing
(`Op/Typing.lean`) and of evaluation (`Op/Plan.lean`) are therefore given once per family.

An operator here is a *configured* operator: the protected division carries the result that it
gives for a zero divisor. `Op.standard` lists the operators that a library is stocked with, in order.
-/

set_option autoImplicit false

namespace ExprTree

/-- The connectives whose first operand may decide the result alone. -/
inductive Connective where
  | and
  | or
  | nand
  | nor
  | implies
deriving DecidableEq, Repr

/-- The operations on two numbers of one type. -/
inductive Arith where
  | add
  | sub
  | mul
  | max
  | min
deriving DecidableEq, Repr

/-- The operations on one number that stay in its type. -/
inductive Unary where
  | abs
  | square
deriving DecidableEq, Repr

/-- The functions of one real number, computed on 64-bit floats. -/
inductive RealFn where
  | sqrt
  | exp
  | ln
  | sin
  | cos
  | tan
  | arcsin
  | arccos
  | arctan
  | sec
  | cosec
  | cot
deriving DecidableEq, Repr

inductive Comparison where
  | greater
  | less
deriving DecidableEq, Repr

inductive Op where
  | connective (c : Connective)
  | not
  | xor
  | arith (a : Arith)
  /-- Division that gives `fallback` where the divisor is zero. -/
  | divide (fallback : F64)
  | unary (u : Unary)
  | real (f : RealFn)
  | compare (c : Comparison)
  /-- The choice between two subtrees by a condition. -/
  | choose
deriving DecidableEq

def Connective.symbol : Connective → String
  | and => "AND"
  | or => "OR"
  | nand => "NAND"
  | nor => "NOR"
  | implies => "IMPLIES"

def Arith.symbol : Arith → String
  | add => "ADD"
  | sub => "SUB"
  | mul => "MUL"
  | max => "MAX"
  | min => "MIN"

def Unary.symbol : Unary → String
  | abs => "ABS"
  | square => "SQUARE"

def RealFn.symbol : RealFn → String
  | sqrt => "SQRT"
  | exp => "EXP"
  | ln => "LN"
  | sin => "SIN"
  | cos => "COS"
  | tan => "TAN"
  | arcsin => "ARCSIN"
  | arccos => "ARCCOS"
  | arctan => "ARCTAN"
  | sec => "SEC"
  | cosec => "COSEC"
  | cot => "COT"

def Comparison.symbol : Comparison → String
  | greater => "GT"
  | less => "LT"

namespace Op

/-- The identifier of the operator's nodes; it does not show the configuration. -/
def symbol : Op → String
  | connective c => c.symbol
  | not => "NOT"
  | xor => "XOR"
  | arith a => a.symbol
  | divide _ => "PDIV"
  | unary u => u.symbol
  | real f => f.symbol
  | compare c => c.symbol
  | choose => "IF"

def arity : Op → Nat
  | connective _ | xor | arith _ | divide _ | compare _ => 2
  | not | unary _ | real _ => 1
  | choose => 3

theorem arity_pos (o : Op) : 0 < o.arity := by
  cases o <;> simp [arity]

/-- What a protected division gives for a zero divisor unless it is told otherwise. -/
def defaultFallback : F64 := Binary.doubleOfWord 0

/-- The result that the operator gives for a zero divisor, if it divides. -/
def fallback? : Op → Option F64
  | divide p => some p
  | _ => none

/-- Every operator once, in its default configuration. -/
def standard : List Op :=
  [connective .and, connective .or, not, xor, connective .nand, connective .nor,
   connective .implies,
   arith .add, arith .sub, arith .mul, divide defaultFallback, unary .abs, unary .square,
   real .sqrt, real .exp, real .ln, arith .max, arith .min,
   real .sin, real .cos, real .tan, real .arcsin, real .arccos, real .arctan,
   real .sec, real .cosec, real .cot,
   compare .greater, compare .less, choose]

theorem nodup_symbols_standard : (standard.map symbol).Nodup := by decide

def ofSymbol? (s : String) : Option Op := standard.find? (·.symbol == s)

end Op

end ExprTree
