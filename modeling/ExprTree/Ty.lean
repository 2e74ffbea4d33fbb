/-!
# Types and the widest of them

A value is a truth value or a number, and a number is of one of four types. The number types are
ordered by width, `i32 < i64 < f32 < f64`: where two of them meet, both are taken at the wider.
`Ty.widest` is that rule for a list of types, and it is the only place that knows it: operators are
typed by it, and operands of different number types are brought together by it.
-/

set_option autoImplicit false

namespace ExprTree

/-- The number types, from narrow to wide. -/
inductive NumTy where
  | i32
  | i64
  | f32
  | f64
deriving DecidableEq, Repr

namespace NumTy

/-- The place in the order of widths. -/
def rank : NumTy → Nat
  | i32 => 0
  | i64 => 1
  | f32 => 2
  | f64 => 3

theorem rank_injective {s t : NumTy} (h : s.rank = t.rank) : s = t := by
  cases s <;> cases t <;> simp_all [rank]

instance : Max NumTy := ⟨fun s t => if s.rank ≤ t.rank then t else s⟩

theorem rank_max (s t : NumTy) : (max s t).rank = max s.rank t.rank := by
  cases s <;> cases t <;> rfl

def name : NumTy → String
  | i32 => "i32"
  | i64 => "i64"
  | f32 => "f32"
  | f64 => "f64"

end NumTy

inductive Ty where
  | bool
  | num (n : NumTy)
deriving DecidableEq, Repr

namespace Ty

/-- Every type, truth values first, then the floats and the integers, each from wide to narrow. -/
def all : List Ty := [bool, num .f64, num .f32, num .i64, num .i32]

theorem mem_all (t : Ty) : t ∈ all := by
  cases t with
  | bool => decide
  | num n => cases n <;> decide

def name : Ty → String
  | bool => "bool"
  | num n => n.name

theorem name_injective {s t : Ty} (h : s.name = t.name) : s = t := by
  cases s with
  | bool => cases t with
    | bool => rfl
    | num n => cases n <;> exact absurd h (by decide)
  | num m => cases t with
    | bool => cases m <;> exact absurd h (by decide)
    | num n => cases m <;> cases n <;> first | rfl | exact absurd h (by decide)

def ofName? (s : String) : Option Ty := all.find? (·.name == s)

def num? : Ty → Option NumTy
  | bool => none
  | num n => some n

def isNumeric (t : Ty) : Bool := t.num?.isSome

@[simp] theorem isNumeric_bool : isNumeric bool = false := rfl

@[simp] theorem isNumeric_num (n : NumTy) : isNumeric (num n) = true := rfl

def isInteger : Ty → Bool
  | num .i32 | num .i64 => true
  | _ => false

def isFloat : Ty → Bool
  | num .f32 | num .f64 => true
  | _ => false

/-- Every type of the list is `t`; of the empty list that is true. -/
def eachIs (ts : List Ty) (t : Ty) : Bool := ts.all (· == t)

def eachNumeric (ts : List Ty) : Bool := ts.all isNumeric

/-- The widest of a list of number types. There is none if the list is empty or if one of its
    types is not numeric. -/
def widest (ts : List Ty) : Option Ty := do
  let ns ← ts.mapM num?
  let n ← ns.max?
  return num n

@[simp] theorem widest_nil : widest [] = none := rfl

@[simp] theorem widest_pair (s t : NumTy) : widest [num s, num t] = some (num (max s t)) := rfl

end Ty

end ExprTree
