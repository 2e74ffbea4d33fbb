/-!
# Floats as they are stored

A float is held by its bits. The number that it is, if it is one, is known from Lean's own float of
these bits, and arithmetic is done there. Lean's floats have a single value that is no number, and a
machine has many words for it: so **a float that is only passed on keeps its bits**, while a result
that is no number has the one word that Lean gives it, as it may have any. Nothing of this shows for
numbers, each of which has its own bits.
-/

set_option autoImplicit false

namespace ExprTree

/-- A 64-bit float. Two are the same if their bits are; `==` and `<` compare them as numbers. -/
structure F64 where
  bits : UInt64
deriving DecidableEq

namespace F64

def toFloat (x : F64) : Float := .ofBits x.bits

def ofFloat (x : Float) : F64 := ⟨x.toBits⟩

instance : Add F64 := ⟨fun x y => ofFloat (x.toFloat + y.toFloat)⟩

instance : Sub F64 := ⟨fun x y => ofFloat (x.toFloat - y.toFloat)⟩

instance : Mul F64 := ⟨fun x y => ofFloat (x.toFloat * y.toFloat)⟩

instance : Div F64 := ⟨fun x y => ofFloat (x.toFloat / y.toFloat)⟩

instance : BEq F64 := ⟨fun x y => x.toFloat == y.toFloat⟩

instance : LT F64 := ⟨fun x y => x.toFloat < y.toFloat⟩

instance (x y : F64) : Decidable (x < y) := inferInstanceAs (Decidable (x.toFloat < y.toFloat))

def isNaN (x : F64) : Bool := x.toFloat.isNaN

/-- The float without its sign; the other bits stay, also of what is no number. -/
def abs (x : F64) : F64 := ⟨x.bits &&& 0x7fffffffffffffff⟩

end F64

@[inherit_doc F64]
structure F32 where
  bits : UInt32
deriving DecidableEq

namespace F32

def toFloat (x : F32) : Float32 := .ofBits x.bits

def ofFloat (x : Float32) : F32 := ⟨x.toBits⟩

instance : Add F32 := ⟨fun x y => ofFloat (x.toFloat + y.toFloat)⟩

instance : Sub F32 := ⟨fun x y => ofFloat (x.toFloat - y.toFloat)⟩

instance : Mul F32 := ⟨fun x y => ofFloat (x.toFloat * y.toFloat)⟩

instance : BEq F32 := ⟨fun x y => x.toFloat == y.toFloat⟩

instance : LT F32 := ⟨fun x y => x.toFloat < y.toFloat⟩

instance (x y : F32) : Decidable (x < y) := inferInstanceAs (Decidable (x.toFloat < y.toFloat))

def isNaN (x : F32) : Bool := x.toFloat.isNaN

@[inherit_doc F64.abs]
def abs (x : F32) : F32 := ⟨x.bits &&& 0x7fffffff⟩

end F32

end ExprTree
