import ExprTree.Binary.Format
import ExprTree.Binary.Stored

/-!
# Conversions into machine floats

An integer or a float of one width becomes a float of the other width by one rounding of its exact
value. Every conversion here goes through the words of the two formats, so what it gives is decided
by `Format.nearest` alone and not by the machine.
-/

set_option autoImplicit false

namespace ExprTree.Binary

def wordOfDouble (x : F64) : Nat := x.bits.toNat

def wordOfSingle (x : F32) : Nat := x.bits.toNat

def doubleOfWord (w : Nat) : F64 := ⟨.ofNat w⟩

def singleOfWord (w : Nat) : F32 := ⟨.ofNat w⟩

/-- The 64-bit float nearest to an integer. -/
def doubleOfInt (n : Int) : F64 := doubleOfWord (double.ofInt n)

/-- The 32-bit float nearest to an integer, in one rounding. -/
def singleOfInt (n : Int) : F32 := singleOfWord (single.ofInt n)

/-- The 64-bit float of the same value. -/
def widen (x : F32) : F64 := doubleOfWord (single.recode double (wordOfSingle x))

/-- The 32-bit float nearest to a 64-bit one. -/
def narrow (x : F64) : F32 := singleOfWord (double.recode single (wordOfDouble x))

end ExprTree.Binary
