/-!
# Evaluation contexts

A context is what an evaluation is started in. It refers to an interrupt flag, which it shares with
all contexts of its *family*, those that were copied from the same first context, and it has a switch
`trace` of its own. The flags themselves are in `Flags`, apart from the contexts: a copy of a context
is the same record, and setting the flag through one copy is seen through all.
-/

set_option autoImplicit false

namespace ExprTree

structure Context where
  family : Nat
  trace : Bool := false
deriving DecidableEq, Repr

/-- The context with its switch set as given; the flag it refers to is the same. -/
def Context.traced (c : Context) (trace : Bool) : Context := { c with trace }

@[simp] theorem Context.family_traced (c : Context) (trace : Bool) :
    (c.traced trace).family = c.family := rfl

/-- The interrupt flags of all families; `raised` lists the families whose flag is set. -/
structure Flags where
  raised : List Nat := []

namespace Flags

variable (fs : Flags)

def get (family : Nat) : Bool := fs.raised.contains family

def set (family : Nat) (flag : Bool) : Flags :=
  let others := fs.raised.filter (· != family)
  ⟨if flag then family :: others else others⟩

theorem get_set (family : Nat) (flag : Bool) (other : Nat) :
    (fs.set family flag).get other = if other = family then flag else fs.get other := by
  by_cases h : other = family
  · subst h
    cases flag <;> simp [get, set]
  · cases flag <;> simp [get, set, h]

end Flags

end ExprTree
