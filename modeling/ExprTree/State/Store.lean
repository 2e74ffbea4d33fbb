import ExprTree.Eval.Basic
import ExprTree.State.Context

/-!
# The store

Trees and contexts are values; what changes while they are used is kept here: the bindings of
variables, the interrupt flags, and the probes that have been visited. New variables, probes and
contexts get their identities from the store, each a new one, so that things made separately never
share anything.

Only a declaration and `assign` change a binding, and only `raise`, `lower` and an evaluation that
visits an interrupting probe change a flag.
-/

set_option autoImplicit false

namespace ExprTree

structure Store where
  nextId : Nat := 0
  bindings : Bindings := {}
  flags : Flags := {}
  /-- The identities of the probes visited so far, one entry for each visit. -/
  visited : List Nat := []

namespace Store

/-- The store in which nothing has been made yet. -/
def initial : Store := {}

variable (s : Store)

/-! ## Variables -/

def declare (name : String) (ty : Ty) : Variable × Store :=
  (⟨name, ty, s.nextId⟩, { s with nextId := s.nextId + 1 })

/-- A new variable of the type of `v`, bound to `v`. -/
def declareBound (name : String) (v : Value) : Variable × Store :=
  let x : Variable := ⟨name, v.ty, s.nextId⟩
  (x, { s with nextId := s.nextId + 1, bindings := s.bindings.bind x v rfl })

/-- The store with `x` bound to `v`, which must have the declared type of `x`. -/
def assign (x : Variable) (v : Value) : Except Fault Store :=
  (s.bindings.assign x v).map fun b => { s with bindings := b }

theorem assign_of_ty {s : Store} {x : Variable} {v : Value} (h : v.ty = x.ty) :
    s.assign x v = .ok { s with bindings := s.bindings.bind x v h } := by
  rw [assign, Bindings.assign, dif_pos h]
  rfl

theorem assign_of_ne {s : Store} {x : Variable} {v : Value} (h : v.ty ≠ x.ty) :
    s.assign x v = .error (.wrongType x.name x.ty.name v.ty.name) := by
  rw [assign, Bindings.assign, dif_neg h]
  rfl

def value? (x : Variable) : Option Value := s.bindings.get? x

/-! ## Probes -/

def newProbe (name : String) (value : Value) (failure : Option Fault) (interrupts : Bool) :
    Probe × Store :=
  (⟨name, value, failure, interrupts, s.nextId⟩, { s with nextId := s.nextId + 1 })

def visits (p : Probe) : Nat := s.visited.count p.id

/-! ## Contexts -/

/-- A new context of a family of its own, its flag clear. -/
def newContext : Context × Store :=
  (⟨s.nextId, false⟩, { s with nextId := s.nextId + 1 })

def isRaised (c : Context) : Bool := s.flags.get c.family

def raise (c : Context) : Store := { s with flags := s.flags.set c.family true }

def lower (c : Context) : Store := { s with flags := s.flags.set c.family false }

/-! ## Evaluation -/

def after {α : Type} (c : Context) (r : Run α) : Store :=
  { s with
    flags := s.flags.set c.family r.flag
    visited := r.trail.probes.map (·.id) ++ s.visited }

def eval (c : Context) (t : Tree) : Run Value × Store :=
  let r := t.eval s.bindings (s.isRaised c)
  (r, s.after c r)

/-- The request of a tree's root to one of its slots, in a context. -/
def request (c : Context) (t : Tree) (slot : Nat) (want : Want) : Run want.Answer × Store :=
  let r := t.request s.bindings slot want (s.isRaised c)
  (r, s.after c r)

end Store

end ExprTree
