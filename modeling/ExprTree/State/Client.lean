import ExprTree.State.Store

/-!
# Clients and their contexts

A client makes variables, probes and contexts, passes them on and evaluates trees. It refers to the
contexts that it has by the numbers of the calls that made them. A copy is another context beside the
first one; to set the switch of a context, in contrast, is to *give it away*: another one is made of it,
and the first is not there any more. A call that refers to a context that is not there makes nothing and
changes nothing.

Trees are values, so a call may evaluate any tree. What it comes to is also a matter of the values of
variables, and those may be assigned at any time. A call gives a value to one variable at most
(`Client.binds`).
-/

set_option autoImplicit false

namespace ExprTree

/-- A store, and what contexts each call so far has made, in order, unless they were given away. -/
structure Client where
  store : Store
  held : List (Option Context)

/-- A row of things that may be missing, with one more at its end. -/
theorem join_getElem?_concat {α : Type} (xs : List (Option α)) (x : Option α) (n : Nat) :
    (xs ++ [x])[n]?.join = if n = xs.length then x else xs[n]?.join := by
  rcases Nat.lt_trichotomy n xs.length with h | rfl | h
  · rw [if_neg (Nat.ne_of_lt h), List.getElem?_append_left h]
  · rw [if_pos rfl, List.getElem?_concat_length]
    rfl
  · rw [if_neg (Nat.ne_of_gt h), List.getElem?_eq_none (by simp; omega),
      List.getElem?_eq_none (Nat.le_of_lt h)]

theorem ne_length_of_join_getElem? {α : Type} {xs : List (Option α)} {n : Nat} {a : α}
    (h : xs[n]?.join = some a) : n ≠ xs.length := by
  rintro rfl
  rw [List.getElem?_eq_none (Nat.le_refl _)] at h
  cases h

namespace Client

inductive Call where
  | declare (name : String) (ty : Ty)
  /-- A new variable with a first value, whose type is then the declared one. -/
  | declareBound (name : String) (v : Value)
  | probe (name : String) (value : Value) (failure : Option Fault) (interrupts : Bool)
  | new
  | clone (context : Nat)
  | traced (context : Nat) (trace : Bool)
  | raise (context : Nat)
  | lower (context : Nat)
  | eval (context : Nat) (t : Tree)
  | assign (x : Variable) (v : Value)
  /-- The client does something that the store has no part in. -/
  | idle

/-- The calls of a client, from the latest back to the first. -/
abbrev Calls := List Call

/-- The context that a call is made through. -/
def Call.through : Call → Option Nat
  | clone n | traced n _ | raise n | lower n | eval n _ => some n
  | declare _ _ | declareBound _ _ | probe _ _ _ _ | new | assign _ _ | idle => none

/-- The context that a call takes away from the client. -/
def Call.givenAway : Call → Option Nat
  | traced n _ => some n
  | declare _ _ | declareBound _ _ | probe _ _ _ _ | new | clone _ | raise _ | lower _ | eval _ _
  | assign _ _ | idle => none

def initial : Client := ⟨.initial, []⟩

variable (s : Client)

def context? (n : Nat) : Option Context := s.held[n]?.join

/-- The context that a call makes. -/
def made : Call → Option Context
  | .new => some s.store.newContext.1
  | .clone n => s.context? n
  | .traced n trace => (s.context? n).map fun c => c.traced trace
  | .declare _ _ | .declareBound _ _ | .probe _ _ _ _ | .raise _ | .lower _ | .eval _ _ | .assign _ _
  | .idle => none

/-- The store that a call leaves. -/
def effect : Call → Store
  | .declare name ty => (s.store.declare name ty).2
  | .declareBound name v => (s.store.declareBound name v).2
  | .probe name v e i => (s.store.newProbe name v e i).2
  | .new => s.store.newContext.2
  | .raise n => ((s.context? n).map s.store.raise).getD s.store
  | .lower n => ((s.context? n).map s.store.lower).getD s.store
  | .eval n t => ((s.context? n).map fun c => (s.store.eval c t).2).getD s.store
  | .assign x v => (s.store.assign x v).toOption.getD s.store
  | .clone _ | .traced _ _ | .idle => s.store

/-- What is left of the contexts that there were before a call. -/
def left (call : Call) : List (Option Context) :=
  match call.givenAway with
  | some n => s.held.set n none
  | none => s.held

def perform (call : Call) : Client := ⟨s.effect call, s.left call ++ [s.made call]⟩

/-- The client that has gone on by some calls. -/
def after (s : Client) : Calls → Client
  | [] => s
  | call :: earlier => (after s earlier).perform call

variable {s : Client}

/-! ## What there is after a call -/

theorem length_left (call : Call) : (s.left call).length = s.held.length := by
  rw [left]
  cases call.givenAway with
  | none => rfl
  | some n => exact List.length_set

theorem join_getElem?_left (call : Call) (n : Nat) :
    (s.left call)[n]?.join = if call.givenAway = some n then none else s.context? n := by
  rw [left]
  cases call.givenAway with
  | none => rfl
  | some m =>
    show (s.held.set m none)[n]?.join = _
    rw [List.getElem?_set]
    by_cases hmn : m = n
    · rw [if_pos hmn, if_pos (congrArg some hmn)]
      split <;> rfl
    · rw [if_neg hmn, if_neg fun h => hmn (Option.some.inj h)]
      rfl

/-- **Contexts are there until they are given away**: a call makes at most one, under the next number,
    and takes at most one away. -/
theorem context?_perform (call : Call) (n : Nat) :
    (s.perform call).context? n =
      if n = s.held.length then s.made call
      else if call.givenAway = some n then none else s.context? n := by
  rw [context?, perform, join_getElem?_concat, length_left, join_getElem?_left]

theorem context?_perform_last (call : Call) :
    (s.perform call).context? s.held.length = s.made call := by
  rw [context?_perform, if_pos rfl]

theorem context?_perform_of_some {n : Nat} {c : Context} (h : s.context? n = some c) (call : Call) :
    (s.perform call).context? n = if call.givenAway = some n then none else some c := by
  rw [context?_perform, if_neg (ne_length_of_join_getElem? h), h]

/-! ## What a call does to identities and variables -/

theorem nextId_effect (call : Call) : s.store.nextId ≤ (s.effect call).nextId := by
  cases call with
  | declare name ty | declareBound name v | probe name v e i | new => exact Nat.le_succ _
  | raise n | lower n | eval n t =>
    rw [effect]
    cases s.context? n <;> exact Nat.le_refl _
  | assign x v =>
    rw [effect, Store.assign]
    cases s.store.bindings.assign x v <;> exact Nat.le_refl _
  | clone n | traced n b | idle => exact Nat.le_refl _

/-- The value that a call gives to a variable, and the variable. -/
def binds (s : Client) : Call → Option (Variable × Value)
  | .declareBound name v => some ((s.store.declareBound name v).1, v)
  | .assign x v => if v.ty = x.ty then some (x, v) else none
  | .declare _ _ | .probe _ _ _ _ | .new | .clone _ | .traced _ _ | .raise _ | .lower _ | .eval _ _
  | .idle => none

/-- Only the giving of a value changes the values of variables. -/
theorem bindings_effect {call : Call} (h : s.binds call = none) :
    (s.effect call).bindings = s.store.bindings := by
  cases call with
  | raise n | lower n | eval n t =>
    rw [effect]
    cases s.context? n <;> rfl
  | declareBound name v => cases h
  | assign x v =>
    by_cases hty : v.ty = x.ty
    · rw [binds, if_pos hty] at h
      cases h
    · rw [effect, Store.assign_of_ne hty]
      rfl
  | declare name ty | probe name v e i | new | clone n | traced n b | idle => rfl

/-- **A call gives the value that it gives, and changes no other.** -/
theorem value?_effect (call : Call) (y : Variable) : (s.effect call).value? y =
    ((s.binds call).bind fun d => if y = d.1 then some d.2 else none).or (s.store.value? y) := by
  have bound : ∀ x v (h : v.ty = x.ty), (s.store.bindings.bind x v h).get? y =
      (if y = x then some v else none).or (s.store.bindings.get? y) := by
    intro x v h
    rw [Bindings.get?_bind]
    split <;> rfl
  cases hd : s.binds call with
  | none => rw [Store.value?, bindings_effect hd]; rfl
  | some d =>
    cases call with
    | declareBound name v =>
      cases hd
      exact bound _ v rfl
    | assign x v =>
      by_cases hty : v.ty = x.ty
      · rw [binds, if_pos hty] at hd
        cases hd
        rw [effect, Store.assign_of_ty hty]
        exact bound x v hty
      · rw [binds, if_neg hty] at hd
        cases hd
    | _ => cases hd

end Client

end ExprTree
