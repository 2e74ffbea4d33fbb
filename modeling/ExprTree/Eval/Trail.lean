import ExprTree.Leaf

/-!
# Trails

The *trail* of an evaluation says what it did: which slots it requested and which leaves it visited, in
order, each with its place. Places are lists of slots to step into from the root, so the trail of a
subtree becomes part of the trail of the whole by going `under` the slot that the subtree is in.

A trail is put together from the trails of its parts without copying them. `toList` is what it means,
and the simp lemmas on it are all that is ever used about a trail.
-/

set_option autoImplicit false

namespace ExprTree

/-- The slots to step into, one after the other, from a root. -/
abbrev Place := List Nat

/-- A step of an evaluation: the slot at a place is asked for its value, or the leaf at a place is
    evaluated. -/
inductive Event where
  | request (place : Place)
  | visit (place : Place) (leaf : Leaf)
deriving DecidableEq

namespace Event

/-- The event as seen from a node that has, in slot `i`, the tree it took place in. -/
def under (i : Nat) : Event → Event
  | request p => request (i :: p)
  | visit p l => visit (i :: p) l

def request? : Event → Option Place
  | request p => some p
  | visit _ _ => none

def visit? : Event → Option (Place × Leaf)
  | request _ => none
  | visit p l => some (p, l)

def leaf? : Event → Option Leaf
  | request _ => none
  | visit _ l => some l

@[simp] theorem leaf?_under (i : Nat) (e : Event) : (e.under i).leaf? = e.leaf? := by
  cases e <;> rfl

end Event

inductive Trail where
  | nil
  | event (e : Event)
  | append (first second : Trail)
  | under (slot : Nat) (below : Trail)

namespace Trail

instance : Append Trail := ⟨append⟩

def toList : Trail → List Event
  | nil => []
  | event e => [e]
  | append t u => t.toList ++ u.toList
  | under i t => t.toList.map (.under i)

@[simp] theorem toList_nil : nil.toList = [] := rfl

@[simp] theorem toList_event (e : Event) : (event e).toList = [e] := rfl

@[simp] theorem toList_append (t u : Trail) : (t ++ u).toList = t.toList ++ u.toList := rfl

@[simp] theorem toList_under (i : Nat) (t : Trail) :
    (under i t).toList = t.toList.map (.under i) := rfl

/-- The places that were requested, in order. -/
def requests (t : Trail) : List Place := t.toList.filterMap Event.request?

/-- The leaves that were visited, with their places, in order. -/
def visits (t : Trail) : List (Place × Leaf) := t.toList.filterMap Event.visit?

/-- The leaves that were visited, in order, in front of `acc`. -/
def leavesOnto : Trail → List Leaf → List Leaf
  | nil, acc => acc
  | event (.request _), acc => acc
  | event (.visit _ l), acc => l :: acc
  | append t u, acc => t.leavesOnto (u.leavesOnto acc)
  | under _ t, acc => t.leavesOnto acc

def leaves (t : Trail) : List Leaf := t.leavesOnto []

theorem leavesOnto_eq (t : Trail) (acc : List Leaf) :
    t.leavesOnto acc = t.toList.filterMap Event.leaf? ++ acc := by
  induction t generalizing acc with
  | nil => rfl
  | event e => cases e <;> rfl
  | append t u iht ihu =>
    show t.leavesOnto (u.leavesOnto acc) = (t.toList ++ u.toList).filterMap _ ++ acc
    rw [iht, ihu, List.filterMap_append, List.append_assoc]
  | under i t ih =>
    show t.leavesOnto acc = (t.toList.map _).filterMap _ ++ acc
    rw [ih, List.filterMap_map]
    congr 2
    funext e
    simp

theorem leaves_eq (t : Trail) : t.leaves = t.toList.filterMap Event.leaf? := by
  simp [leaves, leavesOnto_eq]

@[simp] theorem leaves_append (t u : Trail) : (t ++ u).leaves = t.leaves ++ u.leaves := by
  simp [leaves_eq]

@[simp] theorem leaves_under (i : Nat) (t : Trail) : (under i t).leaves = t.leaves := rfl

def probes (t : Trail) : List Probe :=
  t.leaves.filterMap fun
    | .probe p => some p
    | _ => none

end Trail

end ExprTree
