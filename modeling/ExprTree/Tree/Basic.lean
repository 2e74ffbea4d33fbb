import ExprTree.Leaf
import ExprTree.Op.Typing

/-!
# Trees and their slots

A tree is a leaf or an operator over a row of slots, and a slot holds a subtree or nothing. A row has
as many slots as its operator's arity, by its type: no edit can give a node one slot too many.

A row is known by what is in its slots, `Slots.get?`. Every operation on rows says what it puts
there, in one lemma each, and `Slots.ext` does the rest.
-/

set_option autoImplicit false

namespace ExprTree

mutual

inductive Tree where
  | leaf (l : Leaf)
  | node (o : Op) (slots : Slots o.arity)

inductive Slots : Nat → Type where
  | nil : Slots 0
  | unbound {n : Nat} (rest : Slots n) : Slots (n + 1)
  | bound {n : Nat} (t : Tree) (rest : Slots n) : Slots (n + 1)

end

namespace Slots

variable {n : Nat}

/-- A row from its first slot and the others. -/
def cons (child : Option Tree) (rest : Slots n) : Slots (n + 1) :=
  match child with
  | none => unbound rest
  | some t => bound t rest

/-- The subtree in slot `i`; there is none in an unbound slot, and none beyond the row. -/
def get? {n : Nat} : Slots n → Nat → Option Tree
  | nil, _ => none
  | unbound _, 0 => none
  | bound t _, 0 => some t
  | unbound rest, i + 1 => rest.get? i
  | bound _ rest, i + 1 => rest.get? i

@[simp] theorem get?_cons_zero (c : Option Tree) (rest : Slots n) : (cons c rest).get? 0 = c := by
  cases c <;> rfl

@[simp] theorem get?_cons_succ (c : Option Tree) (rest : Slots n) (i : Nat) :
    (cons c rest).get? (i + 1) = rest.get? i := by
  cases c <;> rfl

theorem get?_eq_none_of_le : ∀ {n : Nat} (s : Slots n) {i : Nat}, n ≤ i → s.get? i = none
  | _, nil, _, _ => rfl
  | _, unbound rest, _ + 1, h => get?_eq_none_of_le rest (Nat.le_of_succ_le_succ h)
  | _, bound _ rest, _ + 1, h => get?_eq_none_of_le rest (Nat.le_of_succ_le_succ h)

theorem ext : ∀ {n : Nat} (s s' : Slots n), (∀ i < n, s.get? i = s'.get? i) → s = s'
  | _, nil, nil, _ => rfl
  | _, unbound r, unbound r', h => by
    rw [ext r r' fun i hi => h (i + 1) (Nat.succ_lt_succ hi)]
  | _, bound t r, bound t' r', h => by
    have ht : some t = some t' := h 0 (Nat.succ_pos _)
    rw [ext r r' fun i hi => h (i + 1) (Nat.succ_lt_succ hi), Option.some.inj ht]
  | _, unbound _, bound t' _, h => by
    have ht : none = some t' := h 0 (Nat.succ_pos _)
    exact absurd ht (by simp)
  | _, bound t _, unbound _, h => by
    have ht : some t = none := h 0 (Nat.succ_pos _)
    exact absurd ht (by simp)

/-- The row whose slot `i` holds `f i`. -/
def ofFn : (n : Nat) → (Nat → Option Tree) → Slots n
  | 0, _ => nil
  | n + 1, f => cons (f 0) (ofFn n fun i => f (i + 1))

theorem get?_ofFn : ∀ (n : Nat) (f : Nat → Option Tree) (i : Nat),
    (ofFn n f).get? i = if i < n then f i else none
  | 0, _, i => by simp [ofFn, get?]
  | n + 1, f, 0 => by simp [ofFn]
  | n + 1, f, i + 1 => by simp [ofFn, get?_ofFn n]

def empty (n : Nat) : Slots n := ofFn n fun _ => none

@[simp] theorem get?_empty (n i : Nat) : (empty n).get? i = none := by
  simp [empty, get?_ofFn]

/-- The row with `c` in slot `i`; a slot beyond the row changes nothing. -/
def set (s : Slots n) (i : Nat) (c : Option Tree) : Slots n :=
  ofFn n fun j => if j = i then c else s.get? j

theorem get?_set (s : Slots n) (i : Nat) (c : Option Tree) (j : Nat) :
    (s.set i c).get? j = if j = i ∧ i < n then c else s.get? j := by
  rw [set, get?_ofFn]
  by_cases h : j < n
  · by_cases e : j = i
    · subst e; simp [h]
    · simp [h, e]
  · have := get?_eq_none_of_le s (Nat.le_of_not_lt h)
    by_cases e : j = i
    · subst e; simp [h, this]
    · simp [h, e, this]

/-- The row in another order: slot `i` gets what slot `order i` had. -/
def permute (s : Slots n) (order : Nat → Nat) : Slots n := ofFn n fun i => s.get? (order i)

theorem get?_permute (s : Slots n) (order : Nat → Nat) (i : Nat) :
    (s.permute order).get? i = if i < n then s.get? (order i) else none := by
  rw [permute, get?_ofFn]

def reverse (s : Slots n) : Slots n := s.permute fun i => n - 1 - i

/-- What the slots hold, in order. -/
def toList : {n : Nat} → Slots n → List (Option Tree)
  | _, nil => []
  | _, unbound rest => none :: rest.toList
  | _, bound t rest => some t :: rest.toList

@[simp] theorem length_toList : ∀ {n : Nat} (s : Slots n), s.toList.length = n
  | _, nil => rfl
  | _, unbound rest => by simp [toList, length_toList rest]
  | _, bound _ rest => by simp [toList, length_toList rest]

theorem getElem?_toList : ∀ {n : Nat} (s : Slots n) (i : Nat), s.toList[i]?.join = s.get? i
  | _, nil, i => by simp [toList, get?]
  | _, unbound _, 0 => rfl
  | _, bound _ _, 0 => rfl
  | _, unbound rest, i + 1 => by simpa [toList, get?] using getElem?_toList rest i
  | _, bound _ rest, i + 1 => by simpa [toList, get?] using getElem?_toList rest i

/-- The row that holds a list of children, if there is one child for each slot. The complaint names
    the node that was to have them. -/
def ofList (node : String) (n : Nat) (children : List (Option Tree)) :
    Except Fault (Slots n) :=
  if children.length = n then .ok (ofFn n fun i => children[i]?.join)
  else .error (.wrongArity node n children.length)

def allBound (s : Slots n) : Bool := s.toList.all Option.isSome

end Slots

namespace Tree

def identifier : Tree → String
  | leaf l => l.identifier
  | node o _ => o.symbol

def arity : Tree → Nat
  | leaf _ => 0
  | node o _ => o.arity

def children : Tree → List (Option Tree)
  | leaf _ => []
  | node _ slots => slots.toList

theorem length_children (t : Tree) : t.children.length = t.arity := by
  cases t <;> simp [children, arity]

/-- The subtree bound to slot `i` of the root, if any. -/
def child? : Tree → Nat → Option Tree
  | leaf _, _ => none
  | node _ slots, i => slots.get? i

/-- Every slot of the root is bound; those below are not looked at. -/
def allBound (t : Tree) : Bool := t.children.all Option.isSome

def resultTy : Tree → List Ty → Option Ty
  | leaf l, ts => l.resultTy ts
  | node o _, ts => o.resultTy ts

/-- A new node like the root, its configuration kept and its slots empty. A leaf has none to empty
    and is shared. -/
def fresh : Tree → Tree
  | leaf l => leaf l
  | node o _ => node o (.empty o.arity)

def fill : (t : Tree) → Slots t.arity → Tree
  | leaf l, _ => leaf l
  | node o _, slots => node o slots

/-- The tree with `c` in slot `i` of the root, beside what was there before. -/
def rebind (t : Tree) (i : Nat) (c : Option Tree) : Except Fault (Option Tree × Tree) :=
  match t with
  | leaf l => .error (.noSuchSlot l.identifier i 0)
  | node o slots =>
    if i < o.arity then .ok (slots.get? i, node o (slots.set i c))
    else .error (.noSuchSlot o.symbol i o.arity)

def permuteSlots (t : Tree) (order : Nat → Nat) : Tree :=
  match t with
  | leaf l => leaf l
  | node o slots => node o (slots.permute order)

def reverseSlots : Tree → Tree
  | leaf l => leaf l
  | node o slots => node o slots.reverse

end Tree

namespace Op

def empty (o : Op) : Tree := .node o (.empty o.arity)

/-- The operator over a list of children, which has to be as long as its arity. -/
def ofChildren (o : Op) (children : List (Option Tree)) : Except Fault Tree :=
  (Slots.ofList o.symbol o.arity children).map (.node o)

/-- The operator over children that are all there. -/
def call (o : Op) (children : Vector Tree o.arity) : Tree :=
  .node o (.ofFn o.arity fun i => children[i]?)

end Op

end ExprTree
