import ExprTree.State.Client
import ExprTree.Tree.Copy

/-!
# Sessions

In a session a client also has nodes. It takes one *step* after another, and refers to the nodes and
contexts that it has by the numbers of the steps that made them. A step that is refused, or that refers
to what is not there, makes nothing and changes nothing.

What a step does to the store and to the contexts is what a client does by one call (`Session.call`),
with the nodes in the place of their numbers. **So whatever is known of clients and their calls is known
of sessions** (`Session.client_after`).

Nodes are values, so a step that edits a node makes another one. Variables, in contrast, are the same
in whatever node they come to stand: a value that is assigned through one copy of a variable is the
value of all.
-/

set_option autoImplicit false

namespace ExprTree

/-- The ways to make a node, from a constant or from nodes that there are, given by their numbers. -/
inductive Making where
  | literal (v : Value)
  /-- A new node like the root of another, without its children; of a leaf, a copy. -/
  | fresh (node : Nat)
  | copy (node : Nat)
  | build (o : Op) (children : List (Option Nat))
  /-- What is in one of the slots of a node. -/
  | child (node slot : Nat)
  /-- A node with another child, or none, in one of its slots. -/
  | rebind (node slot : Nat) (child : Option Nat)

inductive Step where
  | declare (name : String) (ty : Ty)
  | declareBound (name : String) (v : Value)
  | probe (name : String) (value : Value) (failure : Option Fault) (interrupts : Bool)
  | make (m : Making)
  /-- A value is assigned to a variable, through any copy of it. -/
  | assign (node : Nat) (v : Value)
  | new
  | clone (context : Nat)
  | traced (context : Nat) (trace : Bool)
  | raise (context : Nat)
  | lower (context : Nat)
  | eval (context node : Nat)

/-- The steps of a client, from the latest back to the first. -/
abbrev History := List Step

/-- The variable that a tree is, if it is one. -/
def Tree.var? : Tree → Option Variable
  | leaf (.var x) => some x
  | leaf (.literal _) | leaf (.probe _) | node _ _ => none

theorem Tree.var?_eq_some_iff {t : Tree} {x : Variable} :
    t.var? = some x ↔ t = .leaf (.var x) := by
  cases t with
  | leaf l => cases l <;> simp [var?]
  | node o slots => simp [var?]

namespace Making

/-- The child that is referred to, which may be none; a number that is not that of a node is no
    reference. -/
def child? (find : Nat → Option Tree) : Option Nat → Option (Option Tree)
  | none => some none
  | some n => (find n).map some

/-- What is made, where `find` finds nodes by their numbers. -/
def node? (find : Nat → Option Tree) : Making → Option Tree
  | literal v => some (.leaf (.literal v))
  | fresh n => (find n).map Tree.fresh
  | copy n => (find n).map Tree.copy
  | build o children => (children.mapM (child? find)).bind fun cs => (o.ofChildren cs).toOption
  | child n slot => (find n).bind fun t => t.child? slot
  | rebind n slot new =>
    (find n).bind fun t => (child? find new).bind fun c =>
      (t.rebind slot c).toOption.map Prod.snd

end Making

/-- A client, and what nodes each step so far has made, in order. -/
structure Session where
  client : Client
  items : List (Option Tree)

namespace Session

def initial : Session := ⟨.initial, []⟩

variable (s : Session)

def store : Store := s.client.store

def node? (n : Nat) : Option Tree := s.items[n]?.join

/-- The variable of which the node is a copy, if it is one. -/
def var? (n : Nat) : Option Variable := (s.node? n).bind Tree.var?

/-- The node that a step makes. -/
def made : Step → Option Tree
  | .declare name ty => some (.leaf (.var (s.store.declare name ty).1))
  | .declareBound name v => some (.leaf (.var (s.store.declareBound name v).1))
  | .probe name v e i => some (.leaf (.probe (s.store.newProbe name v e i).1))
  | .make m => m.node? s.node?
  | .assign _ _ | .new | .clone _ | .traced _ _ | .raise _ | .lower _ | .eval _ _ => none

/-- The call that the client makes in a step. To make a node from others is no matter of the store. -/
def call : Step → Client.Call
  | .declare name ty => .declare name ty
  | .declareBound name v => .declareBound name v
  | .probe name v e i => .probe name v e i
  | .make _ => .idle
  | .assign n v => (s.var? n).elim .idle fun x => .assign x v
  | .new => .new
  | .clone c => .clone c
  | .traced c trace => .traced c trace
  | .raise c => .raise c
  | .lower c => .lower c
  | .eval c n => (s.node? n).elim .idle fun t => .eval c t

def perform (step : Step) : Session := ⟨s.client.perform (s.call step), s.items ++ [s.made step]⟩

/-- The session that has gone on by a history. -/
def after (s : Session) : History → Session
  | [] => s
  | step :: earlier => (after s earlier).perform step

variable {s : Session}

/-- **What has been made stays what it is**: a step adds one item, under the next number. -/
theorem node?_perform (step : Step) (n : Nat) :
    (s.perform step).node? n = if n = s.items.length then s.made step else s.node? n :=
  join_getElem?_concat s.items (s.made step) n

theorem node?_perform_of_some {n : Nat} {t : Tree} (h : s.node? n = some t) (step : Step) :
    (s.perform step).node? n = some t := by
  rw [node?_perform, if_neg (ne_length_of_join_getElem? h), h]

theorem node?_after_of_some {n : Nat} {t : Tree} (h : s.node? n = some t) (later : History) :
    (s.after later).node? n = some t := by
  induction later with
  | nil => exact h
  | cons step later ih => exact node?_perform_of_some ih step

/-- The calls that the client makes in a session. -/
def calls : History → Client.Calls
  | [] => []
  | step :: earlier => (initial.after earlier).call step :: calls earlier

/-- **The client of a session is a client that has made these calls.** -/
theorem client_after (hist : History) :
    (initial.after hist).client = Client.initial.after (calls hist) := by
  induction hist with
  | nil => rfl
  | cons step earlier ih =>
    rw [calls, Client.after, ← ih]
    rfl

end Session

end ExprTree
