import ExprTree.Tree.Basic

/-!
# Libraries of templates

A library is a stock of nodes to build trees from, each under its own identifier and in the order in
which they were registered. A template is looked up for its kind and configuration only: what is built
from it is a fresh node, whatever children the template has.

No two templates of a library have one identifier; that is part of the type, and `register` is where
it is established.
-/

set_option autoImplicit false

namespace ExprTree

structure Library where
  templates : List Tree := []
  distinct : (templates.map Tree.identifier).Nodup := by decide

namespace Library

variable (lib : Library)

def empty : Library := {}

def identifiers : List String := lib.templates.map Tree.identifier

def size : Nat := lib.templates.length

def isEmpty : Bool := lib.templates.isEmpty

def get? (id : String) : Option Tree := lib.templates.find? (·.identifier == id)

def contains (id : String) : Bool := (lib.get? id).isSome

theorem get?_eq_none_iff {lib : Library} {id : String} :
    lib.get? id = none ↔ id ∉ lib.identifiers := by
  simp [get?, identifiers]

/-- The library with a template added at the end, unless there is one of its identifier. -/
def register (t : Tree) : Except Fault Library :=
  if h : t.identifier ∈ lib.identifiers then .error (.duplicateName t.identifier)
  else
    .ok {
      templates := lib.templates ++ [t]
      distinct := by
        rw [List.map_append, List.nodup_append]
        refine ⟨lib.distinct, by simp, ?_⟩
        intro a ha b hb e
        simp only [List.map_cons, List.map_nil, List.mem_singleton] at hb
        exact h (hb ▸ e ▸ ha) }

/-- A fresh node of the kind that is registered under `id`. -/
def instantiate (id : String) : Except Fault Tree :=
  match lib.get? id with
  | some t => .ok t.fresh
  | none => .error (.unknownName id)

/-- A fresh node of the kind that is registered under `id`, over a list of children, which has to be
    as long as the node has slots. -/
def assemble (id : String) (children : List (Option Tree)) : Except Fault Tree := do
  let t ← lib.instantiate id
  let slots ← Slots.ofList id t.arity children
  return t.fill slots

/-- The identifiers of the templates that are well-typed over children of these types. -/
def applicable (ts : List Ty) : List String :=
  (lib.templates.filter fun t => (t.resultTy ts).isSome).map Tree.identifier

/-- The identifiers of the templates that have the type `ty` over children of these types. -/
def yielding (ts : List Ty) (ty : Ty) : List String :=
  (lib.templates.filter fun t => t.resultTy ts == some ty).map Tree.identifier

end Library

end ExprTree
