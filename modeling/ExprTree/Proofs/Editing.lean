import ExprTree.Proofs.Construction
import ExprTree.Tree.Copy

/-!
# Editing the slots of a node

However a node of an operator was made, it has a row of slots of the operator's length, and an edit
puts another row of that length in its place. So **what a node is, no edit can change**
(`Tree.root_edits`): the operator, which is what decides the identifier, the rule of typing, the
fallback of a division and the number of slots.

What an edit does change can be changed back. A slot that is bound anew gives up what was in it, and
with that bound to it again the node is the one before (`Slots.set_set`).
-/

set_option autoImplicit false

namespace ExprTree

/-! ## Making -/

/-- **The ways to make a node of an operator.** From a template or from another node, only the root
    counts: it has to be that operator, configured in the same way. -/
inductive Op.Makes (o : Op) : Tree → Prop
  | call (children : Vector Tree o.arity) : Makes o (o.call children)
  | empty : Makes o o.empty
  | ofChildren {children : List (Option Tree)} {t : Tree} (h : o.ofChildren children = .ok t) :
      Makes o t
  | instantiate {lib : Library} {id : String} {template t : Tree}
      (ht : lib.get? id = some template) (hroot : template.root = .inr o)
      (h : lib.instantiate id = .ok t) : Makes o t
  | assemble {lib : Library} {id : String} {template t : Tree} {children : List (Option Tree)}
      (ht : lib.get? id = some template) (hroot : template.root = .inr o)
      (h : lib.assemble id children = .ok t) : Makes o t
  | fresh {t : Tree} (hroot : t.root = .inr o) : Makes o t.fresh
  | copy {t : Tree} (hroot : t.root = .inr o) : Makes o t.copy

theorem Op.Makes.root {o : Op} {t : Tree} (h : o.Makes t) : t.root = .inr o := by
  cases h with
  | call children => rfl
  | empty => rfl
  | @ofChildren children t h =>
    by_cases hlen : children.length = o.arity
    · rw [ofChildren_of_length hlen] at h
      rw [← Except.ok.inj h, Tree.root_over]
      rfl
    · rw [ofChildren_of_ne hlen] at h
      cases h
  | @instantiate lib id template t ht hroot h =>
    rw [Library.instantiate_eq ht] at h
    rw [← Except.ok.inj h, Tree.fresh_eq_over, Tree.root_over, hroot]
  | @assemble lib id template t children ht hroot h =>
    by_cases hlen : children.length = template.arity
    · rw [Library.assemble_of_length ht hlen] at h
      rw [← Except.ok.inj h, Tree.root_over, hroot]
    · rw [Library.assemble_of_ne ht hlen] at h
      cases h
  | @fresh t hroot => rw [Tree.fresh_eq_over, Tree.root_over, hroot]
  | @copy t hroot => rw [Tree.copy_eq, hroot]

/-! ## Editing -/

/-- An edit of the slots of a node. -/
inductive Edit where
  | rebind (slot : Nat) (child : Option Tree)
  /-- Slot `i` gets what slot `order i` had. -/
  | permute (order : Nat → Nat)

/-- The tree after an edit. One that is refused leaves it as it is. -/
def Tree.edit (t : Tree) : Edit → Tree
  | .rebind slot child =>
    match t.rebind slot child with
    | .ok (_, t') => t'
    | .error _ => t
  | .permute order => t.permuteSlots order

/-- The tree after a sequence of edits, the first one first. -/
def Tree.edits (t : Tree) (es : List Edit) : Tree := es.foldl edit t

section

variable {o : Op} {t : Tree}

theorem Tree.rebind_of_lt {slots : Slots o.arity} {i : Nat} (hi : i < o.arity) (c : Option Tree) :
    (Tree.node o slots).rebind i c = .ok (slots.get? i, .node o (slots.set i c)) :=
  if_pos hi

theorem Tree.rebind_of_le {slots : Slots o.arity} {i : Nat} (hi : o.arity ≤ i) (c : Option Tree) :
    (Tree.node o slots).rebind i c = .error (.noSuchSlot o.symbol i o.arity) :=
  if_neg (Nat.not_lt_of_le hi)

theorem Tree.exists_slots_of_root (h : t.root = .inr o) : ∃ slots, t = .node o slots := by
  cases t with
  | leaf l => cases h
  | node o' slots =>
    cases h
    exact ⟨slots, rfl⟩

/-- **An edit leaves the root.** -/
theorem Tree.root_edit (h : t.root = .inr o) (e : Edit) : (t.edit e).root = .inr o := by
  obtain ⟨slots, rfl⟩ := exists_slots_of_root h
  cases e with
  | rebind i c =>
    rcases Nat.lt_or_ge i o.arity with hi | hi
    · rw [edit, rebind_of_lt hi]
      rfl
    · rw [edit, rebind_of_le hi]
      rfl
  | permute order => rfl

/-- **So does any sequence of edits.** -/
theorem Tree.root_edits (h : t.root = .inr o) (es : List Edit) : (t.edits es).root = .inr o := by
  induction es generalizing t with
  | nil => exact h
  | cons e es ih => exact ih (root_edit h e)

/-- The last child that a slot was bound to is the one that is in it. -/
theorem Slots.set_set {n : Nat} (s : Slots n) (i : Nat) (c d : Option Tree) :
    (s.set i c).set i d = s.set i d := by
  refine Slots.ext _ _ ?_
  intro j hj
  rw [get?_set, get?_set, get?_set]
  split
  · rfl
  · rfl

/-- A slot may be bound to what is in it. -/
theorem Slots.set_get? {n : Nat} (s : Slots n) (i : Nat) : s.set i (s.get? i) = s := by
  refine Slots.ext _ _ ?_
  intro j hj
  rw [get?_set]
  split
  · next h => rw [h.1]
  · rfl

/-! ## What stays, and what is changed -/

/-- What there is to say about a node of an operator, and about rebinding its slots. -/
structure Tree.KeepsTo (o : Op) (t : Tree) : Prop where
  /-- It is still a node of the operator, as it was configured. -/
  root : t.root = .inr o
  identifier : t.identifier = o.symbol
  resultTy : ∀ ts, t.resultTy ts = o.resultTy ts
  /-- Each node, be it the root or below, has the slots that its operator asks for. -/
  slots : ∀ p u o', t.at? p = some u → u.root = .inr o' → u.children.length = o'.arity
  refused : ∀ i c, o.arity ≤ i →
    t.rebind i c = .error (.noSuchSlot o.symbol i o.arity) ∧ t.edit (.rebind i c) = t
  /-- The slot gives up what it held and gets the new child, the other slots are left alone, and
      with what it gave up bound again the node is the one before. -/
  rebound : ∀ i c, i < o.arity → ∃ t', t.rebind i c = .ok (t.child? i, t') ∧
    t.edit (.rebind i c) = t' ∧ t'.child? i = c ∧ (∀ j, j ≠ i → t'.child? j = t.child? j) ∧
    t'.rebind i (t.child? i) = .ok (c, t)

theorem Tree.keepsTo_of_root (h : t.root = .inr o) : t.KeepsTo o := by
  obtain ⟨slots, rfl⟩ := exists_slots_of_root h
  refine ⟨rfl, rfl, fun _ => rfl, ?_, ?_, ?_⟩
  · intro p u o' _ hroot
    obtain ⟨slots', rfl⟩ := exists_slots_of_root hroot
    exact slots'.length_toList
  · intro i c hi
    refine ⟨rebind_of_le hi c, ?_⟩
    rw [edit, rebind_of_le hi]
  · intro i c hi
    refine ⟨.node o (slots.set i c), rebind_of_lt hi c, ?_, ?_, ?_, ?_⟩
    · rw [edit, rebind_of_lt hi]
    · show (slots.set i c).get? i = c
      rw [Slots.get?_set, if_pos ⟨rfl, hi⟩]
    · intro j hj
      show (slots.set i c).get? j = slots.get? j
      rw [Slots.get?_set, if_neg fun h => hj h.1]
    · show (Tree.node o (slots.set i c)).rebind i (slots.get? i) = _
      rw [rebind_of_lt hi, Slots.get?_set, if_pos ⟨rfl, hi⟩, Slots.set_set, Slots.set_get?]

/-- **However a node was made and edited, it keeps to its operator.** -/
theorem Tree.keepsTo_edits (h : o.Makes t) (es : List Edit) : (t.edits es).KeepsTo o :=
  keepsTo_of_root (root_edits h.root es)

/-- A division from a template with a fallback of its own. One of the edits is refused. -/
theorem Tree.keepsTo_edits_divide :
    ∃ t, ({ templates := [(Op.divide (Binary.doubleOfInt 7)).empty] } : Library).instantiate "PDIV" =
        .ok t ∧
      (t.edits [.rebind 0 (some t), .permute (1 - ·), .rebind 5 none]).KeepsTo
        (.divide (Binary.doubleOfInt 7)) := by
  have hmade : ({ templates := [(Op.divide (Binary.doubleOfInt 7)).empty] } :
      Library).instantiate "PDIV" = .ok (Op.divide (Binary.doubleOfInt 7)).empty.fresh := rfl
  exact ⟨_, hmade, keepsTo_edits (.instantiate rfl rfl hmade) _⟩

end

end ExprTree
