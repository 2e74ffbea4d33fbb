import ExprTree.Proofs.Candidates

/-!
# Ways of making a node

A node over given children can be made by its operator, from a list or from a vector of them; by a
library, from a template; and by hand, from an empty node whose slots are bound one after the other.
**All of them make `Tree.over`**, the node of that kind with those children, or refuse a list of the
wrong length in the same words. A template gives its root and nothing else: what is in its slots is
lost, and how it is configured is kept.
-/

set_option autoImplicit false

namespace ExprTree

/-! ## The node over a list of children -/

/-- The node of the kind of `t`, configured like it, over a list of children. -/
def Tree.over (t : Tree) (children : List (Option Tree)) : Tree :=
  t.fill (.ofFn t.arity fun i => children[i]?.join)

@[simp] theorem Tree.root_over (t : Tree) (children : List (Option Tree)) :
    (t.over children).root = t.root := by
  cases t <;> rfl

theorem Tree.over_eq_of_root {t t' : Tree} (h : t.root = t'.root) (children : List (Option Tree)) :
    t.over children = t'.over children := by
  cases t with
  | leaf l =>
    cases t' with
    | leaf l' => cases h; rfl
    | node o slots => cases h
  | node o slots =>
    cases t' with
    | leaf l => cases h
    | node o' slots' => cases h; rfl

/-- A fresh node is one over no children. -/
theorem Tree.fresh_eq_over (t : Tree) : t.fresh = t.over [] := by
  cases t <;> rfl

theorem Tree.fresh_eq_of_root {t t' : Tree} (h : t.root = t'.root) : t.fresh = t'.fresh := by
  rw [fresh_eq_over, fresh_eq_over, over_eq_of_root h]

/-- A list of the right length is in the slots as it was given. -/
theorem Tree.children_over {t : Tree} {children : List (Option Tree)}
    (h : children.length = t.arity) : (t.over children).children = children := by
  refine List.ext_getElem? ?_
  intro i
  cases t with
  | leaf l =>
    obtain rfl := List.length_eq_zero_iff.mp h
    rfl
  | node o slots =>
    show (Slots.ofFn o.arity fun i => children[i]?.join).toList[i]? = children[i]?
    rcases Nat.lt_or_ge i o.arity with hi | hi
    · have hi' : i < children.length := h ▸ hi
      rw [Slots.getElem?_toList_of_lt _ hi, Slots.get?_ofFn, if_pos hi,
        List.getElem?_eq_getElem hi']
      rfl
    · have hi' : children.length ≤ i := Nat.le_trans (Nat.le_of_eq h) hi
      rw [List.getElem?_eq_none hi', List.getElem?_eq_none (by rwa [Slots.length_toList])]

/-! ## By the operator -/

theorem Op.ofChildren_of_length {o : Op} {children : List (Option Tree)}
    (h : children.length = o.arity) : o.ofChildren children = .ok (o.empty.over children) := by
  rw [ofChildren, Slots.ofList_of_length o.symbol h]
  rfl

theorem Op.ofChildren_of_ne {o : Op} {children : List (Option Tree)}
    (h : children.length ≠ o.arity) :
    o.ofChildren children = .error (.wrongArity o.symbol o.arity children.length) := by
  rw [ofChildren, Slots.ofList, if_neg h]
  rfl

theorem Op.call_eq (o : Op) (children : Vector Tree o.arity) :
    o.call children = o.empty.over (children.toList.map some) := by
  show Tree.node o _ = .node o _
  congr 2
  funext i
  rw [List.getElem?_map, Vector.getElem?_toList]
  cases children[i]? <;> rfl

/-! ## By hand -/

/-- The tree after binding the slots of a list, one after the other, each to the child that is given
    for it. The first slot that the tree does not have ends it. -/
def Tree.bindEach (children : List (Option Tree)) : List Nat → Tree → Except Fault Tree
  | [], t => .ok t
  | i :: order, t => (t.rebind i children[i]?.join).bind fun edit => edit.2.bindEach children order

theorem Tree.bindEach_node {o : Op} {order : List Nat} (h : ∀ i ∈ order, i < o.arity)
    (children : List (Option Tree)) (slots : Slots o.arity) :
    (Tree.node o slots).bindEach children order =
      .ok (.node o (.ofFn o.arity fun j =>
        if j ∈ order then children[j]?.join else slots.get? j)) := by
  induction order generalizing slots with
  | nil =>
    rw [bindEach]
    congr 2
    refine Slots.ext _ _ ?_
    intro j hj
    rw [Slots.get?_ofFn, if_pos hj, if_neg (by simp)]
  | cons i order ih =>
    have hi : i < o.arity := h i List.mem_cons_self
    rw [bindEach, rebind, if_pos hi]
    refine (ih (fun j hj => h j (List.mem_cons_of_mem i hj)) _).trans ?_
    congr 2
    refine Slots.ext _ _ ?_
    intro j hj
    rw [Slots.get?_ofFn, Slots.get?_ofFn, if_pos hj, if_pos hj, Slots.get?_set]
    -- A slot that has another turn later is given the same child again.
    by_cases hij : j = i
    · subst hij
      simp [hi]
    · simp [hij]

/-- **The order in which the slots are bound does not matter**, as long as each has its turn. -/
theorem Tree.bindEach_fresh {t : Tree} {order : List Nat} (h : order.Perm (List.range t.arity))
    (children : List (Option Tree)) : t.fresh.bindEach children order = .ok (t.over children) := by
  cases t with
  | leaf l =>
    obtain rfl : order = [] := h.eq_nil
    rfl
  | node o slots =>
    have hmem : ∀ i, i ∈ order ↔ i < o.arity := fun i => h.mem_iff.trans List.mem_range
    rw [fresh, bindEach_node fun i hi => (hmem i).mp hi]
    show _ = Except.ok (Tree.node o (.ofFn o.arity fun i => children[i]?.join))
    congr 2
    refine Slots.ext _ _ ?_
    intro j hj
    rw [Slots.get?_ofFn, Slots.get?_ofFn, if_pos hj, if_pos hj, if_pos ((hmem j).mpr hj)]

namespace Library

/-! ## By a library -/

variable {lib : Library} {id : String} {t : Tree} {children : List (Option Tree)}

theorem instantiate_eq (h : lib.get? id = some t) : lib.instantiate id = .ok t.fresh := by
  rw [instantiate, h]

theorem assemble_of_length (h : lib.get? id = some t) (hlen : children.length = t.arity) :
    lib.assemble id children = .ok (t.over children) := by
  rw [assemble_eq h, Slots.ofList_of_length id (hlen.trans t.arity_fresh.symm)]
  cases t <;> rfl

theorem assemble_of_ne (h : lib.get? id = some t) (hlen : children.length ≠ t.arity) :
    lib.assemble id children = .error (.wrongArity id t.arity children.length) := by
  have hne : children.length ≠ t.fresh.arity := t.arity_fresh.symm ▸ hlen
  rw [assemble_eq h, Slots.ofList, if_neg hne]
  show (Except.error (Fault.wrongArity id t.fresh.arity children.length) : Except Fault Tree) = _
  rw [t.arity_fresh]

/-- A library refuses to assemble a node for one of two reasons. -/
theorem fault_of_assemble {e : Fault} (h : lib.assemble id children = .error e) :
    e = .unknownName id ∨ ∃ t, lib.get? id = some t ∧ e = .wrongArity id t.arity children.length := by
  cases hid : lib.get? id with
  | none =>
    rw [assemble_eq_of_not_mem (get?_eq_none_iff.mp hid)] at h
    exact Or.inl (Except.error.inj h).symm
  | some t =>
    by_cases hlen : children.length = t.arity
    · rw [assemble_of_length hid hlen] at h
      cases h
    · rw [assemble_of_ne hid hlen] at h
      exact Or.inr ⟨t, rfl, (Except.error.inj h).symm⟩

/-- Registrations that are all accepted add all their templates. -/
theorem templates_registerEach_of_none {ts : List Tree} (h : (lib.registerEach ts).2 = none) :
    (lib.registerEach ts).1.templates = lib.templates ++ ts := by
  induction ts generalizing lib with
  | nil => exact (List.append_nil _).symm
  | cons t ts ih =>
    rw [registerEach] at h ⊢
    cases hr : lib.register t with
    | ok lib' =>
      rw [hr] at h
      refine (ih h).trans ?_
      rw [(templates_of_register hr).1, List.append_assoc, List.singleton_append]
    | error e =>
      rw [hr] at h
      cases h

theorem get?_standard {o : Op} (h : o ∈ Op.standard) : standard.get? o.symbol = some o.empty := by
  refine get?_eq_some_iff.mpr ⟨?_, rfl⟩
  have htemplates : standard.templates = [] ++ standardTemplates :=
    templates_registerEach_of_none stock_empty
  rw [htemplates]
  exact List.mem_map_of_mem h

/-! ## The agreement -/

/-- **All ways of making a node agree.** For a standard operator and a list of children, the operator
    and the standard library both refuse a list of the wrong length, in the same words, and of a list
    of the right length both make the same node. It has the children in its slots as they were given,
    and it is also what comes of binding the slots of an empty node in any order, and of calling the
    operator if all the children are there. In any library, to assemble is to bind the slots of a
    fresh node from the first to the last, and it is refused for an unknown name or a wrong length
    only; two templates with the same root, whatever their children, give the same nodes; and the
    nodes that come of a division have its fallback. -/
theorem constructions_agree (o : Op) (ho : o ∈ Op.standard) (children : List (Option Tree)) :
    (children.length ≠ o.arity →
      o.ofChildren children = .error (.wrongArity o.symbol o.arity children.length) ∧
      standard.assemble o.symbol children =
        .error (.wrongArity o.symbol o.arity children.length)) ∧
    (children.length = o.arity → ∃ n : Tree, n.root = .inr o ∧ n.children = children ∧
      o.ofChildren children = .ok n ∧ standard.assemble o.symbol children = .ok n ∧
      (∀ order, order.Perm (List.range o.arity) → o.empty.bindEach children order = .ok n) ∧
      (∀ all : Vector Tree o.arity, children = all.toList.map some → o.call all = n)) ∧
    (∀ (lib : Library) (id : String) (t : Tree), lib.get? id = some t →
      children.length = t.arity →
        lib.assemble id children = t.fresh.bindEach children (List.range t.arity)) ∧
    (∀ (lib : Library) (id : String) (e : Fault), lib.assemble id children = .error e →
      e = .unknownName id ∨ ∃ arity, e = .wrongArity id arity children.length) ∧
    (∀ (lib lib' : Library) (id : String) (t t' : Tree), lib.get? id = some t →
      lib'.get? id = some t' → t.root = t'.root →
        lib.instantiate id = lib'.instantiate id ∧
        lib.assemble id children = lib'.assemble id children) ∧
    (∀ (lib : Library) (id : String) (p : F64) (slots : Slots (Op.divide p).arity),
      lib.get? id = some (.node (.divide p) slots) →
        (∃ n, lib.instantiate id = .ok n ∧ n.root = .inr (.divide p)) ∧
        (children.length = 2 →
          ∃ n, lib.assemble id children = .ok n ∧ n.root = .inr (.divide p) ∧
            n.children = children)) := by
  refine ⟨?_, ?_, ?_, ?_, ?_, ?_⟩
  · intro hlen
    exact ⟨Op.ofChildren_of_ne hlen, assemble_of_ne (get?_standard ho) hlen⟩
  · intro hlen
    refine ⟨o.empty.over children, Tree.root_over _ _, Tree.children_over hlen,
      Op.ofChildren_of_length hlen, assemble_of_length (get?_standard ho) hlen, ?_, ?_⟩
    · intro order horder
      exact Tree.bindEach_fresh (t := o.empty) horder children
    · rintro all rfl
      exact o.call_eq all
  · intro lib id t ht hlen
    rw [assemble_of_length ht hlen, Tree.bindEach_fresh (List.Perm.refl _)]
  · intro lib id e he
    rcases fault_of_assemble he with rfl | ⟨t, -, rfl⟩
    · exact Or.inl rfl
    · exact Or.inr ⟨t.arity, rfl⟩
  · intro lib lib' id t t' ht ht' hroot
    have harity : t.arity = t'.arity := by
      rw [← t.arity_fresh, Tree.fresh_eq_of_root hroot, t'.arity_fresh]
    refine ⟨by rw [instantiate_eq ht, instantiate_eq ht', Tree.fresh_eq_of_root hroot], ?_⟩
    by_cases hlen : children.length = t.arity
    · rw [assemble_of_length ht hlen, assemble_of_length ht' (harity ▸ hlen),
        Tree.over_eq_of_root hroot]
    · rw [assemble_of_ne ht hlen, assemble_of_ne ht' (harity ▸ hlen), harity]
  · intro lib id p slots ht
    refine ⟨⟨_, instantiate_eq ht, rfl⟩, ?_⟩
    intro hlen
    exact ⟨_, assemble_of_length ht hlen, rfl, Tree.children_over hlen⟩

/-- A choice without its second child, bound from the last slot to the first. -/
theorem constructions_agree_choose :
    ∃ n, Op.choose.ofChildren
        [some (.leaf (.literal (.bool true))), none, some (.leaf (.literal (.num (.i32 2))))] = .ok n ∧
      standard.assemble "IF"
        [some (.leaf (.literal (.bool true))), none, some (.leaf (.literal (.num (.i32 2))))] = .ok n ∧
      Op.choose.empty.bindEach
        [some (.leaf (.literal (.bool true))), none, some (.leaf (.literal (.num (.i32 2))))]
        [2, 1, 0] = .ok n := by
  obtain ⟨n, -, -, hlist, hlibrary, hbound, -⟩ := (constructions_agree .choose (by decide)
    [some (.leaf (.literal (.bool true))), none, some (.leaf (.literal (.num (.i32 2))))]).2.1 rfl
  exact ⟨n, hlist, hlibrary, hbound [2, 1, 0] (by decide)⟩

end Library

end ExprTree
