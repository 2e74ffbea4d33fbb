import ExprTree.Proofs.Place
import ExprTree.State.Bindings

/-!
# Replacing subtrees

`Tree.put` replaces what is at a place of a tree. It is made of the one edit that there is, the binding
of a slot: from the place upwards, the slot on the way is bound again to what has become of the
subtree in it.

**The type of a node depends on its operator and on the types of what is in its slots**, and on
nothing else (`Slots.tys?_congr`). So a subtree may be exchanged for any other of its type, in a tree
that has a type as in one that has none (`Tree.ty?_put`), and a tree may be exchanged for
any other whose nodes are the same to the rules of typing (`Tree.ty?_eq_of_alike`).
-/

set_option autoImplicit false

namespace ExprTree

/-! ## The edit -/

/-- The tree with `c` in slot `i` of the root. A tree that refuses the edit, having no such slot,
    stays as it is. -/
def Tree.withSlot (t : Tree) (i : Nat) (c : Option Tree) : Tree :=
  match t.rebind i c with
  | .ok (_, t') => t'
  | .error _ => t

/-- What is left of a tree when the position at a place in it is given `c`; it is nothing only if that
    place is the root and `c` is nothing. -/
def Tree.put (c : Option Tree) : Place → Tree → Option Tree
  | [], _ => c
  | i :: p, t => some (t.withSlot i ((t.child? i).bind fun u => u.put c p))

theorem Slots.set_of_le {n : Nat} (s : Slots n) {i : Nat} (c : Option Tree) (h : n ≤ i) :
    s.set i c = s := by
  refine Slots.ext _ _ ?_
  intro j hj
  rw [get?_set, if_neg]
  rintro ⟨-, hi⟩
  exact absurd hi (Nat.not_lt.mpr h)

@[simp] theorem Tree.withSlot_node (o : Op) (slots : Slots o.arity) (i : Nat) (c : Option Tree) :
    (Tree.node o slots).withSlot i c = .node o (slots.set i c) := by
  rw [withSlot, rebind]
  rcases Nat.lt_or_ge i o.arity with hi | hi
  · rw [if_pos hi]
  · rw [if_neg (Nat.not_lt.mpr hi), slots.set_of_le c hi]

@[simp] theorem Tree.put_nil (c : Option Tree) (t : Tree) : t.put c [] = c := rfl

@[simp] theorem Tree.put_node_cons (c : Option Tree) (o : Op) (slots : Slots o.arity) (i : Nat)
    (p : Place) : (Tree.node o slots).put c (i :: p) =
      some (.node o (slots.set i ((slots.get? i).bind fun u => u.put c p))) := by
  rw [put, withSlot_node]
  rfl

/-- A place below a root leads into one of its slots. -/
theorem Tree.at?_cons_eq_some_iff {t s : Tree} {i : Nat} {p : Place} :
    t.at? (i :: p) = some s ↔
      ∃ o slots u, t = .node o slots ∧ slots.get? i = some u ∧ u.at? p = some s := by
  cases t with
  | leaf l => simp [at?, child?]
  | node o slots =>
    rw [at?_node_cons, Option.bind_eq_some_iff]
    constructor
    · rintro ⟨u, hu, hs⟩
      exact ⟨o, slots, u, rfl, hu, hs⟩
    · rintro ⟨_, _, u, h, hu, hs⟩
      cases h
      exact ⟨u, hu, hs⟩

/-- **What a replacement does**: the new subtree is where the old one was, and every node that is
    neither there nor below is as before. -/
theorem Tree.exists_put {t s : Tree} {p : Place} (hs : t.at? p = some s) (new : Tree) :
    ∃ t', t.put (some new) p = some t' ∧ t'.at? p = some new ∧
      ∀ q, ¬ p <+: q → (t'.at? q).map root = (t.at? q).map root := by
  induction p generalizing t with
  | nil => exact ⟨new, rfl, rfl, fun q hq => absurd List.nil_prefix hq⟩
  | cons i p ih =>
    obtain ⟨o, slots, u, rfl, hu, hbelow⟩ := at?_cons_eq_some_iff.mp hs
    obtain ⟨u', hu', hat, hframe⟩ := ih hbelow
    have hi : i < o.arity := Slots.lt_of_get? hu
    refine ⟨.node o (slots.set i (some u')), ?_, ?_, ?_⟩
    · rw [put_node_cons, hu, Option.bind_some, hu']
    · rw [at?_node_cons, Slots.get?_set, if_pos ⟨rfl, hi⟩]
      exact hat
    · intro q hq
      cases q with
      | nil => rfl
      | cons j q =>
        rw [at?_node_cons, at?_node_cons, Slots.get?_set]
        by_cases hj : j = i
        · subst hj
          rw [if_pos ⟨rfl, hi⟩, hu]
          exact hframe q fun hpq => hq (List.cons_prefix_cons.mpr ⟨rfl, hpq⟩)
        · rw [if_neg fun h => hj h.1]

/-! ## Types of rows -/

/-- **Rows with the same types in their slots have the same types**, or none both. -/
theorem Slots.tys?_congr {m n : Nat} (hn : m = n) {s : Slots m} {s' : Slots n}
    (h : ∀ i, (s.get? i).bind Tree.ty? = (s'.get? i).bind Tree.ty?) : s.tys? = s'.tys? := by
  subst hn
  refine Option.ext ?_
  intro ts
  rw [tys?_eq_some_iff, tys?_eq_some_iff]
  simp only [h]

theorem Slots.all_toList_isSome {n : Nat} {s : Slots n} (h : ∀ i < n, (s.get? i).isSome) :
    s.toList.all Option.isSome := by
  rw [List.all_eq_true]
  intro c hc
  obtain ⟨i, hi⟩ := List.getElem?_of_mem hc
  have hlt : i < n := s.length_toList ▸ (List.getElem?_eq_some_iff.mp hi).1
  obtain rfl := Option.some.inj ((s.getElem?_toList_of_lt hlt).symm.trans hi)
  exact h i hlt

theorem Tree.exists_ty?_of_slot {o : Op} {slots : Slots o.arity} {ty : Ty} {i : Nat}
    (h : (Tree.node o slots).ty? = some ty) (hi : i < o.arity) :
    ∃ u σ, slots.get? i = some u ∧ u.ty? = some σ := by
  rw [ty?, Option.bind_eq_some_iff] at h
  obtain ⟨ts, hts, -⟩ := h
  obtain ⟨hlen, hslots⟩ := (slots.tys?_eq_some_iff ts).mp hts
  obtain ⟨σ, hσ⟩ : ∃ σ, ts[i]? = some σ := ⟨_, List.getElem?_eq_getElem (hlen ▸ hi)⟩
  obtain ⟨u, hu, huty⟩ := Option.bind_eq_some_iff.mp ((hslots i hi).trans hσ)
  exact ⟨u, σ, hu, huty⟩

theorem Tree.allBound_of_ty? {t : Tree} {ty : Ty} (h : t.ty? = some ty) : t.allBound := by
  cases t with
  | leaf l => rfl
  | node o slots =>
    refine Slots.all_toList_isSome ?_
    intro i hi
    obtain ⟨u, _, hu, -⟩ := exists_ty?_of_slot h hi
    rw [hu]
    rfl

/-- **Every subtree of a typed tree is typed.** -/
theorem Tree.exists_ty?_at {t s : Tree} {ty : Ty} {p : Place} (h : t.ty? = some ty)
    (hs : t.at? p = some s) : ∃ σ, s.ty? = some σ := by
  induction p generalizing t ty with
  | nil =>
    obtain rfl : t = s := Option.some.inj hs
    exact ⟨ty, h⟩
  | cons i p ih =>
    obtain ⟨o, slots, u, rfl, hu, hbelow⟩ := at?_cons_eq_some_iff.mp hs
    obtain ⟨u', σ, hu', hσ⟩ := exists_ty?_of_slot h (Slots.lt_of_get? hu)
    obtain rfl := Option.some.inj (hu.symm.trans hu')
    exact ih hσ hbelow

/-- **A subtree may be replaced by any tree of its type**: the whole keeps its type, or keeps having
    none. -/
theorem Tree.ty?_put {t s new t' : Tree} {p : Place} (hs : t.at? p = some s)
    (hty : new.ty? = s.ty?) (h : t.put (some new) p = some t') : t'.ty? = t.ty? := by
  induction p generalizing t t' with
  | nil =>
    obtain rfl : t = s := Option.some.inj hs
    obtain rfl : new = t' := Option.some.inj h
    exact hty
  | cons i p ih =>
    obtain ⟨o, slots, u, rfl, hu, hbelow⟩ := at?_cons_eq_some_iff.mp hs
    obtain ⟨u', hu', -, -⟩ := exists_put hbelow new
    rw [put_node_cons, hu, Option.bind_some, hu'] at h
    obtain rfl := Option.some.inj h
    rw [ty?, ty?]
    congr 1
    refine Slots.tys?_congr rfl ?_
    intro j
    rw [Slots.get?_set]
    by_cases hj : j = i
    · subst hj
      rw [if_pos ⟨rfl, Slots.lt_of_get? hu⟩, hu]
      exact ih hbelow hu'
    · rw [if_neg fun h => hj h.1]

/-! ## Trees that typing does not tell apart -/

/-- The operator in its default configuration. -/
def Op.plain : Op → Op
  | divide _ => divide defaultFallback
  | o => o

@[simp] theorem Op.arity_plain (o : Op) : o.plain.arity = o.arity := by
  cases o <;> rfl

@[simp] theorem Op.resultTy_plain (o : Op) (ts : List Ty) : o.plain.resultTy ts = o.resultTy ts := by
  cases o <;> rfl

/-- What typing sees of the root: the type of a leaf, or an operator without its configuration. -/
def Tree.kind : Tree → Ty ⊕ Op
  | leaf l => .inl l.ty
  | node o _ => .inr o.plain

/-- The trees have the same shape, leaves of the same types, and the same operators, which may be
    configured differently. -/
def Tree.Alike (t t' : Tree) : Prop := ∀ p, (t.at? p).map kind = (t'.at? p).map kind

/-- A slot is bound in both of two nodes that are alike, or in neither. -/
theorem Tree.Alike.slot {o o' : Op} {slots : Slots o.arity} {slots' : Slots o'.arity}
    (h : (Tree.node o slots).Alike (.node o' slots')) (i : Nat) :
    (slots.get? i = none ∧ slots'.get? i = none) ∨
      ∃ u u', slots.get? i = some u ∧ slots'.get? i = some u' ∧ u.Alike u' := by
  have hslot := h [i]
  rw [at?_node_cons, at?_node_cons] at hslot
  cases hu : slots.get? i with
  | none =>
    cases hu' : slots'.get? i with
    | none => exact Or.inl ⟨rfl, rfl⟩
    | some u' => rw [hu, hu'] at hslot; cases hslot
  | some u =>
    cases hu' : slots'.get? i with
    | none => rw [hu, hu'] at hslot; cases hslot
    | some u' =>
      refine Or.inr ⟨u, u', rfl, rfl, ?_⟩
      intro p
      have hip := h (i :: p)
      rwa [at?_node_cons, at?_node_cons, hu, hu'] at hip

/-- **Trees that are alike have one type**, or none both. -/
theorem Tree.ty?_eq_of_alike {t t' : Tree} (h : t.Alike t') : t.ty? = t'.ty? := by
  induction t using Tree.byNode generalizing t' with
  | leaf l =>
    have hroot : some (.inl l.ty) = some t'.kind := h []
    cases t' with
    | leaf l' =>
      rw [ty?, ty?, Sum.inl.inj (Option.some.inj hroot)]
    | node o slots => cases hroot
  | node o slots ih =>
    have hroot : some (.inr o.plain) = some t'.kind := h []
    cases t' with
    | leaf l => cases hroot
    | node o' slots' =>
      have ho : o.plain = o'.plain := Sum.inr.inj (Option.some.inj hroot)
      have harity : o.arity = o'.arity := by rw [← o.arity_plain, ho, o'.arity_plain]
      have hrule : o.resultTy = o'.resultTy := by
        funext ts
        rw [← o.resultTy_plain, ho, o'.resultTy_plain]
      rw [ty?, ty?, hrule]
      congr 1
      refine Slots.tys?_congr harity ?_
      intro i
      rcases h.slot i with ⟨hu, hu'⟩ | ⟨u, u', hu, hu', hbelow⟩
      · rw [hu, hu']
      · rw [hu, hu']
        exact ih i u hu hbelow

theorem Tree.at?_mapLeaves (f : Leaf → Leaf) (t : Tree) (p : Place) :
    (t.mapLeaves f).at? p = (t.at? p).map (Tree.mapLeaves f) := by
  induction p generalizing t with
  | nil => rfl
  | cons i p ih =>
    cases t with
    | leaf l =>
      rw [mapLeaves]
      rfl
    | node o slots =>
      rw [mapLeaves, at?_node_cons, at?_node_cons, Slots.get?_mapLeaves]
      cases slots.get? i with
      | none => rfl
      | some u => exact ih u

theorem Tree.alike_mapLeaves {f : Leaf → Leaf} (hf : ∀ l, (f l).ty = l.ty) (t : Tree) :
    (t.mapLeaves f).Alike t := by
  intro p
  rw [at?_mapLeaves, Option.map_map]
  congr 1
  funext u
  cases u with
  | leaf l =>
    show (mapLeaves f (.leaf l)).kind = _
    rw [mapLeaves, kind, hf, kind]
  | node o slots =>
    show (mapLeaves f (.node o slots)).kind = _
    rw [mapLeaves, kind, kind]

/-- A variable that has a value as that value, and any other leaf as it is. -/
def Leaf.resolve (b : Bindings) : Leaf → Leaf
  | var x => ((b.get? x).map literal).getD (var x)
  | l => l

theorem Leaf.ty_resolve (b : Bindings) (l : Leaf) : (l.resolve b).ty = l.ty := by
  cases l with
  | literal v => rfl
  | var x =>
    rw [resolve]
    cases hx : b.get? x with
    | none => rfl
    | some v => exact b.ty_of_get? hx
  | probe p => rfl

/-- The tree with their values in place of the variables that have one. -/
def Tree.resolve (b : Bindings) (t : Tree) : Tree := t.mapLeaves (Leaf.resolve b)

/-! ## Replacement -/

/-- **Replacing a subtree preserves typing.** Let `s` be the subtree of `t` at a place. If `t` has a
    type, so has `s`, and no slot of `t` is unbound. Any tree of the type of `s`, or without one if `s`
    has none, can take the place of `s`, which changes nothing else, and the whole has the type that
    it had, or none. Configurations, constants and the values of variables play no part in types. And
    two typed trees that exchange equally typed subtrees keep their types. -/
theorem Tree.replacement_typed (t s : Tree) (p : Place) (hs : t.at? p = some s) :
    (∀ ty, t.ty? = some ty → (∃ σ, s.ty? = some σ) ∧ ∀ q u, t.at? q = some u → u.allBound) ∧
    (∀ new : Tree, new.ty? = s.ty? → ∃ t', t.put (some new) p = some t' ∧ t'.ty? = t.ty? ∧
      t'.at? p = some new ∧ ∀ q, ¬ p <+: q → (t'.at? q).map root = (t.at? q).map root) ∧
    (∀ t', t.Alike t' → t'.ty? = t.ty?) ∧
    (∀ b, (t.resolve b).ty? = t.ty?) ∧
    (∀ (t₂ s₂ : Tree) (p₂ : Place), t₂.at? p₂ = some s₂ → s₂.ty? = s.ty? →
      ∀ ty ty₂, t.ty? = some ty → t₂.ty? = some ty₂ →
        ∃ t' t₂', t.put (some s₂) p = some t' ∧ t₂.put (some s) p₂ = some t₂' ∧
          t'.ty? = some ty ∧ t₂'.ty? = some ty₂) := by
  refine ⟨?_, ?_, ?_, ?_, ?_⟩
  · intro ty hty
    refine ⟨exists_ty?_at hty hs, ?_⟩
    intro q u hu
    obtain ⟨σ, hσ⟩ := exists_ty?_at hty hu
    exact allBound_of_ty? hσ
  · intro new hnew
    obtain ⟨t', ht', hat, hframe⟩ := exists_put hs new
    exact ⟨t', ht', ty?_put hs hnew ht', hat, hframe⟩
  · intro t' h
    exact (ty?_eq_of_alike h).symm
  · intro b
    exact ty?_eq_of_alike (alike_mapLeaves (Leaf.ty_resolve b) t)
  · intro t₂ s₂ p₂ hs₂ hty ty ty₂ ht ht₂
    obtain ⟨t', ht', -, -⟩ := exists_put hs s₂
    obtain ⟨t₂', ht₂', -, -⟩ := exists_put hs₂ s
    refine ⟨t', t₂', ht', ht₂', ?_, ?_⟩
    · rw [ty?_put hs hty ht', ht]
    · rw [ty?_put hs₂ hty.symm ht₂', ht₂]

/-- A logarithm takes the place of a protected division, in a branch of a choice. -/
theorem Tree.replacement_typed_branch :
    ∃ t', (Op.choose.call #v[.leaf (.var ⟨"p", .bool, 0⟩),
        (Op.divide (Binary.doubleOfWord 1)).call
          #v[.leaf (.literal (.num (.i32 1))), .leaf (.var ⟨"n", .num .i64, 1⟩)],
        .leaf (.var ⟨"x", .num .f64, 2⟩)]).put
          (some ((Op.real .ln).call #v[.leaf (.literal (.num (.i64 5)))])) [1] = some t' ∧
      t'.ty? = some (.num .f64) := by
  obtain ⟨t', ht', hty, -⟩ := (replacement_typed
    (Op.choose.call #v[.leaf (.var ⟨"p", .bool, 0⟩),
      (Op.divide (Binary.doubleOfWord 1)).call
        #v[.leaf (.literal (.num (.i32 1))), .leaf (.var ⟨"n", .num .i64, 1⟩)],
      .leaf (.var ⟨"x", .num .f64, 2⟩)]) _ [1] rfl).2.1
    ((Op.real .ln).call #v[.leaf (.literal (.num (.i64 5)))]) rfl
  exact ⟨t', ht', hty⟩

end ExprTree
