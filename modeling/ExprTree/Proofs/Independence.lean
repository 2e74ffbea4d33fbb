import ExprTree.Proofs.Request

/-!
# What a run does not depend on

`Tree.refill` puts other children into the slots of a tree that are not to be *kept*: nothing, any
tree, well-typed or not, at any number of places and depths at once. The refills of a tree are exactly
the trees that agree with it on the kept slots (`Tree.agreeOn_iff_refill`).

**A run is not changed by a refill that keeps the slots it requested** (`Tree.eval_refill`), nor by
other values for variables it did not read. The set of requested slots comes out of the run itself;
what makes the induction go through is that it is only ever used from above: the statement is about
any set of kept slots that contains it.
-/

set_option autoImplicit false

namespace ExprTree

/-! ## Refilling -/

mutual

/-- The tree with `fill p` in each slot, at a place `p`, that is not kept. What is below such a slot
    goes with its old child. -/
def Tree.refill (kept : Place → Bool) (fill : Place → Option Tree) : Tree → Tree
  | .leaf l => .leaf l
  | .node o slots => .node o (slots.refill 0 kept fill)

/-- The row with its slots refilled, the first of which is slot `first` of the node. -/
def Slots.refill {n : Nat} (first : Nat) (kept : Place → Bool) (fill : Place → Option Tree) :
    Slots n → Slots n
  | .nil => .nil
  | .unbound rest =>
    .cons (if kept [first] then none else fill [first]) (rest.refill (first + 1) kept fill)
  | .bound t rest =>
    .cons
      (if kept [first] then
        some (t.refill (fun p => kept (first :: p)) fun p => fill (first :: p))
      else fill [first])
      (rest.refill (first + 1) kept fill)

end

/-- The children of a refilled node are the refilled children, where they are kept, and else what
    `fill` says. -/
theorem Slots.get?_refill (kept : Place → Bool) (fill : Place → Option Tree) :
    ∀ {n : Nat} (s : Slots n) (first i : Nat), i < n →
      (s.refill first kept fill).get? i =
        if kept [first + i] then
          (s.get? i).map (Tree.refill (fun p => kept ((first + i) :: p))
            fun p => fill ((first + i) :: p))
        else fill [first + i]
  | _, .nil, _, i, h => absurd h (Nat.not_lt_zero i)
  | _, .unbound rest, first, 0, _ => by
    rw [refill, get?_cons_zero]
    rfl
  | _, .bound t rest, first, 0, _ => by
    rw [refill, get?_cons_zero]
    rfl
  | _, .unbound rest, first, i + 1, h => by
    have hi := get?_refill kept fill rest (first + 1) i (Nat.lt_of_succ_lt_succ h)
    rw [refill, get?_cons_succ, hi, Nat.add_right_comm first 1 i]
    rfl
  | _, .bound t rest, first, i + 1, h => by
    have hi := get?_refill kept fill rest (first + 1) i (Nat.lt_of_succ_lt_succ h)
    rw [refill, get?_cons_succ, hi, Nat.add_right_comm first 1 i]
    rfl

variable {kept : Place → Bool} {fill : Place → Option Tree}

theorem Slots.get?_refill_of_kept {n : Nat} (s : Slots n) {i : Nat} (hk : kept [i]) :
    (s.refill 0 kept fill).get? i =
      (s.get? i).map (Tree.refill (fun p => kept (i :: p)) fun p => fill (i :: p)) := by
  rcases Nat.lt_or_ge i n with hi | hi
  · rw [get?_refill kept fill s 0 i hi, Nat.zero_add, if_pos hk]
  · rw [get?_eq_none_of_le _ hi, get?_eq_none_of_le s hi]
    rfl

theorem Slots.get?_refill_of_not_kept {n : Nat} (s : Slots n) {i : Nat} (hi : i < n)
    (hk : kept [i] = false) : (s.refill 0 kept fill).get? i = fill [i] := by
  rw [get?_refill kept fill s 0 i hi, Nat.zero_add, hk]
  rfl

/-! ## Agreement -/

/-- The trees differ at most in what they have in slots that are not kept: at every place that kept
    slots lead to, both have the same leaf, or the same operator, or nothing. -/
def Tree.AgreeOn (kept : Place → Bool) (t t' : Tree) : Prop :=
  ∀ p, (∀ q, q ≠ [] → q <+: p → kept q) → (t.at? p).map root = (t'.at? p).map root

theorem Tree.kept_cons {i : Nat} {p : Place} (hi : kept [i])
    (hp : ∀ q, q ≠ [] → q <+: p → kept (i :: q)) : ∀ q, q ≠ [] → q <+: i :: p → kept q := by
  intro q hq hqp
  cases q with
  | nil => exact absurd rfl hq
  | cons j q =>
    obtain ⟨rfl, hq'⟩ := List.cons_prefix_cons.mp hqp
    cases q with
    | nil => exact hi
    | cons k q => exact hp _ (by simp) hq'

theorem Tree.agreeOn_refill (kept : Place → Bool) (fill : Place → Option Tree) (t : Tree) :
    t.AgreeOn kept (t.refill kept fill) := by
  induction t using Tree.byNode generalizing kept fill with
  | leaf l =>
    intro p _
    rw [refill]
  | node o slots ih =>
    intro p hp
    rw [refill]
    cases p with
    | nil => rfl
    | cons i p =>
      have hi : kept [i] := hp [i] (by simp) (by simp)
      rw [at?_node_cons, at?_node_cons, slots.get?_refill_of_kept hi]
      cases hu : slots.get? i with
      | none => rfl
      | some u =>
        refine ih i u hu _ _ p ?_
        intro q hq hqp
        exact hp _ (by simp) (List.cons_prefix_cons.mpr ⟨rfl, hqp⟩)

theorem Tree.eq_refill_of_agreeOn {kept : Place → Bool} {t t' : Tree} (h : t.AgreeOn kept t') :
    t' = t.refill kept t'.at? := by
  induction t using Tree.byNode generalizing kept t' with
  | leaf l =>
    have hroot : some (Sum.inl l) = some t'.root := h [] fun q hq hp => by simp_all
    cases t' with
    | leaf l' => cases hroot; rw [refill]
    | node o s => cases hroot
  | node o slots ih =>
    have hroot : some (Sum.inr o) = some t'.root := h [] fun q hq hp => by simp_all
    cases t' with
    | leaf l => cases hroot
    | node o' slots' =>
      cases hroot
      rw [refill]
      congr 1
      refine Slots.ext _ _ ?_
      intro i hi
      cases hk : kept [i] with
      | false =>
        rw [slots.get?_refill_of_not_kept hi hk, at?_node_cons]
        cases slots'.get? i <;> rfl
      | true =>
        rw [slots.get?_refill_of_kept hk]
        have hslot := h [i] (kept_cons hk fun q hq hp => by simp_all)
        rw [at?_node_cons, at?_node_cons] at hslot
        cases hu : slots.get? i with
        | none =>
          rw [hu] at hslot
          cases hu' : slots'.get? i with
          | none => rfl
          | some u' => rw [hu'] at hslot; cases hslot
        | some u =>
          rw [hu] at hslot
          cases hu' : slots'.get? i with
          | none => rw [hu'] at hslot; cases hslot
          | some u' =>
            have hbelow : u.AgreeOn (fun p => kept (i :: p)) u' := by
              intro p hp
              have hip := h (i :: p) (kept_cons hk hp)
              rwa [at?_node_cons, at?_node_cons, hu, hu'] at hip
            have hfill : (fun p => (Tree.node o slots').at? (i :: p)) = u'.at? := by
              funext p
              rw [at?_node_cons, hu']
              rfl
            rw [hfill, Option.map_some, ← ih i u hu hbelow]

/-- **To agree on the kept slots is to be a refill.** -/
theorem Tree.agreeOn_iff_refill {kept : Place → Bool} {t t' : Tree} :
    t.AgreeOn kept t' ↔ ∃ fill, t' = t.refill kept fill :=
  ⟨fun h => ⟨t'.at?, eq_refill_of_agreeOn h⟩, fun ⟨fill, h⟩ => h ▸ agreeOn_refill kept fill t⟩

/-! ## Runs over refilled trees -/

/-- A run over some slots is a run over the refilled slots, if it requested kept slots only and the
    subtrees it evaluated run as before. -/
theorem Plan.Runs.refill {b b' : Bindings} {o : Op} {slots : Slots o.arity} {plan : Plan}
    {flag : Bool} {r : Run Value} (h : plan.Runs b o slots flag r)
    (below : ∀ i u, slots.get? i = some u →
      (∀ p ∈ (u.eval b false).trail.requests, kept (i :: p)) →
      (∀ x, .var x ∈ (u.eval b false).trail.leaves → b'.get? x = b.get? x) →
      (u.refill (fun p => kept (i :: p)) fun p => fill (i :: p)).eval b' false = u.eval b false)
    (hk : ∀ p ∈ r.trail.requests, kept p)
    (hv : ∀ x, .var x ∈ r.trail.leaves → b'.get? x = b.get? x) :
    plan.Runs b' o (slots.refill 0 kept fill) flag r := by
  -- What a bound slot that was asked holds afterwards, and that it runs as before.
  have asked : ∀ {i u}, slots.get? i = some u →
      (∀ p ∈ (Trail.asking i (u.eval b false).trail).requests, kept p) →
      (∀ x, .var x ∈ (u.eval b false).trail.leaves → b'.get? x = b.get? x) →
      ∃ u', (slots.refill 0 kept fill).get? i = some u' ∧ u'.eval b' false = u.eval b false := by
    intro i u hu hk hv
    rw [Trail.requests_asking] at hk
    refine ⟨_, ?_, below i u hu ?_ hv⟩
    · rw [slots.get?_refill_of_kept (hk _ List.mem_cons_self), hu]
      rfl
    · intro p hp
      exact hk _ (List.mem_cons_of_mem _ (List.mem_map_of_mem hp))
  induction h with
  | answer v flag => exact .answer v flag
  | interrupted slot want next => exact .interrupted slot want next
  | unbound want next hu =>
    refine .unbound want next ?_
    rw [slots.get?_refill_of_kept (hk _ (by simp)), hu]
    rfl
  | failed want next hu he =>
    obtain ⟨u', hu', hr⟩ := asked hu hk (by simpa using hv)
    rw [← hr] at he ⊢
    exact .failed want next hu' he
  | refused want next hu hv' he =>
    obtain ⟨u', hu', hr⟩ := asked hu hk (by simpa using hv)
    rw [← hr] at hv' ⊢
    exact .refused want next hu' hv' he
  | answered want next hu hv' ha _ ih =>
    simp only [Trail.requests_append, Trail.leaves_append, List.mem_append] at hk hv
    obtain ⟨u', hu', hr⟩ := asked hu (fun p hp => hk p (Or.inl hp))
      fun x hx => hv x (Or.inl (by simpa using hx))
    have hnext := ih (fun p hp => hk p (Or.inr hp)) fun x hx => hv x (Or.inr hx)
    rw [← hr] at hv' hnext ⊢
    exact .answered want next hu' hv' ha hnext

theorem Leaf.outcome_congr {b b' : Bindings} {l : Leaf}
    (h : ∀ x, l = .var x → b'.get? x = b.get? x) : l.outcome b' = l.outcome b := by
  cases l with
  | literal v => rfl
  | var x => simp [outcome, h x rfl]
  | probe p => rfl

/-- **What is not requested does not matter.** -/
theorem Tree.eval_refill {b b' : Bindings} {t : Tree} {flag : Bool}
    (hk : ∀ p ∈ (t.eval b flag).trail.requests, kept p)
    (hv : ∀ x, .var x ∈ (t.eval b flag).trail.leaves → b'.get? x = b.get? x) :
    (t.refill kept fill).eval b' flag = t.eval b flag := by
  induction t using Tree.byNode generalizing kept fill flag with
  | leaf l =>
    rw [refill, eval_leaf, eval_leaf, Leaf.eval_eq, Leaf.eval_eq, Leaf.outcome_congr]
    rintro x rfl
    exact hv x (by simp [eval_leaf, Leaf.eval_eq])
  | node o slots ih =>
    rw [refill]
    exact eval_node_of_runs <|
      (runs_node b o slots flag).refill (fun i u hu hk' hv' => ih i u hu hk' hv') hk hv

/-! ## Evaluation in a context -/

/-- **Evaluation depends only on what it requests.** Take the evaluation of any tree, from any store
    and in any context. In another store, in which the variables that were read have the values they
    had, in a context whose flag is as it was, whatever its switch, and of a tree that has anything
    else in the slots that were not requested, it visits the same leaves in the same order, comes to
    the same outcome, and leaves the same flag. -/
theorem Store.eval_unrequested (s s' : Store) (c c' : Context) (t t' : Tree)
    (trees : t.AgreeOn (· ∈ (s.eval c t).1.trail.requests) t')
    (values : ∀ x, .var x ∈ (s.eval c t).1.trail.leaves → s'.value? x = s.value? x)
    (flags : s'.isRaised c' = s.isRaised c) :
    (s'.eval c' t').1 = (s.eval c t).1 ∧
      (s'.eval c' t').2.isRaised c' = (s.eval c t).2.isRaised c := by
  have hr : (s'.eval c' t').1 = (s.eval c t).1 := by
    obtain ⟨fill, rfl⟩ := Tree.agreeOn_iff_refill.mp trees
    rw [eval_fst, eval_fst, flags]
    exact Tree.eval_refill (fun p hp => decide_eq_true hp) values
  exact ⟨hr, by rw [isRaised_eval, isRaised_eval, hr]⟩

/-- The operand that a disjunction skips, an unbound variable, is replaced by a number, and the
    variable is bound. -/
theorem Store.eval_unrequested_or :
    (((initial.declareBound "x" (.bool true)).2.declareBound "y" (.bool false)).2.eval ⟨2, true⟩
        ((Op.connective .or).call
          #v[.leaf (.var ⟨"x", .bool, 0⟩), .leaf (.literal (.num (.i32 7)))])).1 =
      ((initial.declareBound "x" (.bool true)).2.eval ⟨2, false⟩
        ((Op.connective .or).call
          #v[.leaf (.var ⟨"x", .bool, 0⟩), .leaf (.var ⟨"y", .bool, 1⟩)])).1 := by
  refine (eval_unrequested _ _ ⟨2, false⟩ _ _ _ ?_ ?_ ?_).1
  · exact Tree.agreeOn_iff_refill.mpr ⟨fun _ => some (.leaf (.literal (.num (.i32 7)))), rfl⟩
  · intro x hx
    replace hx : Leaf.var x ∈ [.var ⟨"x", .bool, 0⟩] := hx
    obtain rfl := Leaf.var.inj (List.mem_singleton.mp hx)
    rfl
  · rfl

end ExprTree
