import Mathlib.Data.List.Basic
import Mathlib.Data.List.Flatten
import ExprTree.Proofs.PlanAnswers

/-!
# What is evaluated, and in which order

The leaves of a tree have their places in it, and `Tree.occurrences` lists them from left to right. A
subtree that stands in several slots has its leaves in the list once for each.

No plan asks a slot twice, nor one to the left of a slot that it has asked (`Op.ascends_plan`). So **a
run visits leaves from left to right, each at most once** (`Tree.visits_sublist`), whether it succeeds
or not. Which of them a run visits that does succeed is a matter of the way there from the root:
exactly those to which every step is *selected* (`Tree.mem_visits_iff`).
-/

set_option autoImplicit false

namespace ExprTree

/-! ## Occurrences of leaves -/

/-- A leaf with its place in the tree in slot `i` of a node, as seen from the node. -/
def underSlot (i : Nat) (x : Place × Leaf) : Place × Leaf := (i :: x.1, x.2)

mutual

/-- The leaves of a tree with their places, from left to right. -/
def Tree.occurrences : Tree → List (Place × Leaf)
  | .leaf l => [([], l)]
  | .node _ slots => slots.occurrences 0

/-- Those below a row, the first slot of which is slot `first` of the node. -/
def Slots.occurrences {n : Nat} (first : Nat) : Slots n → List (Place × Leaf)
  | .nil => []
  | .unbound rest => rest.occurrences (first + 1)
  | .bound t rest => t.occurrences.map (underSlot first) ++ rest.occurrences (first + 1)

end

/-- The leaves of the tree in slot `i`, with their places in that tree. -/
def Slots.occurrencesIn {n : Nat} (s : Slots n) (i : Nat) : List (Place × Leaf) :=
  ((s.get? i).map Tree.occurrences).getD []

theorem Slots.occurrences_eq {n : Nat} (s : Slots n) (first : Nat) :
    s.occurrences first =
      (List.range n).flatMap fun i => (s.occurrencesIn i).map (underSlot (first + i)) := by
  induction n generalizing first with
  | zero =>
    cases s
    simp [occurrences]
  | succ n ih =>
    rw [List.range_succ_eq_map, List.flatMap_cons, List.flatMap_map]
    cases s with
    | unbound rest =>
      rw [occurrences, ih rest]
      simp [occurrencesIn, get?, Nat.add_comm, Nat.add_left_comm]
    | bound t rest =>
      rw [occurrences, ih rest]
      simp [occurrencesIn, get?, Nat.add_comm, Nat.add_left_comm]

theorem Tree.occurrences_node (o : Op) (slots : Slots o.arity) :
    (Tree.node o slots).occurrences =
      (List.range o.arity).flatMap fun i => (slots.occurrencesIn i).map (underSlot i) := by
  rw [occurrences, Slots.occurrences_eq]
  simp

mutual

/-- The occurrences are of the leaves that the tree lists. -/
theorem Tree.map_snd_occurrences (t : Tree) : t.occurrences.map Prod.snd = t.leaves := by
  cases t with
  | leaf l => simp [Tree.occurrences]
  | node o slots =>
    rw [Tree.occurrences, Slots.map_snd_occurrences slots 0, Tree.leaves, Tree.nodes]
    rfl

theorem Slots.map_snd_occurrences {n : Nat} (s : Slots n) (first : Nat) :
    (s.occurrences first).map Prod.snd = s.nodes.filterMap Sum.getLeft? := by
  cases s with
  | nil => simp [Slots.occurrences, Slots.nodes]
  | unbound rest => rw [Slots.occurrences, Slots.nodes, Slots.map_snd_occurrences rest]
  | bound t rest =>
    have ht : (t.occurrences.map (underSlot first)).map Prod.snd = t.leaves := by
      rw [List.map_map, ← Tree.map_snd_occurrences t]
      rfl
    rw [Slots.occurrences, Slots.nodes, List.map_append, ht, Slots.map_snd_occurrences rest,
      List.filterMap_append, Tree.leaves]

end

theorem Slots.mem_map_occurrencesIn {n : Nat} {s : Slots n} {i : Nat} {x : Place × Leaf} :
    x ∈ (s.occurrencesIn i).map (underSlot i) ↔
      ∃ u p, s.get? i = some u ∧ (p, x.2) ∈ u.occurrences ∧ x.1 = i :: p := by
  rw [List.mem_map, occurrencesIn]
  cases s.get? i with
  | none => simp
  | some u =>
    constructor
    · rintro ⟨⟨p, l⟩, hp, rfl⟩
      exact ⟨u, p, rfl, hp, rfl⟩
    · rintro ⟨_, p, hu, hp, hx⟩
      cases hu
      exact ⟨(p, x.2), hp, Prod.ext hx.symm rfl⟩

/-- **The occurrences are the places of leaves.** -/
theorem Tree.mem_occurrences_iff {t : Tree} {p : Place} {l : Leaf} :
    (p, l) ∈ t.occurrences ↔ t.at? p = some (.leaf l) := by
  induction t using Tree.byNode generalizing p with
  | leaf l' =>
    cases p with
    | nil => simp [occurrences, eq_comm]
    | cons i p => simp [occurrences, at?, child?]
  | node o slots ih =>
    rw [occurrences_node, List.mem_flatMap]
    cases p with
    | nil =>
      constructor
      · rintro ⟨i, -, hi⟩
        obtain ⟨u, p, -, -, hp⟩ := Slots.mem_map_occurrencesIn.mp hi
        cases hp
      · intro h
        cases h
    | cons i p =>
      rw [at?_node_cons, Option.bind_eq_some_iff]
      constructor
      · rintro ⟨j, -, hj⟩
        obtain ⟨u, q, hu, hq, hp⟩ := Slots.mem_map_occurrencesIn.mp hj
        cases hp
        exact ⟨u, hu, (ih i u hu).mp hq⟩
      · rintro ⟨u, hu, hp⟩
        exact ⟨i, List.mem_range.mpr (Slots.lt_of_get? hu),
          Slots.mem_map_occurrencesIn.mpr ⟨u, p, hu, (ih i u hu).mpr hp, rfl⟩⟩

theorem Tree.mem_leaves_of_at? {t : Tree} {p : Place} {l : Leaf} (h : t.at? p = some (.leaf l)) :
    l ∈ t.leaves := by
  have hmem : (p, l) ∈ t.occurrences := mem_occurrences_iff.mpr h
  rw [← t.map_snd_occurrences, List.mem_map]
  exact ⟨(p, l), hmem, rfl⟩

/-- **The occurrences are listed from left to right**, which is the lexicographic order of places. -/
theorem Tree.pairwise_occurrences (t : Tree) :
    t.occurrences.Pairwise fun x y => x.1 < y.1 := by
  induction t using Tree.byNode with
  | leaf l =>
    rw [occurrences]
    exact List.pairwise_singleton _ _
  | node o slots ih =>
    rw [occurrences_node, List.pairwise_flatMap]
    constructor
    · intro i hi
      rw [List.pairwise_map, Slots.occurrencesIn]
      cases hu : slots.get? i with
      | none => exact List.Pairwise.nil
      | some u =>
        refine (ih i u hu).imp ?_
        intro x y hxy
        exact List.cons_lt_cons_iff.mpr (Or.inr ⟨rfl, hxy⟩)
    · refine List.pairwise_lt_range.imp ?_
      intro i j hij x hx y hy
      obtain ⟨_, p, -, -, hp⟩ := Slots.mem_map_occurrencesIn.mp hx
      obtain ⟨_, q, -, -, hq⟩ := Slots.mem_map_occurrencesIn.mp hy
      rw [hp, hq]
      exact List.cons_lt_cons_iff.mpr (Or.inl hij)

theorem Tree.nodup_occurrences (t : Tree) : t.occurrences.Nodup := by
  refine t.pairwise_occurrences.imp ?_
  intro x y hxy h
  rw [h] at hxy
  exact List.lt_irrefl _ hxy

/-! ## Visits -/

namespace Trail

@[simp] theorem visits_nil : nil.visits = [] := rfl

@[simp] theorem visits_request (p : Place) : (event (.request p)).visits = [] := rfl

@[simp] theorem visits_visit (p : Place) (l : Leaf) : (event (.visit p l)).visits = [(p, l)] := rfl

@[simp] theorem visits_append (t u : Trail) : (t ++ u).visits = t.visits ++ u.visits := by
  simp [visits]

@[simp] theorem visits_asking (slot : Nat) (below : Trail) :
    (asking slot below).visits = below.visits.map (underSlot slot) := by
  rw [visits, toList_asking, List.filterMap_cons_none rfl, List.filterMap_map, visits,
    List.map_filterMap]
  congr 1
  funext e
  cases e <;> rfl

/-- The visits are of the leaves that the trail lists. -/
theorem map_snd_visits (t : Trail) : t.visits.map Prod.snd = t.leaves := by
  rw [visits, leaves_eq, List.map_filterMap]
  congr 1
  funext e
  cases e <;> rfl

end Trail

/-! ## The order of visits -/

/-- The plan asks slots from `k` on, each one to the right of those before. -/
inductive Plan.Ascends : Nat → Plan → Prop
  | answer (k : Nat) (v : Value) : Ascends k (.answer v)
  | ask {k slot : Nat} {want : Want} {next : want.Answer → Plan} (hk : k ≤ slot)
      (hn : ∀ a, Ascends (slot + 1) (next a)) : Ascends k (.ask slot want next)

theorem Op.ascends_plan (o : Op) : o.plan.Ascends 0 := by
  cases o with
  | connective c =>
    refine .ask (Nat.le_refl 0) fun a => ?_
    split
    · exact .answer _ _
    · exact .ask (Nat.le_refl 1) fun b => .answer _ _
  | not | unary | real => exact .ask (Nat.le_refl 0) fun a => .answer _ _
  | xor | arith | divide | compare =>
    exact .ask (Nat.le_refl 0) fun a => .ask (Nat.le_refl 1) fun b => .answer _ _
  | choose =>
    refine .ask (Nat.le_refl 0) fun a => .ask ?_ fun v => .answer _ _
    split <;> decide

/-- The occurrences below the slots of a node from slot `k` on. -/
def Slots.occurrencesFrom {n : Nat} (s : Slots n) (k : Nat) : List (Place × Leaf) :=
  ((List.range n).drop k).flatMap fun i => (s.occurrencesIn i).map (underSlot i)

/-- What was visited in a slot, and after that to the right of it, is a part of what is there. -/
theorem Slots.sublist_occurrencesFrom {n : Nat} {s : Slots n} {k slot : Nat} {u : Tree}
    (hk : k ≤ slot) (hu : s.get? slot = some u) {inSlot later : List (Place × Leaf)}
    (hi : inSlot.Sublist u.occurrences) (hl : later.Sublist (s.occurrencesFrom (slot + 1))) :
    (inSlot.map (underSlot slot) ++ later).Sublist (s.occurrencesFrom k) := by
  have hlt : slot < n := lt_of_get? hu
  have hsplit : s.occurrencesFrom slot =
      u.occurrences.map (underSlot slot) ++ s.occurrencesFrom (slot + 1) := by
    rw [occurrencesFrom, List.drop_eq_getElem_cons (by simpa using hlt), List.flatMap_cons,
      List.getElem_range, occurrencesIn, hu]
    rfl
  have hfrom : (s.occurrencesFrom slot).Sublist (s.occurrencesFrom k) :=
    (List.drop_sublist_drop_left _ hk).flatMap _
  refine List.Sublist.trans ?_ hfrom
  rw [hsplit]
  exact (hi.map _).append hl

/-- **A plan that asks from left to right visits from left to right.** -/
theorem Plan.Runs.visits_sublist {b : Bindings} {o : Op} {slots : Slots o.arity} {plan : Plan}
    {flag : Bool} {r : Run Value} (h : plan.Runs b o slots flag r) {k : Nat} (hp : plan.Ascends k)
    (below : ∀ i u, slots.get? i = some u →
      (u.eval b false).trail.visits.Sublist u.occurrences) :
    r.trail.visits.Sublist (slots.occurrencesFrom k) := by
  induction h generalizing k with
  | answer v flag => simp
  | interrupted slot want next => simp
  | unbound want next hu => simp
  | failed want next hu he =>
    cases hp with
    | ask hk hn =>
      simpa using Slots.sublist_occurrencesFrom hk hu (below _ _ hu) (List.nil_sublist _)
  | refused want next hu hv he =>
    cases hp with
    | ask hk hn =>
      simpa using Slots.sublist_occurrencesFrom hk hu (below _ _ hu) (List.nil_sublist _)
  | answered want next hu hv ha hr ih =>
    cases hp with
    | ask hk hn =>
      rw [Trail.visits_append, Trail.visits_asking]
      exact Slots.sublist_occurrencesFrom hk hu (below _ _ hu) (ih (hn _))

/-- **A run visits leaves from left to right, each at most once**, however it ends. -/
theorem Tree.visits_sublist (b : Bindings) (t : Tree) (flag : Bool) :
    (t.eval b flag).trail.visits.Sublist t.occurrences := by
  induction t using Tree.byNode generalizing flag with
  | leaf l => simp [eval_leaf, Leaf.eval_eq, occurrences]
  | node o slots ih =>
    have h := (runs_node b o slots flag).visits_sublist o.ascends_plan fun i u hu => ih i u hu false
    rw [occurrences_node]
    exact h

/-! ## Selected steps -/

/-- The operator has use for slot `i`, where `first` says which values its first child has. -/
def Op.Selects (first : Value → Prop) (i : Nat) : Op → Prop
  | connective .and | connective .nand | connective .implies =>
    i = 0 ∨ i = 1 ∧ first (.bool true)
  | connective .or | connective .nor => i = 0 ∨ i = 1 ∧ first (.bool false)
  | choose => i = 0 ∨ i = 1 ∧ first (.bool true) ∨ i = 2 ∧ first (.bool false)
  | not | xor | arith _ | divide _ | unary _ | real _ | compare _ => True

/-- Every step on the way from the root to the place is into a slot that is selected. -/
def Tree.Selected (b : Bindings) : Tree → Place → Prop
  | _, [] => True
  | .leaf _, _ :: _ => False
  | .node o slots, i :: p =>
    o.Selects (slots.Yields b 0) i ∧ ∃ u, slots.get? i = some u ∧ u.Selected b p

theorem Slots.Yields.eq {b : Bindings} {n : Nat} {s : Slots n} {i : Nat} {v w : Value}
    (hv : s.Yields b i v) (hw : s.Yields b i w) : v = w := by
  obtain ⟨u, hu, hv⟩ := hv
  obtain ⟨u', hu', hw⟩ := hw
  obtain rfl := Option.some.inj (hu.symm.trans hu')
  exact Except.ok.inj (hv.symm.trans hw)

theorem Connective.selects_iff {c : Connective} {first : Value → Prop} {i : Nat} :
    (Op.connective c).Selects first i ↔ i = 0 ∨ i = 1 ∧ first (.bool (!c.decider)) := by
  cases c <;> rfl

/-- **An operator that came to a value has asked the slots that it selects**, and no others. -/
theorem Op.mem_asked_iff {o : Op} {yields : Nat → Value → Prop} {asked : List Nat} {v : Value}
    (h : o.plan.Settles yields asked v) (one : ∀ i v w, yields i v → yields i w → v = w) {i : Nat} :
    i ∈ asked ↔ i < o.arity ∧ o.Selects (yields 0) i := by
  cases o with
  | connective c =>
    rw [Connective.selects_iff, arity]
    rcases h.of_connective with ⟨ha, rfl, -⟩ | ⟨a, b, hne, ha, -, rfl, -⟩
    · -- The first operand has decided, so it does not have the other value.
      have hno : ¬ yields 0 (.bool (!c.decider)) := by
        intro hother
        exact Bool.eq_not.mp (Value.bool.inj (one 0 _ _ ha hother)) rfl
      simp only [List.mem_singleton, hno, and_false, or_false]
      omega
    · have hfirst : yields 0 (.bool (!c.decider)) := by
        rwa [← Bool.eq_not_of_ne hne]
      simp only [List.mem_cons, List.not_mem_nil, or_false, hfirst, and_true]
      omega
  | choose =>
    obtain ⟨a, rest, rfl, ha, hn⟩ := h.of_ask
    obtain ⟨w, -, rfl, -⟩ := hn.of_single
    replace ha : yields 0 (.bool a) := ha
    have hno : ¬ yields 0 (.bool (!a)) := by
      intro hother
      exact Bool.eq_not.mp (Value.bool.inj (one 0 _ _ ha hother)) rfl
    cases a with
    | true =>
      rw [Bool.not_true] at hno
      simp only [Selects, arity, ha, hno, if_true, List.mem_cons, List.not_mem_nil, and_true,
        and_false, or_false]
      omega
    | false =>
      rw [Bool.not_false] at hno
      simp only [Selects, arity, ha, hno, Bool.false_eq_true, if_false, List.mem_cons,
        List.not_mem_nil, and_true, and_false, false_or, or_false]
      omega
  | not | xor | arith | divide | unary | real | compare =>
    rw [asked_of_strict rfl h, List.mem_range]
    simp [Selects]

/-! ## Runs that succeed -/

/-- The visits in the tree in slot `i` when that is evaluated, with their places in that tree. -/
def Slots.visitsIn (b : Bindings) {n : Nat} (s : Slots n) (i : Nat) : List (Place × Leaf) :=
  ((s.get? i).map fun u => (u.eval b false).trail.visits).getD []

/-- **A run that succeeds visits what is visited in the slots that its plan asked**, in this order. -/
theorem Plan.Runs.visits_of_ok {b : Bindings} {o : Op} {slots : Slots o.arity} {plan : Plan}
    {flag : Bool} {r : Run Value} (h : plan.Runs b o slots flag r) {v : Value}
    (hv : r.outcome = .ok v) :
    ∃ asked, plan.Settles (slots.Yields b) asked v ∧
      r.trail.visits = asked.flatMap fun i => (slots.visitsIn b i).map (underSlot i) := by
  induction h with
  | answer w flag =>
    cases hv
    exact ⟨[], .answer _, rfl⟩
  | interrupted slot want next => cases hv
  | unbound want next hu => cases hv
  | failed want next hu he => cases hv
  | refused want next hu hw he => cases hv
  | @answered slot u w want next a r hu hw ha hr ih =>
    obtain ⟨asked, hs, hvisits⟩ := ih hv
    refine ⟨slot :: asked, .ask ⟨u, hu, ?_⟩ hs, ?_⟩
    · rw [Want.toValue_of_take ha, hw]
    · rw [Trail.visits_append, Trail.visits_asking, hvisits, List.flatMap_cons, Slots.visitsIn, hu]
      rfl

/-- **A run that succeeds visits exactly the leaves to which every step is selected.** -/
theorem Tree.mem_visits_iff {b : Bindings} {t : Tree} {flag : Bool} {v : Value}
    (hv : (t.eval b flag).outcome = .ok v) {p : Place} {l : Leaf} :
    (p, l) ∈ (t.eval b flag).trail.visits ↔ t.at? p = some (.leaf l) ∧ t.Selected b p := by
  induction t using Tree.byNode generalizing flag v p with
  | leaf l' =>
    rw [eval_leaf, Leaf.eval_eq]
    cases p with
    | nil => simp [Selected, eq_comm]
    | cons i p => simp [Selected]
  | node o slots ih =>
    obtain ⟨asked, hs, hvisits⟩ := (runs_node b o slots flag).visits_of_ok hv
    have hasked : ∀ i, i ∈ asked ↔ i < o.arity ∧ o.Selects (slots.Yields b 0) i :=
      fun i => Op.mem_asked_iff hs fun _ _ _ => Slots.Yields.eq
    obtain ⟨ts, -, hyields⟩ := Op.exists_typed hs
    rw [hvisits, List.mem_flatMap]
    constructor
    · rintro ⟨i, hi, hp⟩
      obtain ⟨w, ⟨u, hu, hw⟩, -⟩ := hyields i hi
      rw [Slots.visitsIn, hu] at hp
      obtain ⟨⟨q, l'⟩, hq, hql⟩ := List.mem_map.mp hp
      cases hql
      obtain ⟨hat, hsel⟩ := (ih i u hu hw).mp hq
      refine ⟨?_, ((hasked i).mp hi).2, u, hu, hsel⟩
      rw [at?_node_cons, hu]
      exact hat
    · rintro ⟨hat, hsel⟩
      cases p with
      | nil => cases hat
      | cons i q =>
        obtain ⟨hi, u, hu, hsel⟩ := hsel
        rw [at?_node_cons, hu] at hat
        have hmem : i ∈ asked := (hasked i).mpr ⟨Slots.lt_of_get? hu, hi⟩
        obtain ⟨w, ⟨u', hu', hw⟩, -⟩ := hyields i hmem
        obtain rfl := Option.some.inj (hu.symm.trans hu')
        refine ⟨i, hmem, ?_⟩
        rw [Slots.visitsIn, hu]
        exact List.mem_map_of_mem ((ih i u hu hw).mpr ⟨hat, hsel⟩)

/-- Where no operator is lazy, a run that succeeds visits every leaf. -/
theorem Tree.visits_of_strict {b : Bindings} {t : Tree} {flag : Bool} {v : Value}
    (strict : ∀ o ∈ t.ops, o.isLazy = false) (hv : (t.eval b flag).outcome = .ok v) :
    (t.eval b flag).trail.visits = t.occurrences := by
  induction t using Tree.byNode generalizing flag v with
  | leaf l => simp [eval_leaf, Leaf.eval_eq, occurrences]
  | node o slots ih =>
    obtain ⟨asked, hs, hvisits⟩ := (runs_node b o slots flag).visits_of_ok hv
    obtain ⟨ts, -, hyields⟩ := Op.exists_typed hs
    have hasked : asked = List.range o.arity :=
      Op.asked_of_strict (strict o (root_mem_ops o slots)) hs
    rw [hvisits, occurrences_node, ← hasked]
    refine List.flatMap_congr ?_
    intro i hi
    obtain ⟨w, ⟨u, hu, hw⟩, -⟩ := hyields i hi
    rw [Slots.visitsIn, Slots.occurrencesIn, hu]
    exact congrArg _ (ih i u hu (fun o' ho => strict o' (mem_ops_node hu ho)) hw)

/-! ## Evaluation in a context -/

/-- **What is evaluated, and in which order.** The leaves that an evaluation visits are among those of
    the tree, in the order in which they stand there, and none is visited twice. If the evaluation
    succeeds, then a leaf is visited exactly if every step to it from the root is selected: to any
    child of an operator that is not lazy, to the first child of one that is, and to another child
    of a lazy operator if the value of the first calls for it. So without lazy operators a successful
    evaluation visits all leaves, from left to right. -/
theorem Store.eval_visits (s : Store) (c : Context) (t : Tree) :
    let r := (s.eval c t).1
    r.trail.visits.Sublist t.occurrences ∧ r.trail.visits.Nodup ∧
    (∀ v, r.outcome = .ok v → ∀ p l,
      (p, l) ∈ r.trail.visits ↔ t.at? p = some (.leaf l) ∧ t.Selected s.bindings p) ∧
    ((∀ o ∈ t.ops, o.isLazy = false) → ∀ v, r.outcome = .ok v →
      r.trail.visits = t.occurrences ∧ r.trail.leaves = t.leaves) := by
  intro r
  have hsub : r.trail.visits.Sublist t.occurrences := t.visits_sublist s.bindings _
  refine ⟨hsub, t.nodup_occurrences.sublist hsub, ?_, ?_⟩
  · intro v hv p l
    exact Tree.mem_visits_iff hv
  · intro strict v hv
    have hall : r.trail.visits = t.occurrences := Tree.visits_of_strict strict hv
    refine ⟨hall, ?_⟩
    rw [← r.trail.map_snd_visits, hall, t.map_snd_occurrences]

/-- The sum in the branch that a choice takes is visited in both operands; without the choice its
    visits are all that there is. -/
theorem Store.eval_visits_choose :
    ([1, 1], .literal (.num (.i64 2))) ∈ (initial.eval ⟨0, false⟩ (Op.choose.call
        #v[.leaf (.literal (.bool true)),
          (Op.arith .add).call
            #v[.leaf (.literal (.num (.i32 1))), .leaf (.literal (.num (.i64 2)))],
          .leaf (.var ⟨"x", .num .i64, 0⟩)])).1.trail.visits ∧
      (initial.eval ⟨0, false⟩ ((Op.arith .add).call
        #v[.leaf (.literal (.num (.i32 1))), .leaf (.literal (.num (.i64 2)))])).1.trail.visits =
          [([0], .literal (.num (.i32 1))), ([1], .literal (.num (.i64 2)))] := by
  constructor
  · refine ((eval_visits initial ⟨0, false⟩ _).2.2.1 _ rfl _ _).mpr ⟨rfl, ?_⟩
    exact ⟨Or.inr (Or.inl ⟨rfl, _, rfl, rfl⟩), _, rfl, trivial, _, rfl, trivial⟩
  · exact ((eval_visits initial ⟨0, false⟩ _).2.2.2 (by decide) _ rfl).1

end ExprTree
