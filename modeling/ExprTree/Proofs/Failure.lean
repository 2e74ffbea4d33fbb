import ExprTree.Proofs.Request

/-!
# Failing leaves

A leaf without a value ends the evaluation: nothing is requested or visited after it, and its fault is
the outcome of the whole tree, whatever operators are above it. So a run comes in two kinds only
(`Run.EndsAtFailure`): all the leaves it visited have values, or the last thing it did was to visit
one that has none.

The plan does not matter, only that a request does not go on from a subtree that failed
(`Plan.Runs.endsAtFailure`).
-/

set_option autoImplicit false

namespace ExprTree

/-- The event is not the visit of a leaf that fails. -/
def Event.Succeeds (b : Bindings) (event : Event) : Prop :=
  ∀ l, event.leaf? = some l → ∃ v, l.outcome b = .ok v

theorem Event.succeeds_request (b : Bindings) (p : Place) : (Event.request p).Succeeds b := by
  intro l hl
  exact absurd hl (by simp [leaf?])

theorem Event.Succeeds.under {b : Bindings} {event : Event} (h : event.Succeeds b) (i : Nat) :
    (event.under i).Succeeds b := by
  intro l hl
  rw [leaf?_under] at hl
  exact h l hl

/-- The leaves that a run visited all have values, but for the last one, and that only if nothing
    came after it and the run failed as it did. -/
inductive Run.EndsAtFailure (b : Bindings) (r : Run Value) : Prop
  | never (h : ∀ event ∈ r.trail.toList, event.Succeeds b)
  | last {before : List Event} {p : Place} {l : Leaf} {e : Fault}
      (events : r.trail.toList = before ++ [.visit p l])
      (h : ∀ event ∈ before, event.Succeeds b) (fails : l.outcome b = .error e)
      (outcome : r.outcome = .error e)

theorem Run.EndsAtFailure.of_ok {b : Bindings} {r : Run Value} (h : r.EndsAtFailure b) {v : Value}
    (hv : r.outcome = .ok v) : ∀ event ∈ r.trail.toList, event.Succeeds b := by
  cases h with
  | never h => exact h
  | last events h fails outcome =>
    rw [hv] at outcome
    exact absurd outcome (by simp)

theorem Trail.succeeds_asking {b : Bindings} {below : List Event}
    (h : ∀ event ∈ below, event.Succeeds b) (i : Nat) :
    ∀ event ∈ Event.request [i] :: below.map (.under i), event.Succeeds b := by
  intro event hm
  rcases List.mem_cons.mp hm with rfl | hm
  · exact Event.succeeds_request b [i]
  · obtain ⟨inner, hinner, rfl⟩ := List.mem_map.mp hm
    exact (h inner hinner).under i

/-- **No plan goes on after a failure.** -/
theorem Plan.Runs.endsAtFailure {b : Bindings} {o : Op} {slots : Slots o.arity} {plan : Plan}
    {flag : Bool} {r : Run Value} (h : plan.Runs b o slots flag r)
    (below : ∀ i u, slots.get? i = some u → (u.eval b false).EndsAtFailure b) :
    r.EndsAtFailure b := by
  induction h with
  | answer v flag => exact .never (by simp)
  | interrupted slot want next => exact .never (by simp [Event.succeeds_request])
  | unbound want next hu => exact .never (by simp [Event.succeeds_request])
  | @failed slot u e want next hu he =>
    cases below slot u hu with
    | never h => exact .never (Trail.succeeds_asking h slot)
    | @last before p l e' events h fails outcome =>
      refine .last (p := slot :: p) ?_ (Trail.succeeds_asking h slot) fails (he.symm.trans outcome)
      rw [Trail.toList_asking, events, List.map_append]
      rfl
  | @refused slot u v e want next hu hv he =>
    exact .never (Trail.succeeds_asking ((below slot u hu).of_ok hv) slot)
  | @answered slot u v want next a r hu hv ha hr ih =>
    have hasking := Trail.succeeds_asking ((below slot u hu).of_ok hv) slot
    cases ih with
    | never h => exact .never (List.forall_mem_append.mpr ⟨hasking, h⟩)
    | @last before p l e events h fails outcome =>
      refine .last (p := p) ?_ (List.forall_mem_append.mpr ⟨hasking, h⟩) fails outcome
      rw [Trail.toList_append, Trail.toList_asking, events, List.append_assoc]

theorem Tree.endsAtFailure (b : Bindings) (t : Tree) (flag : Bool) :
    (t.eval b flag).EndsAtFailure b := by
  induction t using Tree.byNode generalizing flag with
  | leaf l =>
    rw [eval_leaf, Leaf.eval_eq]
    cases ho : l.outcome b with
    | ok v => exact .never (by simp [Event.Succeeds, Event.leaf?, ho])
    | error e =>
      have hvisit : [Event.visit [] l] = [] ++ [.visit [] l] := rfl
      exact .last hvisit (by simp) ho rfl
  | node o slots ih =>
    exact (runs_node b o slots flag).endsAtFailure fun i u hu => ih i u hu false

/-- Wherever the visit of a failing leaf stands in a run, it stands at its end. -/
theorem Run.EndsAtFailure.of_visit {b : Bindings} {r : Run Value} (h : r.EndsAtFailure b)
    {pre post : List Event} {p : Place} {l : Leaf} {e : Fault}
    (events : r.trail.toList = pre ++ .visit p l :: post) (fails : l.outcome b = .error e) :
    post = [] ∧ r.outcome = .error e := by
  have hl : ¬ (Event.visit p l).Succeeds b := by
    intro hs
    obtain ⟨v, hv⟩ := hs l rfl
    rw [fails] at hv
    exact absurd hv (by simp)
  cases h with
  | never h => exact absurd (h (.visit p l) (by simp [events])) hl
  | last events' h fails' outcome =>
    rw [events'] at events
    rcases List.eq_nil_or_concat post with rfl | ⟨post', event, rfl⟩
    · obtain ⟨-, hlast⟩ := List.append_inj' events rfl
      obtain ⟨-, rfl⟩ := Event.visit.inj (List.singleton_inj.mp hlast)
      exact ⟨rfl, outcome.trans (fails'.symm.trans fails)⟩
    · -- A visit before the last event was of a leaf that has a value.
      rw [List.concat_eq_append, ← List.cons_append, ← List.append_assoc] at events
      obtain ⟨hbefore, -⟩ := List.append_inj' events rfl
      exact absurd (h (.visit p l) (by simp [hbefore])) hl

theorem Event.value_of_succeeds {b : Bindings} {events : List Event}
    (h : ∀ event ∈ events, event.Succeeds b) :
    ∀ l ∈ events.filterMap leaf?, ∃ v, l.outcome b = .ok v := by
  intro l hl
  obtain ⟨event, hm, he⟩ := List.mem_filterMap.mp hl
  exact h event hm l he

theorem Event.filter_failing_of_succeeds {b : Bindings} {events : List Event}
    (h : ∀ event ∈ events, event.Succeeds b) :
    ((events.filterMap leaf?).filter fun l => !(l.outcome b).isOk) = [] := by
  rw [List.filter_eq_nil_iff]
  intro l hl
  obtain ⟨v, hv⟩ := value_of_succeeds h l hl
  simp [hv, Except.isOk, Except.toBool]

/-! ## Evaluation in a context -/

/-- **A failing leaf ends the evaluation, and its fault comes out unchanged.** If a leaf that was
    visited fails, then nothing is requested or visited after it and the tree fails with the fault of
    the leaf. So at most one of the visited leaves fails, and none does where the tree has a value. -/
theorem Store.eval_failing_leaf (s : Store) (c : Context) (t : Tree) :
    let r := (s.eval c t).1
    (∀ pre p l post e, r.trail.toList = pre ++ .visit p l :: post →
      l.outcome s.bindings = .error e → post = [] ∧ r.outcome = .error e) ∧
    (r.trail.leaves.filter fun l => !(l.outcome s.bindings).isOk).length ≤ 1 ∧
    (∀ v, r.outcome = .ok v → ∀ l ∈ r.trail.leaves, ∃ w, l.outcome s.bindings = .ok w) := by
  intro r
  have hr : r.EndsAtFailure s.bindings := t.endsAtFailure s.bindings _
  refine ⟨fun pre p l post e events fails => hr.of_visit events fails, ?_, ?_⟩
  · rw [Trail.leaves_eq]
    cases hr with
    | never h => rw [Event.filter_failing_of_succeeds h]; simp
    | last events h fails outcome =>
      rw [events, List.filterMap_append, List.filter_append, Event.filter_failing_of_succeeds h]
      exact List.length_filter_le _ _
  · intro v hv
    rw [Trail.leaves_eq]
    exact Event.value_of_succeeds (hr.of_ok hv)

/-- The dividend fails two levels down, with a fault that no node of the tree would raise, and the
    divisor is not requested. -/
theorem Store.eval_failing_leaf_divide :
    (initial.eval ⟨0, false⟩ ((Op.divide Op.defaultFallback).call
        #v[(Op.unary .abs).call
            #v[.leaf (.probe ⟨"p", .bool true, some (.duplicateName "q"), true, 0⟩)],
          .leaf (.literal (.num (.i32 1)))])).1.outcome = .error (.duplicateName "q") := by
  have h := eval_failing_leaf initial ⟨0, false⟩ ((Op.divide Op.defaultFallback).call
    #v[(Op.unary .abs).call #v[.leaf (.probe ⟨"p", .bool true, some (.duplicateName "q"), true, 0⟩)],
      .leaf (.literal (.num (.i32 1)))])
  exact (h.1 [.request [0], .request [0, 0]] [0, 0]
    (.probe ⟨"p", .bool true, some (.duplicateName "q"), true, 0⟩) [] _ rfl rfl).2

end ExprTree
