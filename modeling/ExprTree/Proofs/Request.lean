import ExprTree.Proofs.Place
import ExprTree.State.Store

/-!
# What a run can do

The evaluation of a node is a sequence of requests, and a request ends in one of five ways: the flag
is set, the slot is unbound, the subtree fails, its value is not of the wanted kind, or it is. That
is said once, here, as `Plan.Runs`, and **every fact about runs is an induction over it**: one case
for each end of a request, the last one with the run that goes on from the answer.

Two such facts follow, because everything later needs them. A run leaves the flag set exactly if it
was set before or a visited leaf set it (`Tree.flag_eval`), and it visits leaves of the tree only
(`Tree.leaves_eval_subset`).
-/

set_option autoImplicit false

namespace ExprTree

/-! ## Trails read by their requests and leaves -/

namespace Trail

@[simp] theorem requests_nil : nil.requests = [] := rfl

@[simp] theorem requests_request (p : Place) : (event (.request p)).requests = [p] := rfl

@[simp] theorem requests_visit (p : Place) (l : Leaf) : (event (.visit p l)).requests = [] := rfl

@[simp] theorem requests_append (t u : Trail) : (t ++ u).requests = t.requests ++ u.requests := by
  simp [requests]

@[simp] theorem requests_under (i : Nat) (t : Trail) :
    (under i t).requests = t.requests.map (i :: ·) := by
  rw [requests, toList_under, List.filterMap_map, requests, List.map_filterMap]
  congr 1
  funext e
  cases e <;> rfl

@[simp] theorem leaves_nil : nil.leaves = [] := rfl

@[simp] theorem leaves_request (p : Place) : (event (.request p)).leaves = [] := rfl

@[simp] theorem leaves_visit (p : Place) (l : Leaf) : (event (.visit p l)).leaves = [l] := rfl

/-- The trail of a request to a slot whose subtree leaves the trail `below`. -/
def asking (slot : Nat) (below : Trail) : Trail := event (.request [slot]) ++ under slot below

@[simp] theorem toList_asking (slot : Nat) (below : Trail) :
    (asking slot below).toList = .request [slot] :: below.toList.map (.under slot) := rfl

@[simp] theorem requests_asking (slot : Nat) (below : Trail) :
    (asking slot below).requests = [slot] :: below.requests.map (slot :: ·) := by
  simp [asking]

@[simp] theorem leaves_asking (slot : Nat) (below : Trail) :
    (asking slot below).leaves = below.leaves := by
  simp [asking]

end Trail

/-! ## The run of a leaf -/

namespace Leaf

/-- What a leaf comes to under given bindings, whatever the flag. -/
def outcome (b : Bindings) : Leaf → Except Fault Value
  | literal v => .ok v
  | var x =>
    match b.get? x with
    | some v => .ok v
    | none => .error (.nothingBound x.name 0)
  | probe p => p.outcome

def interrupts : Leaf → Bool
  | probe p => p.interrupts
  | literal _ | var _ => false

theorem eval_eq (b : Bindings) (l : Leaf) (flag : Bool) :
    l.eval b flag = ⟨l.outcome b, flag || l.interrupts, .event (.visit [] l)⟩ := by
  cases l with
  | literal v => simp [eval, outcome, interrupts]
  | var x => cases h : b.get? x <;> simp [eval, outcome, interrupts, h]
  | probe p => simp [eval, outcome, interrupts]

/-- **A leaf yields a value of its own type.** For a variable that is what the bindings guarantee. -/
theorem ty_of_outcome {b : Bindings} {l : Leaf} {v : Value} (h : l.outcome b = .ok v) :
    v.ty = l.ty := by
  cases l with
  | literal w =>
    cases h
    rfl
  | var x =>
    rw [outcome] at h
    cases hx : b.get? x with
    | none => rw [hx] at h; cases h
    | some w =>
      rw [hx] at h
      cases h
      exact Bindings.ty_of_get? hx
  | probe p =>
    rw [outcome, Probe.outcome] at h
    cases hf : p.failure with
    | none => rw [hf] at h; cases h; rfl
    | some e => rw [hf] at h; cases h

end Leaf

/-! ## The run of a node -/

/-- **The runs of a plan** over the slots of a node, from a given flag. A subtree is only ever
    evaluated with the flag clear: a request that finds it set goes no further. -/
inductive Plan.Runs (b : Bindings) (o : Op) (slots : Slots o.arity) :
    Plan → Bool → Run Value → Prop
  | answer (v : Value) (flag : Bool) : Runs b o slots (.answer v) flag ⟨.ok v, flag, .nil⟩
  | interrupted (slot : Nat) (want : Want) (next : want.Answer → Plan) :
      Runs b o slots (.ask slot want next) true
        ⟨.error .interrupted, true, .event (.request [slot])⟩
  | unbound {slot : Nat} (want : Want) (next : want.Answer → Plan) (hu : slots.get? slot = none) :
      Runs b o slots (.ask slot want next) false
        ⟨.error (.nothingBound o.symbol slot), false, .event (.request [slot])⟩
  | failed {slot : Nat} {u : Tree} {e : Fault} (want : Want) (next : want.Answer → Plan)
      (hu : slots.get? slot = some u) (he : (u.eval b false).outcome = .error e) :
      Runs b o slots (.ask slot want next) false
        ⟨.error e, (u.eval b false).flag, .asking slot (u.eval b false).trail⟩
  /-- The subtree has a value, but not one of the wanted kind. -/
  | refused {slot : Nat} {u : Tree} {v : Value} {e : Fault} (want : Want)
      (next : want.Answer → Plan) (hu : slots.get? slot = some u)
      (hv : (u.eval b false).outcome = .ok v) (he : want.take o.symbol v = .error e) :
      Runs b o slots (.ask slot want next) false
        ⟨.error e, (u.eval b false).flag, .asking slot (u.eval b false).trail⟩
  /-- The question is answered, and the plan goes on. -/
  | answered {slot : Nat} {u : Tree} {v : Value} (want : Want) (next : want.Answer → Plan)
      {a : want.Answer} {r : Run Value} (hu : slots.get? slot = some u)
      (hv : (u.eval b false).outcome = .ok v) (ha : want.take o.symbol v = .ok a)
      (hr : Runs b o slots (next a) (u.eval b false).flag r) :
      Runs b o slots (.ask slot want next) false
        ⟨r.outcome, r.flag, .asking slot (u.eval b false).trail ++ r.trail⟩

/-- Every plan runs in one of these ways. -/
theorem Plan.runs (b : Bindings) (o : Op) (slots : Slots o.arity) (plan : Plan) (flag : Bool) :
    plan.Runs b o slots flag
      (plan.run o.symbol (fun i => (slots.get? i).map (Tree.eval b)) flag) := by
  induction plan generalizing flag with
  | answer v => exact .answer v flag
  | ask slot want next ih =>
    rw [run]
    unfold request
    cases flag with
    | true => exact .interrupted slot want next
    | false =>
      cases hu : slots.get? slot with
      | none => exact .unbound want next hu
      | some u =>
        cases hv : (u.eval b false).outcome with
        | error e =>
          simp only [Option.map_some, hv]
          exact .failed want next hu hv
        | ok v =>
          cases ha : want.take o.symbol v with
          | error e =>
            simp only [Option.map_some, hv, Except.bind, ha]
            exact .refused want next hu hv ha
          | ok a =>
            simp only [Option.map_some, hv, Except.bind, ha]
            exact .answered want next hu hv ha (ih a _)

theorem Plan.Runs.eq_run {b : Bindings} {o : Op} {slots : Slots o.arity} {plan : Plan} {flag : Bool}
    {r : Run Value} (h : plan.Runs b o slots flag r) :
    plan.run o.symbol (fun i => (slots.get? i).map (Tree.eval b)) flag = r := by
  induction h with
  | answer v flag => rfl
  | interrupted slot want next => rfl
  | unbound want next hu => simp [run, request, hu, Run.andThen]
  | failed want next hu he => simp [run, request, hu, he, Run.andThen, Except.bind, Trail.asking]
  | refused want next hu hv he =>
    simp [run, request, hu, hv, he, Run.andThen, Except.bind, Trail.asking]
  | answered want next hu hv ha hr ih =>
    simp [run, request, hu, hv, ha, ih, Run.andThen, Except.bind, Trail.asking]

theorem Tree.runs_node (b : Bindings) (o : Op) (slots : Slots o.arity) (flag : Bool) :
    o.plan.Runs b o slots flag ((Tree.node o slots).eval b flag) := by
  rw [eval_node]
  exact o.plan.runs b o slots flag

theorem Tree.eval_node_of_runs {b : Bindings} {o : Op} {slots : Slots o.arity} {flag : Bool}
    {r : Run Value} (h : o.plan.Runs b o slots flag r) : (Tree.node o slots).eval b flag = r := by
  rw [eval_node, h.eq_run]

/-! ## The flag, and the visited leaves -/

theorem Plan.Runs.flag_eq {b : Bindings} {o : Op} {slots : Slots o.arity} {plan : Plan} {flag : Bool}
    {r : Run Value} (h : plan.Runs b o slots flag r)
    (below : ∀ i u, slots.get? i = some u →
      (u.eval b false).flag = (u.eval b false).trail.leaves.any Leaf.interrupts) :
    r.flag = (flag || r.trail.leaves.any Leaf.interrupts) := by
  induction h with
  | answer v flag => simp
  | interrupted slot want next => simp
  | unbound want next hu => simp
  | failed want next hu he => simpa using below _ _ hu
  | refused want next hu hv he => simpa using below _ _ hu
  | answered want next hu hv ha hr ih =>
    rw [ih, below _ _ hu]
    simp

/-- **The flag after a run** is set exactly if it was before or if a visited leaf has set it. -/
theorem Tree.flag_eval (b : Bindings) (t : Tree) (flag : Bool) :
    (t.eval b flag).flag = (flag || (t.eval b flag).trail.leaves.any Leaf.interrupts) := by
  induction t using Tree.byNode generalizing flag with
  | leaf l => simp [eval_leaf, Leaf.eval_eq]
  | node o slots ih =>
    refine (runs_node b o slots flag).flag_eq ?_
    intro i u hu
    simpa using ih i u hu false

theorem Plan.Runs.leaves_subset {b : Bindings} {o : Op} {slots : Slots o.arity} {plan : Plan}
    {flag : Bool} {r : Run Value} (h : plan.Runs b o slots flag r)
    (below : ∀ i u, slots.get? i = some u → ∀ l ∈ (u.eval b false).trail.leaves, l ∈ u.leaves) :
    ∀ l ∈ r.trail.leaves, l ∈ (Tree.node o slots).leaves := by
  induction h with
  | answer v flag => simp
  | interrupted slot want next => simp
  | unbound want next hu => simp
  | failed want next hu he =>
    intro l hl
    exact Tree.mem_leaves_node hu (below _ _ hu l (by simpa using hl))
  | refused want next hu hv he =>
    intro l hl
    exact Tree.mem_leaves_node hu (below _ _ hu l (by simpa using hl))
  | answered want next hu hv ha hr ih =>
    intro l hl
    rw [Trail.leaves_append, Trail.leaves_asking, List.mem_append] at hl
    rcases hl with hl | hl
    · exact Tree.mem_leaves_node hu (below _ _ hu l hl)
    · exact ih l hl

theorem Tree.leaves_eval_subset (b : Bindings) (t : Tree) (flag : Bool) :
    ∀ l ∈ (t.eval b flag).trail.leaves, l ∈ t.leaves := by
  induction t using Tree.byNode generalizing flag with
  | leaf l => simp [eval_leaf, Leaf.eval_eq]
  | node o slots ih =>
    exact (runs_node b o slots flag).leaves_subset fun i u hu => ih i u hu false

/-! ## Evaluation in a context -/

theorem Store.eval_fst (s : Store) (c : Context) (t : Tree) :
    (s.eval c t).1 = t.eval s.bindings (s.isRaised c) := rfl

theorem Store.eval_of_clear {s : Store} {c : Context} (clear : s.isRaised c = false) (t : Tree) :
    (s.eval c t).1 = t.eval s.bindings false := by
  rw [eval_fst, clear]

theorem Store.isRaised_eval (s : Store) (c : Context) (t : Tree) :
    (s.eval c t).2.isRaised c = (s.eval c t).1.flag := by
  show (s.flags.set c.family _).get c.family = _
  rw [Flags.get_set, if_pos rfl]
  rfl

end ExprTree
