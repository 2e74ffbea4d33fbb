import ExprTree.Proofs.Cut
import ExprTree.Proofs.Soundness

/-!
# Interruption

The flag is tested by requests and by nothing else, so a leaf that sets it does not end the run: the
nodes above go on until one of them makes its next request, and if none does the run ends as if the
flag were clear.

To say so of a tree, its run is compared with that of the *quiet* tree, whose leaves are the same but
set no flag. **The one run is the other, cut off after the first leaf that sets the flag and the one
event that follows it** (`Tree.cutFrom_quiet`), which is a request.
-/

set_option autoImplicit false

namespace ExprTree

/-! ## Quiet trees -/

/-- The leaf without the interrupt that it may set. -/
def Leaf.quiet : Leaf → Leaf
  | literal v => literal v
  | var x => var x
  | probe p => probe { p with interrupts := false }

@[simp] theorem Leaf.interrupts_quiet (l : Leaf) : l.quiet.interrupts = false := by
  cases l <;> rfl

@[simp] theorem Leaf.outcome_quiet (b : Bindings) (l : Leaf) : l.quiet.outcome b = l.outcome b := by
  cases l <;> rfl

def Event.quiet : Event → Event
  | request p => request p
  | visit p l => visit p l.quiet

@[simp] theorem Event.quiet_request (p : Place) : (request p).quiet = request p := rfl

@[simp] theorem Event.quiet_under (i : Nat) (e : Event) : (e.under i).quiet = e.quiet.under i := by
  cases e <;> rfl

/-- The tree in which no leaf sets the flag. -/
def Tree.quiet (t : Tree) : Tree := t.mapLeaves Leaf.quiet

theorem Tree.flag_eval_quiet (b : Bindings) (t : Tree) (flag : Bool) :
    (t.quiet.eval b flag).flag = flag := by
  refine flag_eval_of_quiet ?_ flag
  intro l hl
  rw [quiet, leaves_mapLeaves] at hl
  obtain ⟨m, -, rfl⟩ := List.mem_map.mp hl
  exact m.interrupts_quiet

/-! ## Which visits set the flag -/

/-- There is a leaf at this place, and it sets the flag. -/
def Tree.interruptsAt (t : Tree) (p : Place) : Bool :=
  (t.at? p).any fun u => u.root.elim Leaf.interrupts fun _ => false

/-- The event, of a run of the quiet tree, is the visit of a leaf that sets the flag in the tree. -/
def Tree.raises (t : Tree) : Event → Bool
  | .request _ => false
  | .visit p _ => t.interruptsAt p

theorem Tree.raises_under {o : Op} {slots : Slots o.arity} {i : Nat} {u : Tree}
    (hu : slots.get? i = some u) (e : Event) :
    (Tree.node o slots).raises (e.under i) = u.raises e := by
  cases e with
  | request p => rfl
  | visit p l => simp [Event.under, raises, interruptsAt, hu]

theorem Tree.any_raises_eq_false {t : Tree} {es : List Event}
    (h : ∀ p l, .visit p l ∈ es → t.interruptsAt p = false) : es.any t.raises = false := by
  rw [List.any_eq_false]
  intro e he
  cases e with
  | request p => exact Bool.false_ne_true
  | visit p l => simp [raises, h p l he]

/-! ## Runs that are cut off -/

/-- The run `r` does what `full` does up to the first event that raises the flag and one event more,
    which is a request. If there is such a request then it fails there, and else it comes to what
    `full` comes to. -/
structure Run.CutFrom (raises : Event → Bool) (full r : Run Value) : Prop where
  events : r.trail.toList.map .quiet = upToNext raises full.trail.toList
  flag : r.flag = full.trail.toList.any raises
  outcome : r.outcome = if goesOn raises full.trail.toList then .error .interrupted else full.outcome
  stop : goesOn raises full.trail.toList = true → ∃ pre q, r.trail.toList = pre ++ [.request q]

theorem Run.CutFrom.outcome_eq {raises : Event → Bool} {full r : Run Value}
    (h : full.CutFrom raises r) (hgo : goesOn raises full.trail.toList = false) :
    r.outcome = full.outcome := by
  rw [h.outcome, hgo]
  rfl

theorem Run.CutFrom.events_eq {raises : Event → Bool} {full r : Run Value}
    (h : full.CutFrom raises r) (hgo : goesOn raises full.trail.toList = false) :
    r.trail.toList.map .quiet = full.trail.toList := by
  rw [h.events, upToNext_of_not_goesOn hgo]

section

variable {b : Bindings} {o : Op} {slots : Slots o.arity} {i : Nat} {u : Tree} {full : Run Value}

theorem Trail.quiet_asking (i : Nat) (t : Trail) :
    (asking i t).toList.map Event.quiet =
      .request [i] :: (t.toList.map Event.quiet).map (.under i) := by
  simp

/-- A request to a slot is cut where the run of the subtree is. -/
theorem Trail.upToNext_asking (hu : slots.get? i = some u) (t : Trail) :
    upToNext (Tree.node o slots).raises (asking i t).toList =
      .request [i] :: (upToNext u.raises t.toList).map (.under i) := by
  rw [toList_asking, ← upToNext_map (Tree.raises_under hu)]
  rfl

theorem Trail.goesOn_asking (hu : slots.get? i = some u) (t : Trail) :
    goesOn (Tree.node o slots).raises (asking i t).toList = goesOn u.raises t.toList := by
  rw [toList_asking, ← goesOn_map (Tree.raises_under hu)]
  rfl

theorem Trail.any_raises_asking (hu : slots.get? i = some u) (t : Trail) :
    (asking i t).toList.any (Tree.node o slots).raises = t.toList.any u.raises := by
  have h : (Tree.node o slots).raises ∘ .under i = u.raises := funext (Tree.raises_under hu)
  rw [toList_asking, List.any_cons, List.any_map, h]
  rfl

/-- If the run of a subtree is cut off, then so is every run of a node that begins with asking for
    it, at the same event. -/
theorem Plan.Runs.exists_cutFrom_of_goesOn (hu : slots.get? i = some u)
    (h : full.CutFrom u.raises (u.eval b false)) (hgo : goesOn u.raises full.trail.toList = true)
    (want : Want) (next : want.Answer → Plan) {full' : Run Value} {rest : List Event}
    (hfull : full'.trail.toList = (Trail.asking i full.trail).toList ++ rest) :
    ∃ r, (Plan.ask i want next).Runs b o slots false r ∧
      full'.CutFrom (Tree.node o slots).raises r := by
  obtain ⟨pre, q, hstop⟩ := h.stop hgo
  have hgo' : goesOn (Tree.node o slots).raises (Trail.asking i full.trail).toList = true := by
    rw [Trail.goesOn_asking hu, hgo]
  obtain ⟨hcut, hgoes⟩ := append_of_goesOn hgo' rest
  rw [← hfull] at hcut hgoes
  refine ⟨_, .failed want next hu (h.outcome.trans (if_pos hgo)), ?_, ?_, ?_, ?_⟩
  · rw [hcut, Trail.upToNext_asking hu, Trail.quiet_asking, h.events]
  · rw [h.flag, any_of_goesOn hgoes, any_of_goesOn hgo]
  · rw [hgoes, if_pos rfl]
  · intro _
    exact ⟨.request [i] :: pre.map (.under i), i :: q, by simp [hstop, Event.under]⟩

/-- If it is not cut off, a run that ends with asking for it ends in the same way. -/
theorem Run.CutFrom.asking (hu : slots.get? i = some u)
    (h : full.CutFrom u.raises (u.eval b false)) (hgo : goesOn u.raises full.trail.toList = false)
    (x : Except Fault Value) (flag : Bool) :
    Run.CutFrom (Tree.node o slots).raises ⟨x, flag, .asking i full.trail⟩
      ⟨x, (u.eval b false).flag, .asking i (u.eval b false).trail⟩ := by
  have hgo' := (Trail.goesOn_asking hu full.trail).trans hgo
  refine ⟨?_, ?_, ?_, ?_⟩
  · rw [Trail.upToNext_asking hu, Trail.quiet_asking, h.events]
  · rw [h.flag, Trail.any_raises_asking hu]
  · rw [hgo']
    rfl
  · intro hstop
    rw [hgo'] at hstop
    exact absurd hstop (by simp)

/-- With the flag set, a plan ends before its first request. -/
theorem Plan.Runs.of_raised {b' : Bindings} {slots' : Slots o.arity} {plan : Plan}
    (h : plan.Runs b' o slots' false full) (b : Bindings) (slots : Slots o.arity) :
    (full.trail.toList = [] ∧ plan.Runs b o slots true ⟨full.outcome, true, .nil⟩) ∨
      ∃ q post, full.trail.toList = .request q :: post ∧
        plan.Runs b o slots true ⟨.error .interrupted, true, .event (.request q)⟩ := by
  cases h with
  | answer v => exact Or.inl ⟨rfl, .answer v true⟩
  | unbound want next hu => exact Or.inr ⟨_, _, rfl, .interrupted _ want next⟩
  | failed want next hu he => exact Or.inr ⟨_, _, rfl, .interrupted _ want next⟩
  | refused want next hu hv he => exact Or.inr ⟨_, _, rfl, .interrupted _ want next⟩
  | answered want next hu hv ha hr => exact Or.inr ⟨_, _, rfl, .interrupted _ want next⟩

/-- What follows a request that leaves the flag clear is cut off where it would be by itself. -/
theorem Run.CutFrom.append (hu : slots.get? i = some u)
    (h : full.CutFrom u.raises (u.eval b false))
    (hany : full.trail.toList.any u.raises = false) {full' r : Run Value}
    (h' : full'.CutFrom (Tree.node o slots).raises r) :
    Run.CutFrom (Tree.node o slots).raises
      ⟨full'.outcome, full'.flag, .asking i full.trail ++ full'.trail⟩
      ⟨r.outcome, r.flag, .asking i (u.eval b false).trail ++ r.trail⟩ := by
  have hany' : (Trail.asking i full.trail).toList.any (Tree.node o slots).raises = false := by
    rw [Trail.any_raises_asking hu, hany]
  refine ⟨?_, ?_, ?_, ?_⟩
  · rw [Trail.toList_append, Trail.toList_append, upToNext_append hany', List.map_append,
      Trail.quiet_asking, h.events_eq (goesOn_of_not_any hany), h'.events]
    rfl
  · rw [Trail.toList_append, List.any_append, hany', Bool.false_or, h'.flag]
  · rw [Trail.toList_append, goesOn_append hany', h'.outcome]
  · intro hgo
    rw [Trail.toList_append, goesOn_append hany'] at hgo
    obtain ⟨pre, q, hstop⟩ := h'.stop hgo
    exact ⟨(Trail.asking i (u.eval b false).trail).toList ++ pre, q, by
      rw [Trail.toList_append, hstop, List.append_assoc]⟩

/-- If nothing follows a request, then it does not matter that its last event has set the flag. -/
theorem Run.CutFrom.append_nil (hu : slots.get? i = some u)
    (h : full.CutFrom u.raises (u.eval b false)) (hgo : goesOn u.raises full.trail.toList = false)
    {full' : Run Value} (hnil : full'.trail.toList = []) :
    Run.CutFrom (Tree.node o slots).raises
      ⟨full'.outcome, full'.flag, .asking i full.trail ++ full'.trail⟩
      ⟨full'.outcome, (u.eval b false).flag, .asking i (u.eval b false).trail ++ .nil⟩ := by
  obtain ⟨hevents, hflag, houtcome, hstop⟩ := h.asking hu hgo full'.outcome full'.flag
  have hfull : (Trail.asking i full.trail ++ full'.trail).toList =
      (Trail.asking i full.trail).toList := by
    rw [Trail.toList_append, hnil, List.append_nil]
  have hrun : (Trail.asking i (u.eval b false).trail ++ .nil).toList =
      (Trail.asking i (u.eval b false).trail).toList := by
    rw [Trail.toList_append, Trail.toList_nil, List.append_nil]
  refine ⟨?_, ?_, ?_, ?_⟩
  · rw [hfull, hrun]
    exact hevents
  · rw [hfull]
    exact hflag
  · rw [hfull]
    exact houtcome
  · rw [hfull, hrun]
    exact hstop

/-- If another request follows the one whose last event has set the flag, then the run is cut off
    there. -/
theorem Run.CutFrom.append_interrupted (hu : slots.get? i = some u)
    (h : full.CutFrom u.raises (u.eval b false))
    (hany : full.trail.toList.any u.raises = true)
    (hgo : goesOn u.raises full.trail.toList = false)
    {full' : Run Value} {q : Place} {post : List Event}
    (hpost : full'.trail.toList = .request q :: post) :
    Run.CutFrom (Tree.node o slots).raises
      ⟨full'.outcome, full'.flag, .asking i full.trail ++ full'.trail⟩
      ⟨.error .interrupted, (u.eval b false).flag,
        .asking i (u.eval b false).trail ++ .event (.request q)⟩ := by
  have hany' : (Trail.asking i full.trail).toList.any (Tree.node o slots).raises = true := by
    rw [Trail.any_raises_asking hu, hany]
  have hgo' : goesOn (Tree.node o slots).raises (Trail.asking i full.trail).toList = false := by
    rw [Trail.goesOn_asking hu, hgo]
  obtain ⟨hcut, hgoes⟩ := append_cons_of_last hany' hgo' (.request q) post
  rw [← hpost, ← Trail.toList_append] at hcut hgoes
  refine ⟨?_, ?_, ?_, ?_⟩
  · rw [hcut, Trail.toList_append, List.map_append, Trail.quiet_asking, h.events_eq hgo]
    rfl
  · rw [any_of_goesOn hgoes, h.flag, hany]
  · rw [hgoes, if_pos rfl]
  · intro _
    exact ⟨(Trail.asking i (u.eval b false).trail).toList, q, rfl⟩

/-- After a request whose last event has set the flag, the plan ends before its next request. -/
theorem Plan.Runs.exists_cutFrom_of_raised {v : Value} {want : Want} {next : want.Answer → Plan}
    {a : want.Answer} {b' : Bindings} {slots' : Slots o.arity} {full' : Run Value}
    (hu : slots.get? i = some u) (h : full.CutFrom u.raises (u.eval b false))
    (hany : full.trail.toList.any u.raises = true)
    (hgo : goesOn u.raises full.trail.toList = false)
    (hv : (u.eval b false).outcome = .ok v) (ha : want.take o.symbol v = .ok a)
    (hr : (next a).Runs b' o slots' false full') :
    ∃ r, (Plan.ask i want next).Runs b o slots false r ∧
      Run.CutFrom (Tree.node o slots).raises
        ⟨full'.outcome, full'.flag, .asking i full.trail ++ full'.trail⟩ r := by
  have hflag : (u.eval b false).flag = true := h.flag.trans hany
  rcases hr.of_raised b slots with ⟨hnil, hr'⟩ | ⟨q, post, hpost, hr'⟩
  · rw [← hflag] at hr'
    exact ⟨_, .answered want next hu hv ha hr', h.append_nil hu hgo hnil⟩
  · rw [← hflag] at hr'
    exact ⟨_, .answered want next hu hv ha hr', h.append_interrupted hu hany hgo hpost⟩

/-- **A plan over the slots of a node is cut off from the plan over the quiet ones**, if that is so of
    the subtrees. -/
theorem Plan.Runs.exists_cutFrom {plan : Plan} {flag : Bool}
    (h : plan.Runs b o (slots.mapLeaves Leaf.quiet) flag full) (clear : flag = false)
    (below : ∀ i u, slots.get? i = some u →
      (u.quiet.eval b false).CutFrom u.raises (u.eval b false)) :
    ∃ r, plan.Runs b o slots false r ∧ full.CutFrom (Tree.node o slots).raises r := by
  have inSlot : ∀ {i u'}, (slots.mapLeaves Leaf.quiet).get? i = some u' →
      ∃ u, slots.get? i = some u ∧ u.quiet = u' := by
    intro i u' hu
    rw [Slots.get?_mapLeaves] at hu
    exact Option.map_eq_some_iff.mp hu
  induction h with
  | answer v => exact ⟨_, .answer v false, rfl, rfl, rfl, fun h => absurd h (by simp [goesOn])⟩
  | interrupted slot want next => exact absurd clear (by simp)
  | unbound want next hu =>
    rw [Slots.get?_mapLeaves] at hu
    refine ⟨_, .unbound want next (Option.map_eq_none_iff.mp hu), rfl, rfl, rfl, ?_⟩
    intro h
    exact absurd h (by simp [goesOn, Tree.raises])
  | failed want next hu' he =>
    obtain ⟨u, hu, rfl⟩ := inSlot hu'
    have hcut := below _ u hu
    cases hgo : goesOn u.raises (u.quiet.eval b false).trail.toList with
    | true => exact exists_cutFrom_of_goesOn hu hcut hgo want next (List.append_nil _).symm
    | false =>
      exact ⟨_, .failed want next hu ((hcut.outcome_eq hgo).trans he), hcut.asking hu hgo _ _⟩
  | refused want next hu' hv he =>
    obtain ⟨u, hu, rfl⟩ := inSlot hu'
    have hcut := below _ u hu
    cases hgo : goesOn u.raises (u.quiet.eval b false).trail.toList with
    | true => exact exists_cutFrom_of_goesOn hu hcut hgo want next (List.append_nil _).symm
    | false =>
      exact ⟨_, .refused want next hu ((hcut.outcome_eq hgo).trans hv) he, hcut.asking hu hgo _ _⟩
  | answered want next hu' hv ha hr ih =>
    obtain ⟨u, hu, rfl⟩ := inSlot hu'
    have hcut := below _ u hu
    cases hgo : goesOn u.raises (u.quiet.eval b false).trail.toList with
    | true => exact exists_cutFrom_of_goesOn hu hcut hgo want next rfl
    | false =>
      have hv' : (u.eval b false).outcome = .ok _ := (hcut.outcome_eq hgo).trans hv
      rw [Tree.flag_eval_quiet] at hr ih
      cases hany : (u.quiet.eval b false).trail.toList.any u.raises with
      | false =>
        obtain ⟨r, hr', hcut'⟩ := ih rfl
        rw [← hany, ← hcut.flag] at hr'
        exact ⟨_, .answered want next hu hv' ha hr', hcut.append hu hany hcut'⟩
      | true => exact exists_cutFrom_of_raised hu hcut hany hgo hv' ha hr

end

/-- **The run of a tree is that of the quiet tree, cut off at the first request after a leaf has set the
    flag.** -/
theorem Tree.cutFrom_quiet (b : Bindings) (t : Tree) :
    (t.quiet.eval b false).CutFrom t.raises (t.eval b false) := by
  induction t using Tree.byNode with
  | leaf l =>
    have hgo : goesOn (Tree.leaf l).raises [.visit [] l.quiet] = false := by simp [goesOn]
    rw [quiet, mapLeaves, eval_leaf, eval_leaf, Leaf.eval_eq, Leaf.eval_eq]
    refine ⟨(upToNext_of_not_goesOn hgo).symm, ?_, ?_, ?_⟩
    · simp [raises, interruptsAt, root]
    · rw [Trail.toList_event, hgo, Leaf.outcome_quiet]
      rfl
    · intro h
      rw [Trail.toList_event, hgo] at h
      exact absurd h (by simp)
  | node o slots ih =>
    have hfull : o.plan.Runs b o (slots.mapLeaves Leaf.quiet) false
        ((Tree.node o slots).quiet.eval b false) := by
      rw [quiet, mapLeaves]
      exact runs_node b o _ false
    obtain ⟨r, hr, hcut⟩ := hfull.exists_cutFrom rfl ih
    rwa [← eval_node_of_runs hr] at hcut

/-! ## Reading off a cut -/

theorem Trail.visits_quiet (t : Trail) :
    t.visits.map (Prod.map id Leaf.quiet) = (t.toList.map Event.quiet).filterMap Event.visit? := by
  rw [visits, List.map_filterMap, List.filterMap_map]
  congr 1
  funext e
  cases e <;> rfl

theorem Run.CutFrom.of_none {raises : Event → Bool} {full r : Run Value} (h : full.CutFrom raises r)
    (hn : full.trail.toList.any raises = false) :
    r.outcome = full.outcome ∧ r.trail.toList.map Event.quiet = full.trail.toList :=
  ⟨h.outcome_eq (goesOn_of_not_any hn), h.events_eq (goesOn_of_not_any hn)⟩

/-- A run whose first event that raises is known either ends there or is cut off at the request that
    comes next. -/
theorem Run.CutFrom.of_first {raises : Event → Bool} {full r : Run Value}
    (h : full.CutFrom raises r) {pre post : List Event} {e : Event}
    (events : full.trail.toList = pre ++ e :: post) (hpre : pre.any raises = false)
    (he : raises e = true) :
    (post = [] ∧ r.outcome = full.outcome ∧ r.trail.toList.map Event.quiet = pre ++ [e]) ∨
      ∃ q post', post = .request q :: post' ∧ r.outcome = .error .interrupted ∧
        r.trail.toList.map Event.quiet = pre ++ [e, .request q] := by
  have hcut : upToNext raises full.trail.toList = pre ++ e :: post.take 1 := by
    rw [events, upToNext_append_cons hpre he]
  have hgo : goesOn raises full.trail.toList = !post.isEmpty := by
    rw [events, goesOn_append_cons hpre he]
  cases post with
  | nil =>
    refine Or.inl ⟨rfl, ?_, h.events.trans hcut⟩
    rw [h.outcome, hgo]
    rfl
  | cons x post =>
    obtain ⟨pre', q, hstop⟩ := h.stop hgo
    have hlast : pre'.map Event.quiet ++ [.request q] = (pre ++ [e]) ++ [x] := by
      have hevents := h.events.trans hcut
      rw [hstop, List.map_append] at hevents
      simpa using hevents
    obtain ⟨-, hx⟩ := List.append_inj' hlast rfl
    obtain rfl : Event.request q = x := List.singleton_inj.mp hx
    refine Or.inr ⟨q, post, rfl, ?_, h.events.trans hcut⟩
    rw [h.outcome, hgo]
    rfl

/-! ## The flag set from the start -/

theorem Op.plan_asks (o : Op) : ∃ slot want next, o.plan = .ask slot want next := by
  cases o <;> exact ⟨_, _, _, rfl⟩

theorem Tree.eval_node_raised (b : Bindings) (o : Op) (slots : Slots o.arity) :
    ∃ slot, (Tree.node o slots).eval b true =
      ⟨.error .interrupted, true, .event (.request [slot])⟩ := by
  obtain ⟨slot, want, next, hplan⟩ := o.plan_asks
  refine ⟨slot, eval_node_of_runs ?_⟩
  rw [hplan]
  exact .interrupted slot want next

/-! ## Evaluation in a context -/

theorem Store.isRaised_eval_of_isRaised {s : Store} {c' : Context} (h : s.isRaised c' = true)
    (c : Context) (t : Tree) : (s.eval c t).2.isRaised c' = true := by
  show (s.flags.set c.family (t.eval s.bindings (s.isRaised c)).flag).get c'.family = true
  rw [Flags.get_set]
  split
  · next hfamily =>
    have hc : s.isRaised c = true := by rw [isRaised, ← hfamily]; exact h
    rw [hc, Tree.flag_eval, Bool.true_or]
  · exact h

/-- **Interruption cuts a run at exactly the next request.**

    From a clear flag, compare the run `r` of a tree with the run `r'` of the tree in which no leaf
    sets the flag. If `r'` visits no leaf that would have set it, both come to the same and visit the
    same leaves in the same order. And if the first such leaf is at a place `p`, then `r` visits what
    `r'` visits up to that leaf, and fails as interrupted if `r'` makes a request after it, and else
    comes to what `r'` comes to.

    If the flag is set at the start, a node fails as interrupted and visits no leaf, and a leaf is
    evaluated as ever. And no evaluation clears a flag, in whichever context. -/
theorem Store.eval_interrupt (s : Store) (c : Context) (t : Tree) :
    let r := (s.eval c t).1
    let r' := (s.eval c t.quiet).1
    (s.isRaised c = false →
      ((∀ q m, .visit q m ∈ r'.trail.toList → t.interruptsAt q = false) →
        r.outcome = r'.outcome ∧ r.trail.visits.map (Prod.map id Leaf.quiet) = r'.trail.visits) ∧
      ∀ pre p l post, r'.trail.toList = pre ++ .visit p l :: post → t.interruptsAt p = true →
        (∀ q m, .visit q m ∈ pre → t.interruptsAt q = false) →
        r.trail.visits.map (Prod.map id Leaf.quiet) =
          (pre ++ [.visit p l]).filterMap Event.visit? ∧
        (∀ q, .request q ∈ post → r.outcome = .error .interrupted) ∧
        ((∀ q, .request q ∉ post) → r.outcome = r'.outcome)) ∧
    (s.isRaised c = true →
      (∀ o slots, t = .node o slots → r.outcome = .error .interrupted ∧ r.trail.leaves = []) ∧
      (∀ l, t = .leaf l → r.outcome = l.outcome s.bindings ∧ r.trail.leaves = [l])) ∧
    (∀ c', s.isRaised c' = true → (s.eval c t).2.isRaised c' = true) := by
  intro r r'
  refine ⟨?_, ?_, ?_⟩
  · intro clear
    have hcut : r'.CutFrom t.raises r := by
      show Run.CutFrom _ (s.eval c t.quiet).1 (s.eval c t).1
      rw [eval_of_clear clear, eval_of_clear clear]
      exact t.cutFrom_quiet s.bindings
    refine ⟨?_, ?_⟩
    · intro hnone
      obtain ⟨houtcome, hevents⟩ := hcut.of_none (Tree.any_raises_eq_false hnone)
      exact ⟨houtcome, by rw [Trail.visits_quiet, hevents]; rfl⟩
    · intro pre p l post events hp hpre
      rw [Trail.visits_quiet]
      rcases hcut.of_first events (Tree.any_raises_eq_false hpre) hp with
        ⟨rfl, houtcome, hevents⟩ | ⟨q, post, rfl, houtcome, hevents⟩
      · exact ⟨by rw [hevents], by simp, fun _ => houtcome⟩
      · refine ⟨?_, fun _ _ => houtcome, fun h => absurd List.mem_cons_self (h q)⟩
        rw [hevents, List.filterMap_append, List.filterMap_append]
        rfl
  · intro raised
    have hr : r = t.eval s.bindings true := by
      rw [← raised]
      rfl
    refine ⟨?_, ?_⟩
    · rintro o slots rfl
      obtain ⟨slot, h⟩ := Tree.eval_node_raised s.bindings o slots
      rw [hr, h]
      exact ⟨rfl, rfl⟩
    · rintro l rfl
      rw [hr, Tree.eval_leaf, Leaf.eval_eq]
      exact ⟨rfl, rfl⟩
  · intro c' h
    exact isRaised_eval_of_isRaised h c t

/-- The first of two operands sets the flag. As it decides the disjunction, no request is left to
    notice; as it does not decide the conjunction, the request for the second operand fails. -/
theorem Store.eval_interrupt_connective :
    (initial.eval ⟨0, false⟩ ((Op.connective .or).call
        #v[.leaf (.probe ⟨"p", .bool true, none, true, 0⟩), .leaf (.literal (.bool true))])).1.outcome
      = .ok (.bool true) ∧
    (initial.eval ⟨0, false⟩ ((Op.connective .and).call
        #v[.leaf (.probe ⟨"p", .bool true, none, true, 0⟩), .leaf (.literal (.bool true))])).1.outcome
      = .error .interrupted := by
  constructor
  · have h := eval_interrupt initial ⟨0, false⟩ ((Op.connective .or).call
      #v[.leaf (.probe ⟨"p", .bool true, none, true, 0⟩), .leaf (.literal (.bool true))])
    exact ((h.1 rfl).2 [.request [0]] [0] (.probe ⟨"p", .bool true, none, false, 0⟩) [] rfl rfl
      (by simp)).2.2 (by simp)
  · have h := eval_interrupt initial ⟨0, false⟩ ((Op.connective .and).call
      #v[.leaf (.probe ⟨"p", .bool true, none, true, 0⟩), .leaf (.literal (.bool true))])
    exact ((h.1 rfl).2 [.request [0]] [0] (.probe ⟨"p", .bool true, none, false, 0⟩)
      [.request [1], .visit [1] (.literal (.bool true))] rfl rfl (by simp)).2.1 [1] (by simp)

end ExprTree
