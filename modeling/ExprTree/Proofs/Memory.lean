import ExprTree.Proofs.History
import ExprTree.Proofs.Replacement
import ExprTree.Proofs.Request

/-!
# What variables remember

A tree can be evaluated by first putting values in the place of its variables: a variable and the
constant that is its value come to the same, and do the same to the flag (`Tree.eval_mapLeaves`). With
what a session tracks, this says what a client can rely on, `Session.Remembers`: the values of
variables, in whatever tree and through whatever copy they are looked at, are those that the history
gives.
-/

set_option autoImplicit false

namespace ExprTree

/-! ## Values in the place of variables -/

/-- The runs come to the same by the same requests; the leaves that they visit may be others. -/
structure Run.Like (r r' : Run Value) : Prop where
  outcome : r.outcome = r'.outcome
  flag : r.flag = r'.flag
  requests : r.trail.requests = r'.trail.requests

theorem Plan.Runs.mapLeaves {b : Bindings} {f : Leaf → Leaf} {o : Op} {slots : Slots o.arity}
    {plan : Plan} {flag : Bool} {r : Run Value} (h : plan.Runs b o slots flag r)
    (below : ∀ i u, slots.get? i = some u →
      ((u.mapLeaves f).eval b false).Like (u.eval b false)) :
    ∃ r', plan.Runs b o (slots.mapLeaves f) flag r' ∧ r'.Like r := by
  have mapped : ∀ {i u}, slots.get? i = some u →
      (slots.mapLeaves f).get? i = some (u.mapLeaves f) := by
    intro i u hu
    rw [Slots.get?_mapLeaves, hu]
    rfl
  induction h with
  | answer v flag => exact ⟨_, .answer v flag, rfl, rfl, rfl⟩
  | interrupted slot want next => exact ⟨_, .interrupted slot want next, rfl, rfl, rfl⟩
  | unbound want next hu =>
    refine ⟨_, .unbound want next ?_, rfl, rfl, rfl⟩
    rw [Slots.get?_mapLeaves, hu]
    rfl
  | failed want next hu he =>
    obtain ⟨houtcome, hflag, hrequests⟩ := below _ _ hu
    refine ⟨_, .failed want next (mapped hu) (houtcome.trans he), rfl, hflag, ?_⟩
    rw [Trail.requests_asking, Trail.requests_asking, hrequests]
  | refused want next hu hv he =>
    obtain ⟨houtcome, hflag, hrequests⟩ := below _ _ hu
    refine ⟨_, .refused want next (mapped hu) (houtcome.trans hv) he, rfl, hflag, ?_⟩
    rw [Trail.requests_asking, Trail.requests_asking, hrequests]
  | answered want next hu hv ha hr ih =>
    obtain ⟨houtcome, hflag, hrequests⟩ := below _ _ hu
    obtain ⟨r', hr', hlike⟩ := ih
    rw [← hflag] at hr'
    refine ⟨_, .answered want next (mapped hu) (houtcome.trans hv) ha hr', hlike.outcome,
      hlike.flag, ?_⟩
    rw [Trail.requests_append, Trail.requests_append, Trail.requests_asking, Trail.requests_asking,
      hrequests, hlike.requests]

/-- Leaves may be replaced by others that come to the same and do the same to the flag. -/
theorem Tree.eval_mapLeaves {b : Bindings} {f : Leaf → Leaf}
    (houtcome : ∀ l, (f l).outcome b = l.outcome b) (hf : ∀ l, (f l).interrupts = l.interrupts)
    (t : Tree) (flag : Bool) : ((t.mapLeaves f).eval b flag).Like (t.eval b flag) := by
  induction t using Tree.byNode generalizing flag with
  | leaf l =>
    rw [mapLeaves, eval_leaf, eval_leaf, Leaf.eval_eq, Leaf.eval_eq, houtcome, hf]
    exact ⟨rfl, rfl, rfl⟩
  | node o slots ih =>
    obtain ⟨r', hr', hlike⟩ :=
      (runs_node b o slots flag).mapLeaves fun i u hu => ih i u hu false
    rw [mapLeaves, eval_node_of_runs hr']
    exact hlike

theorem Leaf.outcome_resolve (b : Bindings) (l : Leaf) : (l.resolve b).outcome b = l.outcome b := by
  cases l with
  | literal v => rfl
  | var x => cases h : b.get? x <;> simp [resolve, outcome, h]
  | probe p => rfl

theorem Leaf.interrupts_resolve (b : Bindings) (l : Leaf) :
    (l.resolve b).interrupts = l.interrupts := by
  cases l with
  | literal v => rfl
  | var x => cases h : b.get? x <;> simp [resolve, interrupts, h]
  | probe p => rfl

theorem Tree.root_mapLeaves (f : Leaf → Leaf) (t : Tree) :
    (t.mapLeaves f).root = t.root.map f id := by
  cases t <;> simp [mapLeaves, root]

/-! ## What variables remember -/

/-- The leaf at a place of a node, with its last value in the place of a variable that has one. -/
def History.settle (hist : History) (n : Nat) (p : Place) : Leaf → Leaf
  | .var x => ((hist.origin n p).bind hist.value?).elim (.var x) .literal
  | l => l

/-- What a client can rely on, of the variables in its nodes. -/
structure Session.Remembers (s : Session) (hist : History) : Prop where
  /-- Whatever is stored has the type of its variable. -/
  typed : ∀ x v, s.store.value? x = some v → v.ty = x.ty
  /-- A declaration makes a variable as it says. -/
  made : ∀ k name ty, hist.declared k = some (name, ty) →
    ∃ x, s.varAt? k [] = some x ∧ x.name = name ∧ x.ty = ty ∧ hist.origin k [] = some k
  /-- A variable, wherever it stands, goes back to a declaration of its name and type. -/
  declared : ∀ n p x, s.varAt? n p = some x →
    ∃ k, hist.origin n p = some k ∧ hist.declared k = some (x.name, x.ty)
  /-- Variables are the same exactly if they go back to the same declaration. -/
  same : ∀ n p x n' p' x', s.varAt? n p = some x → s.varAt? n' p' = some x' →
    (x = x' ↔ hist.origin n p = hist.origin n' p')
  /-- The value of a variable is the last one that was given to any copy of it. -/
  value : ∀ n p x, s.varAt? n p = some x →
    s.store.value? x = (hist.origin n p).bind hist.value?
  /-- So is what it comes to when it is evaluated; without a value, it is a complaint. -/
  outcome : ∀ n p x, s.varAt? n p = some x → ∀ c,
    (s.store.eval c (.leaf (.var x))).1.outcome =
      ((hist.origin n p).bind hist.value?).elim (.error (.nothingBound x.name 0)) .ok
  /-- A node is evaluated like the tree that has the last values in the place of its variables. -/
  evaluated : ∀ n t, s.node? n = some t →
    ∃ t', (∀ p, (t'.at? p).map Tree.root =
        (t.at? p).map fun u => u.root.map (hist.settle n p) id) ∧
      ∀ c, (s.store.eval c t').1.Like (s.store.eval c t).1
  /-- A value of the declared type is accepted; it reaches the copies of the variable, and them
      only. -/
  accepted : ∀ n p x v, s.varAt? n p = some x → v.ty = x.ty →
    ∃ store, s.store.assign x v = .ok store ∧ ∀ n' p' y, s.varAt? n' p' = some y →
      store.value? y = if hist.origin n' p' = hist.origin n p then some v else s.store.value? y
  refused : ∀ n p x v, s.varAt? n p = some x → v.ty ≠ x.ty →
    s.store.assign x v = .error (.wrongType x.name x.ty.name v.ty.name)
  /-- A step that assigns leaves the store that has accepted the value, or else the store as it
      was. -/
  assigned : ∀ n x v, s.varAt? n [] = some x →
    (s.perform (.assign n v)).store = (s.store.assign x v).toOption.getD s.store
  /-- An evaluation gives no values. -/
  unchanged : ∀ c t x, (s.store.eval c t).2.value? x = s.store.value? x

namespace Session

variable {s : Session} {hist : History}

theorem Tracks.same_iff (h : s.Tracks hist) {n n' : Nat} {p p' : Place} {x x' : Variable}
    (hx : s.varAt? n p = some x) (hx' : s.varAt? n' p' = some x') :
    x = x' ↔ hist.origin n p = hist.origin n' p' := by
  obtain ⟨k, hk, hxk⟩ := h.exists_origin hx
  obtain ⟨k', hk', hxk'⟩ := h.exists_origin hx'
  rw [hk, hk', Option.some.injEq]
  constructor
  · rintro rfl
    exact h.apart k k' x hxk hxk'
  · rintro rfl
    exact Option.some.inj (hxk.made.symm.trans hxk'.made)

theorem Tracks.value?_eq (h : s.Tracks hist) {n : Nat} {p : Place} {x : Variable}
    (hx : s.varAt? n p = some x) :
    s.store.value? x = (hist.origin n p).bind hist.value? := by
  obtain ⟨k, hk, hxk⟩ := h.exists_origin hx
  rw [hk, Option.bind_some, h.value k x hxk]

theorem Tracks.resolve_eq_settle (h : s.Tracks hist) {n : Nat} {t : Tree} (ht : s.node? n = some t)
    {p : Place} {l : Leaf} (hl : t.at? p = some (.leaf l)) :
    l.resolve s.store.bindings = hist.settle n p l := by
  cases l with
  | literal v => rfl
  | var x =>
    have hv : s.store.bindings.get? x = (hist.origin n p).bind hist.value? :=
      h.value?_eq (varAt?_eq_some_iff.mpr ⟨t, ht, hl⟩)
    rw [Leaf.resolve, History.settle, hv]
    cases (hist.origin n p).bind hist.value? <;> rfl
  | probe q => rfl

theorem Tracks.root_resolve (h : s.Tracks hist) {n : Nat} {t : Tree} (ht : s.node? n = some t)
    (p : Place) : ((t.resolve s.store.bindings).at? p).map Tree.root =
      (t.at? p).map fun u => u.root.map (hist.settle n p) id := by
  rw [Tree.resolve, Tree.at?_mapLeaves, Option.map_map]
  cases hu : t.at? p with
  | none => rfl
  | some u =>
    rw [Option.map_some, Option.map_some, Function.comp_apply, Tree.root_mapLeaves]
    cases u with
    | leaf l => rw [Tree.root, Sum.map_inl, Sum.map_inl, h.resolve_eq_settle ht hu]
    | node o slots => rfl

theorem Tracks.remembers (h : s.Tracks hist) : s.Remembers hist where
  typed := fun x v hv => Bindings.ty_of_get? hv
  made := by
    intro k name ty hk
    obtain ⟨x, hx⟩ := h.declared k (by rw [hk]; rfl)
    obtain ⟨hname, hty⟩ := Prod.mk.inj (Option.some.inj (hx.declares.symm.trans hk))
    obtain ⟨j, hj, hxj⟩ := h.exists_origin (p := []) hx.made
    exact ⟨x, hx.made, hname, hty, by rw [hj, h.apart j k x hxj hx]⟩
  declared := by
    intro n p x hx
    obtain ⟨k, hk, hxk⟩ := h.exists_origin hx
    exact ⟨k, hk, hxk.declares⟩
  same := fun n p x n' p' x' hx hx' => h.same_iff hx hx'
  value := fun n p x hx => h.value?_eq hx
  outcome := by
    intro n p x hx c
    have hv : s.store.bindings.get? x = (hist.origin n p).bind hist.value? := h.value?_eq hx
    rw [Store.eval_fst, Tree.eval_leaf, Leaf.eval_eq, Leaf.outcome, hv]
    cases (hist.origin n p).bind hist.value? <;> rfl
  evaluated := by
    intro n t ht
    refine ⟨t.resolve s.store.bindings, h.root_resolve ht, ?_⟩
    intro c
    exact Tree.eval_mapLeaves (Leaf.outcome_resolve _) (Leaf.interrupts_resolve _) t _
  accepted := by
    intro n p x v hx hv
    refine ⟨_, Store.assign_of_ty hv, ?_⟩
    intro n' p' y hy
    show (s.store.bindings.bind x v hv).get? y = _
    rw [Bindings.get?_bind]
    exact ite_congr (propext (h.same_iff hy hx)) (fun _ => rfl) fun _ => rfl
  refused := fun n p x v hx hv => Store.assign_of_ne hv
  assigned := by
    intro n x v hx
    show s.client.effect (s.call (.assign n v)) = _
    rw [call_assign hx]
    rfl
  unchanged := fun c t x => rfl

/-- **Variables remember what they were last given**, over whole histories. Let a client declare
    variables, make constants, probes and contexts, copy nodes, build, take apart and edit them, assign
    values through any node that is a variable, raise and clear flags, and evaluate, in any order.
    Then any variable that stands anywhere in its nodes has the name and the type of the declaration
    that it goes back to, and the last value that was accepted for any copy of it since. -/
theorem remembers_after (hist : History) : (initial.after hist).Remembers hist :=
  (tracks_after hist).remembers

/-- The value goes to what has been taken out of a logarithm. -/
example : History.value? [.assign 2 (.num (.i64 5)), .make (.child 1 0),
    .make (.build (.real .ln) [some 0]), .declare "n" (.num .i64)] 0 = some (.num (.i64 5)) := by
  rfl

end Session

end ExprTree
