import ExprTree.Proofs.PlanTyping
import ExprTree.Proofs.Request

/-!
# Type soundness

A tree that has a type is safe to evaluate: whatever the bindings and the flag, its run yields a value
of that type, or fails for a reason that no typing could exclude, namely that a leaf has no value to
give or that the evaluation was interrupted. In particular no node of such a tree ever meets a value
that it cannot take, and none ever asks an unbound slot.

`Tree.eval_sound` says so for arbitrary leaves, `Store.eval_typeSound` for trees over literals and
variables, where "a leaf has no value to give" can only mean a variable without one. Where every leaf
does have a value and none interrupts, nothing is left to fail: `Tree.eval_ready`.
-/

set_option autoImplicit false

namespace ExprTree

/-! ## Sound runs -/

/-- What the run of a tree of type `ty` may come to. -/
structure Tree.SoundRun (b : Bindings) (t : Tree) (ty : Ty) (r : Run Value) : Prop where
  value : ∀ v, r.outcome = .ok v → v.ty = ty
  /-- A failure is that of a visited leaf, or an interrupt. -/
  fault : ∀ e, r.outcome = .error e →
    (∃ l ∈ r.trail.leaves, l.outcome b = .error e) ∨ (e = .interrupted ∧ r.flag = true)
  /-- Every slot that was requested is bound. -/
  bound : ∀ p ∈ r.trail.requests, (t.at? p).isSome

theorem Tree.SoundRun.of_error {b : Bindings} {t : Tree} {ty : Ty} {r : Run Value} {e : Fault}
    (he : r.outcome = .error e)
    (fault : (∃ l ∈ r.trail.leaves, l.outcome b = .error e) ∨ (e = .interrupted ∧ r.flag = true))
    (bound : ∀ p ∈ r.trail.requests, (t.at? p).isSome) : t.SoundRun b ty r := by
  refine ⟨?_, ?_, bound⟩
  · intro v hv
    rw [he] at hv
    exact absurd hv (by simp)
  · intro e' he'
    obtain rfl := Except.error.inj (he.symm.trans he')
    exact fault

/-- What was requested below a bound slot is bound in the node too. -/
theorem Tree.isSome_at?_asking {o : Op} {slots : Slots o.arity} {i : Nat} {u : Tree}
    {below : Trail} (hu : slots.get? i = some u)
    (hb : ∀ p ∈ below.requests, (u.at? p).isSome) :
    ∀ p ∈ (Trail.asking i below).requests, ((Tree.node o slots).at? p).isSome := by
  intro p hp
  rw [Trail.requests_asking, List.mem_cons, List.mem_map] at hp
  rcases hp with rfl | ⟨q, hq, rfl⟩
  · simp [hu]
  · simpa [hu] using hb q hq

/-- **Soundness of plans.** A typed plan over slots that hold trees with sound runs has sound runs
    itself. -/
theorem Plan.Runs.sound {b : Bindings} {o : Op} {slots : Slots o.arity} {plan : Plan} {flag : Bool}
    {r : Run Value} (h : plan.Runs b o slots flag r) {ts : List Ty} {ty : Ty}
    (below : ∀ i σ, ts[i]? = some σ →
      ∃ u, slots.get? i = some u ∧ u.SoundRun b σ (u.eval b false))
    (hp : plan.HasType ts ty) : (Tree.node o slots).SoundRun b ty r := by
  induction h with
  | answer v flag =>
    cases hp with
    | answer hv =>
      refine ⟨?_, ?_, ?_⟩
      · intro w hw
        cases hw
        exact hv
      · intro e he
        exact absurd he (by simp)
      · intro p hm
        exact absurd hm (by simp)
  | interrupted slot want next =>
    cases hp with
    | ask hs hw hn =>
      obtain ⟨u, hu, -⟩ := below _ _ hs
      refine .of_error rfl (Or.inr ⟨rfl, rfl⟩) ?_
      intro p hm
      obtain rfl : p = [slot] := by simpa using hm
      simp [hu]
  | unbound want next hu =>
    cases hp with
    | ask hs hw hn =>
      obtain ⟨u, hu', -⟩ := below _ _ hs
      rw [hu] at hu'
      exact absurd hu' (by simp)
  | failed want next hu he =>
    cases hp with
    | ask hs hw hn =>
      obtain ⟨u, hu', hr⟩ := below _ _ hs
      obtain rfl := Option.some.inj (hu.symm.trans hu')
      refine .of_error rfl ?_ (Tree.isSome_at?_asking hu hr.bound)
      simpa using hr.fault _ he
  | refused want next hu hv he =>
    cases hp with
    | ask hs hw hn =>
      -- The value has the type of the slot, which the question admits: it cannot be refused.
      obtain ⟨u, hu', hr⟩ := below _ _ hs
      obtain rfl := Option.some.inj (hu.symm.trans hu')
      obtain ⟨a, ha, -⟩ := Want.take_of_admits (hr.value _ hv ▸ hw) o.symbol
      rw [he] at ha
      exact absurd ha (by simp)
  | answered want next hu hv ha hr ih =>
    cases hp with
    | ask hs hw hn =>
      obtain ⟨u, hu', hs'⟩ := below _ _ hs
      obtain rfl := Option.some.inj (hu.symm.trans hu')
      have hty : (want.toValue _).ty = _ :=
        (congrArg Value.ty (Want.toValue_of_take ha)).trans (hs'.value _ hv)
      obtain ⟨hvalue, hfault, hbound⟩ := ih (hn _ hty)
      refine ⟨hvalue, ?_, ?_⟩
      · intro e he
        rcases hfault e he with ⟨l, hl, hle⟩ | hi
        · exact Or.inl ⟨l, by simp [hl], hle⟩
        · exact Or.inr hi
      · intro p hm
        rw [Trail.requests_append, List.mem_append] at hm
        rcases hm with hm | hm
        · exact Tree.isSome_at?_asking hu hs'.bound p hm
        · exact hbound p hm

/-- **Type soundness**, for trees over any leaves. -/
theorem Tree.eval_sound (b : Bindings) {t : Tree} {ty : Ty} (h : t.ty? = some ty) (flag : Bool) :
    t.SoundRun b ty (t.eval b flag) := by
  induction t using Tree.byNode generalizing ty flag with
  | leaf l =>
    obtain rfl : l.ty = ty := by simpa [ty?] using h
    rw [eval_leaf, Leaf.eval_eq]
    refine ⟨?_, ?_, ?_⟩
    · intro v hv
      exact Leaf.ty_of_outcome hv
    · intro e he
      exact Or.inl ⟨l, by simp, he⟩
    · intro p hm
      exact absurd hm (by simp)
  | node o slots ih =>
    obtain ⟨ts, hty, hslots⟩ := ty?_node_iff.mp h
    refine (runs_node b o slots flag).sound ?_ (Op.hasType_plan hty)
    intro i σ hσ
    obtain ⟨u, hu, huty⟩ := hslots i σ hσ
    exact ⟨u, hu, ih i u hu huty false⟩

/-! ## Leaves that cannot fail -/

/-- The leaf has a value under these bindings and does not interrupt. -/
structure Leaf.Ready (b : Bindings) (l : Leaf) : Prop where
  value : ∃ v, l.outcome b = .ok v
  quiet : l.interrupts = false

theorem Tree.flag_eval_of_quiet {b : Bindings} {t : Tree}
    (h : ∀ l ∈ t.leaves, l.interrupts = false) (flag : Bool) : (t.eval b flag).flag = flag := by
  have hq : (t.eval b flag).trail.leaves.any Leaf.interrupts = false := by
    rw [List.any_eq_false]
    intro l hl
    simp [h l (t.leaves_eval_subset b flag l hl)]
  rw [flag_eval, hq, Bool.or_false]

/-- **A typed tree over ready leaves has a value**, if the flag is clear, and that is of its type. -/
theorem Tree.eval_ready {b : Bindings} {t : Tree} {ty : Ty} (h : t.ty? = some ty)
    (ready : ∀ l ∈ t.leaves, l.Ready b) :
    ∃ v, (t.eval b false).outcome = .ok v ∧ v.ty = ty := by
  have hs := eval_sound b h false
  cases hr : (t.eval b false).outcome with
  | ok v => exact ⟨v, rfl, hs.value v hr⟩
  | error e =>
    rcases hs.fault e hr with ⟨l, hl, hle⟩ | ⟨-, hf⟩
    · obtain ⟨v, hv⟩ := (ready l (t.leaves_eval_subset b false l hl)).value
      rw [hv] at hle
      exact absurd hle (by simp)
    · rw [flag_eval_of_quiet fun l hl => (ready l hl).quiet] at hf
      exact absurd hf (by simp)

/-! ## Trees over literals and variables -/

def Leaf.isInput : Leaf → Bool
  | literal _ | var _ => true
  | probe _ => false

theorem Leaf.interrupts_of_isInput {l : Leaf} (h : l.isInput) : l.interrupts = false := by
  cases l with
  | literal v => rfl
  | var x => rfl
  | probe p => exact absurd h (by simp [isInput])

theorem Leaf.unbound_of_isInput {b : Bindings} {l : Leaf} {e : Fault} (h : l.isInput)
    (he : l.outcome b = .error e) :
    ∃ x, l = .var x ∧ b.get? x = none ∧ e = .nothingBound x.name 0 := by
  cases l with
  | literal v => exact absurd he (by simp [outcome])
  | var x =>
    rw [outcome] at he
    cases hx : b.get? x with
    | some v => rw [hx] at he; exact absurd he (by simp)
    | none =>
      rw [hx] at he
      cases he
      exact ⟨x, rfl, hx, rfl⟩
  | probe p => exact absurd h (by simp [isInput])

theorem Leaf.ready_of_isInput {b : Bindings} {l : Leaf} (h : l.isInput)
    (bound : ∀ x, l = .var x → (b.get? x).isSome) : l.Ready b := by
  refine ⟨?_, interrupts_of_isInput h⟩
  cases ho : l.outcome b with
  | ok v => exact ⟨v, rfl⟩
  | error e =>
    obtain ⟨x, hl, hx, -⟩ := unbound_of_isInput h ho
    have hsome : (b.get? x).isSome := bound x hl
    rw [hx] at hsome
    exact absurd hsome (by simp)

/-- **Type soundness.** The evaluation of a typed tree over literals and variables yields a value of
    its type, or complains of a variable that it has read and that has no value, or is interrupted by
    a flag that was set. Every slot it asks is bound. And if the flag is clear and every variable of
    the tree has a value, so has the tree. -/
theorem Store.eval_typeSound (s : Store) (c : Context) (t : Tree) (ty : Ty)
    (inputs : ∀ l ∈ t.leaves, l.isInput) (typed : t.ty? = some ty) :
    let r := (s.eval c t).1
    ((∃ v, r.outcome = .ok v ∧ v.ty = ty) ∨
      (∃ x, .var x ∈ t.leaves ∧ .var x ∈ r.trail.leaves ∧ s.value? x = none ∧
        r.outcome = .error (.nothingBound x.name 0)) ∨
      (r.outcome = .error .interrupted ∧ s.isRaised c = true)) ∧
    (∀ p ∈ r.trail.requests, (t.at? p).isSome) ∧
    (s.isRaised c = false → (∀ x, .var x ∈ t.leaves → (s.value? x).isSome) →
      ∃ v, r.outcome = .ok v ∧ v.ty = ty) := by
  intro r
  have hr : t.SoundRun s.bindings ty r := Tree.eval_sound s.bindings typed _
  have hvisited : ∀ l ∈ r.trail.leaves, l ∈ t.leaves := t.leaves_eval_subset s.bindings _
  refine ⟨?_, hr.bound, ?_⟩
  · cases ho : r.outcome with
    | ok v => exact Or.inl ⟨v, rfl, hr.value v ho⟩
    | error e =>
      rcases hr.fault e ho with ⟨l, hl, hle⟩ | ⟨rfl, hf⟩
      · obtain ⟨x, rfl, hx, rfl⟩ := Leaf.unbound_of_isInput (inputs l (hvisited l hl)) hle
        exact Or.inr (Or.inl ⟨x, hvisited _ hl, hl, hx, rfl⟩)
      · have hquiet : ∀ l ∈ t.leaves, l.interrupts = false := by
          intro l hl
          exact Leaf.interrupts_of_isInput (inputs l hl)
        have hflag : r.flag = s.isRaised c := Tree.flag_eval_of_quiet hquiet _
        exact Or.inr (Or.inr ⟨rfl, hflag ▸ hf⟩)
  · intro hclear hbound
    have hready : ∀ l ∈ t.leaves, l.Ready s.bindings := by
      intro l hl
      refine Leaf.ready_of_isInput (inputs l hl) ?_
      rintro x rfl
      exact hbound x hl
    have hrun : r = t.eval s.bindings false := eval_of_clear hclear t
    rw [hrun]
    exact Tree.eval_ready typed hready

/-- A choice of which one branch takes an `i32` to an `i64`, the type of the other. -/
theorem Store.eval_typeSound_choice :
    ∃ v, (((initial.declareBound "p" (.bool true)).2.declareBound "n" (.num (.i32 5))).2.eval
        ⟨2, false⟩ (Op.choose.call #v[.leaf (.var ⟨"p", .bool, 0⟩),
          (Op.arith .add).call
            #v[.leaf (.var ⟨"n", .num .i32, 1⟩), .leaf (.literal (.num (.i64 1)))],
          .leaf (.literal (.num (.i64 2)))])).1.outcome = .ok v ∧ v.ty = .num .i64 := by
  refine (eval_typeSound _ ⟨2, false⟩ _ (.num .i64) (by decide) (by decide)).2.2 (by decide) ?_
  intro x hx
  replace hx : Leaf.var x ∈ [.var ⟨"p", .bool, 0⟩, .var ⟨"n", .num .i32, 1⟩,
    .literal (.num (.i64 1)), .literal (.num (.i64 2))] := hx
  rcases List.mem_cons.mp hx with hp | hx
  · cases hp
    rfl
  · rcases List.mem_cons.mp hx with hn | hx
    · cases hn
      rfl
    · rcases List.mem_cons.mp hx with hl | hl
      · cases hl
      · cases List.mem_singleton.mp hl

end ExprTree
