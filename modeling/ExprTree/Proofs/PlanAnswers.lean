import ExprTree.Proofs.PlanTyping
import ExprTree.Proofs.Request

/-!
# Plans that are answered

A run that succeeds is a plan whose every question was answered. `Plan.Settles` is that plan with
nothing else about the run: the slots it asked, the answers it got there, and the value it came to.

The converse of typing starts here. **An operator that came to a value from some answers is typed over
some types, and the answers are of those types** (`Op.exists_typed`); the types of the slots that were
not asked are free, and the rules of the lazy operators always leave a choice for them that fits.
-/

set_option autoImplicit false

namespace ExprTree

/-- The plan asks the slots of the list, in this order, each answered with what the slot yields, and
    comes to the value. -/
inductive Plan.Settles (yields : Nat → Value → Prop) : Plan → List Nat → Value → Prop
  | answer (v : Value) : Settles yields (.answer v) [] v
  | ask {slot : Nat} {want : Want} {next : want.Answer → Plan} {a : want.Answer}
      {asked : List Nat} {v : Value} (ha : yields slot (want.toValue a))
      (hn : Settles yields (next a) asked v) :
      Settles yields (.ask slot want next) (slot :: asked) v

section

variable {yields yields' : Nat → Value → Prop} {plan : Plan} {asked : List Nat} {v : Value}

theorem Plan.Settles.mono (h : plan.Settles yields asked v)
    (hy : ∀ i w, yields i w → yields' i w) : plan.Settles yields' asked v := by
  induction h with
  | answer v => exact .answer v
  | ask ha _ ih => exact .ask (hy _ _ ha) ih

/-! ### The shapes of plans -/

theorem Plan.Settles.of_ask {slot : Nat} {want : Want} {next : want.Answer → Plan}
    (h : (Plan.ask slot want next).Settles yields asked v) :
    ∃ a rest, asked = slot :: rest ∧ yields slot (want.toValue a) ∧
      (next a).Settles yields rest v := by
  cases h with
  | ask ha hn => exact ⟨_, _, rfl, ha, hn⟩

theorem Plan.Settles.of_single {i : Nat} {want : Want} {f : want.Answer → Value}
    (h : (Plan.ask i want fun a => .answer (f a)).Settles yields asked v) :
    ∃ a, yields i (want.toValue a) ∧ asked = [i] ∧ v = f a := by
  obtain ⟨a, rest, rfl, ha, hn⟩ := h.of_ask
  cases hn
  exact ⟨a, ha, rfl, rfl⟩

theorem Plan.Settles.of_pair {i j : Nat} {want want' : Want}
    {f : want.Answer → want'.Answer → Value}
    (h : (Plan.ask i want fun a => .ask j want' fun b => .answer (f a b)).Settles yields asked v) :
    ∃ a b, yields i (want.toValue a) ∧ yields j (want'.toValue b) ∧ asked = [i, j] ∧
      v = f a b := by
  obtain ⟨a, rest, rfl, ha, hn⟩ := h.of_ask
  obtain ⟨b, hb, rfl, rfl⟩ := hn.of_single
  exact ⟨a, b, ha, hb, rfl, rfl⟩

/-- The plan of a connective stops after its first question exactly if that decides. -/
theorem Plan.Settles.of_connective {c : Connective}
    (h : (Op.connective c).plan.Settles yields asked v) :
    (yields 0 (.bool c.decider) ∧ asked = [0] ∧ v = .bool c.verdict) ∨
      ∃ a b, a ≠ c.decider ∧ yields 0 (.bool a) ∧ yields 1 (.bool b) ∧ asked = [0, 1] ∧
        v = .bool (c.conclude b) := by
  obtain ⟨a, rest, rfl, ha, hn⟩ := h.of_ask
  by_cases hd : a = c.decider
  · rw [if_pos hd] at hn
    cases hn
    exact Or.inl ⟨hd ▸ ha, rfl, rfl⟩
  · rw [if_neg hd] at hn
    obtain ⟨b, hb, rfl, rfl⟩ := hn.of_single
    exact Or.inr ⟨a, b, hd, ha, hb, rfl, rfl⟩

/-! ## Operators -/

/-- **Answers that led to a value were well-typed**, under some rule of the operator that also gives
    the value its type. -/
theorem Op.exists_typed {o : Op} (h : o.plan.Settles yields asked v) :
    ∃ ts, o.Typed ts v.ty ∧ ∀ i ∈ asked, ∃ w, yields i w ∧ ts[i]? = some w.ty := by
  cases o with
  | connective c =>
    refine ⟨[.bool, .bool], ?_⟩
    rcases h.of_connective with ⟨ha, rfl, rfl⟩ | ⟨a, b, -, ha, hb, rfl, rfl⟩
    · exact ⟨.connective c, List.forall_mem_singleton.mpr ⟨_, ha, rfl⟩⟩
    · exact ⟨.connective c, List.forall_mem_cons.mpr
        ⟨⟨_, ha, rfl⟩, List.forall_mem_singleton.mpr ⟨_, hb, rfl⟩⟩⟩
  | not =>
    obtain ⟨a, ha, rfl, rfl⟩ := h.of_single
    exact ⟨[.bool], .not, List.forall_mem_singleton.mpr ⟨_, ha, rfl⟩⟩
  | xor =>
    obtain ⟨a, b, ha, hb, rfl, rfl⟩ := h.of_pair
    exact ⟨[.bool, .bool], .xor, List.forall_mem_cons.mpr
      ⟨⟨_, ha, rfl⟩, List.forall_mem_singleton.mpr ⟨_, hb, rfl⟩⟩⟩
  | arith o =>
    obtain ⟨x, y, hx, hy, rfl, rfl⟩ := h.of_pair
    refine ⟨[.num x.ty, .num y.ty], ?_, List.forall_mem_cons.mpr
      ⟨⟨_, hx, rfl⟩, List.forall_mem_singleton.mpr ⟨_, hy, rfl⟩⟩⟩
    rw [Value.ty_num, Arith.ty_apply]
    exact .arith o x.ty y.ty
  | divide p =>
    obtain ⟨x, y, hx, hy, rfl, rfl⟩ := h.of_pair
    exact ⟨[.num x.ty, .num y.ty], .divide p x.ty y.ty, List.forall_mem_cons.mpr
      ⟨⟨_, hx, rfl⟩, List.forall_mem_singleton.mpr ⟨_, hy, rfl⟩⟩⟩
  | unary u =>
    obtain ⟨x, hx, rfl, rfl⟩ := h.of_single
    refine ⟨[.num x.ty], ?_, List.forall_mem_singleton.mpr ⟨_, hx, rfl⟩⟩
    rw [Value.ty_num, Unary.ty_apply]
    exact .unary u x.ty
  | real f =>
    obtain ⟨x, hx, rfl, rfl⟩ := h.of_single
    exact ⟨[.num x.ty], .real f x.ty, List.forall_mem_singleton.mpr ⟨_, hx, rfl⟩⟩
  | compare c =>
    obtain ⟨x, y, hx, hy, rfl, rfl⟩ := h.of_pair
    exact ⟨[.num x.ty, .num y.ty], .compare c x.ty y.ty, List.forall_mem_cons.mpr
      ⟨⟨_, hx, rfl⟩, List.forall_mem_singleton.mpr ⟨_, hy, rfl⟩⟩⟩
  | choose =>
    obtain ⟨a, rest, rfl, ha, hn⟩ := h.of_ask
    obtain ⟨w, hw, rfl, hv⟩ := hn.of_single
    -- The branch that was not asked is given the type of the one that was.
    refine ⟨[.bool, w.ty, w.ty], hv ▸ .choose w.ty, List.forall_mem_cons.mpr
      ⟨⟨_, ha, rfl⟩, List.forall_mem_singleton.mpr ⟨w, hw, ?_⟩⟩⟩
    cases a <;> rfl

def Op.isLazy : Op → Bool
  | connective _ | choose => true
  | not | xor | arith _ | divide _ | unary _ | real _ | compare _ => false

/-- An operator that is not lazy asks each of its slots, once and from left to right. -/
theorem Op.asked_of_strict {o : Op} (ho : o.isLazy = false) (h : o.plan.Settles yields asked v) :
    asked = List.range o.arity := by
  cases o with
  | connective c => exact absurd ho (by simp [isLazy])
  | choose => exact absurd ho (by simp [isLazy])
  | not | unary | real =>
    obtain ⟨a, -, rfl, -⟩ := h.of_single
    rfl
  | xor | arith | divide | compare =>
    obtain ⟨a, b, -, -, rfl, -⟩ := h.of_pair
    rfl

end

/-! ## Runs that succeed -/

/-- The subtree in slot `i` evaluates to `v`, when the flag is clear. -/
def Slots.Yields (b : Bindings) {n : Nat} (s : Slots n) (i : Nat) (v : Value) : Prop :=
  ∃ u, s.get? i = some u ∧ (u.eval b false).outcome = .ok v

/-- **A run that succeeds is a plan that was answered**, and it requested the slots that the plan
    asked, with what was requested below them, and no others. -/
theorem Plan.Runs.settles {b : Bindings} {o : Op} {slots : Slots o.arity} {plan : Plan}
    {flag : Bool} {r : Run Value} (h : plan.Runs b o slots flag r) {v : Value}
    (hv : r.outcome = .ok v) :
    ∃ asked, plan.Settles (slots.Yields b) asked v ∧
      ∀ i p, i :: p ∈ r.trail.requests ↔ i ∈ asked ∧
        (p = [] ∨ ∃ u, slots.get? i = some u ∧ p ∈ (u.eval b false).trail.requests) := by
  induction h with
  | answer w flag =>
    cases hv
    exact ⟨[], .answer _, by simp⟩
  | interrupted slot want next => cases hv
  | unbound want next hu => cases hv
  | failed want next hu he => cases hv
  | refused want next hu hw he => cases hv
  | @answered slot u w want next a r hu hw ha hr ih =>
    obtain ⟨asked, hs, hreq⟩ := ih hv
    refine ⟨slot :: asked, .ask ⟨u, hu, ?_⟩ hs, ?_⟩
    · rw [Want.toValue_of_take ha, hw]
    · intro i p
      rw [Trail.requests_append, List.mem_append, hreq, Trail.requests_asking, List.mem_cons,
        List.mem_cons]
      constructor
      · rintro ((h | h) | ⟨hi, hp⟩)
        · cases h
          exact ⟨Or.inl rfl, Or.inl rfl⟩
        · obtain ⟨q, hq, he⟩ := List.mem_map.mp h
          cases he
          exact ⟨Or.inl rfl, Or.inr ⟨u, hu, hq⟩⟩
        · exact ⟨Or.inr hi, hp⟩
      · rintro ⟨rfl | hi, hp⟩
        · rcases hp with rfl | ⟨u', hu', hp⟩
          · exact Or.inl (Or.inl rfl)
          · obtain rfl := Option.some.inj (hu.symm.trans hu')
            exact Or.inl (Or.inr (List.mem_map_of_mem hp))
        · exact Or.inr ⟨hi, hp⟩

end ExprTree
