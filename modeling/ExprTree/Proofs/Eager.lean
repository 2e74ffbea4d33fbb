import ExprTree.Proofs.PlanAnswers
import ExprTree.Proofs.Soundness

/-!
# Lazy and eager evaluation

The eager evaluator is what one would write without plans: it evaluates every child of every node,
from left to right, and then combines the values, the connectives by their truth tables. It has no
flag and no trail, so it can stand for the meaning of a tree.

Evaluation by plans skips subtrees, and **on a typed tree whose leaves all have values the two yield
one value** (`Tree.eager_of_ready`). What a plan skips would have had a value, by type soundness, and
the operator would have made nothing of it (`Op.combine_of_settles`).
-/

set_option autoImplicit false

namespace ExprTree

/-! ## The eager evaluator -/

def Connective.table : Connective → Bool → Bool → Bool
  | and, a, b => a && b
  | or, a, b => a || b
  | nand, a, b => !(a && b)
  | nor, a, b => !(a || b)
  | implies, a, b => !a || b

/-- What an operator makes of the values of all its children. -/
def Op.combine : Op → List Value → Option Value
  | connective c, [.bool a, .bool b] => some (.bool (c.table a b))
  | not, [.bool a] => some (.bool (!a))
  | xor, [.bool a, .bool b] => some (.bool (a != b))
  | arith o, [.num x, .num y] => some (.num (o.apply x y))
  | divide p, [.num x, .num y] => some (.num (.f64 (guardedQuotient p x y)))
  | unary u, [.num x] => some (.num (u.apply x))
  | real f, [.num x] => some (.num (.f64 (f.apply x.toF64)))
  | compare c, [.num x, .num y] => some (.bool (c.apply x y))
  | choose, [.bool a, v, w] => some (if a then v else w)
  | _, _ => none

mutual

/-- The value of a tree by eager evaluation. -/
def Tree.eager (b : Bindings) : Tree → Option Value
  | .leaf l => (l.outcome b).toOption
  | .node o slots => (slots.eagers b).bind o.combine

def Slots.eagers (b : Bindings) {n : Nat} : Slots n → Option (List Value)
  | .nil => some []
  | .unbound _ => none
  | .bound t rest => (t.eager b).bind fun v => (rest.eagers b).map (v :: ·)

end

theorem Slots.eagers_eq_collect (b : Bindings) {n : Nat} (s : Slots n) :
    s.eagers b = s.collect (Tree.eager b) := by
  cases s with
  | nil => rw [eagers, collect]
  | unbound rest => rw [eagers, collect]
  | bound t rest => rw [eagers, collect, eagers_eq_collect b rest]

theorem Tree.eager_node (b : Bindings) (o : Op) (slots : Slots o.arity) :
    (Tree.node o slots).eager b = (slots.collect (Tree.eager b)).bind o.combine := by
  rw [eager, Slots.eagers_eq_collect]

/-! ## One operator -/

/-- Once the first operand has decided, the second makes no difference. -/
theorem Connective.table_decider (c : Connective) (b : Bool) : c.table c.decider b = c.verdict := by
  cases c <;> rfl

theorem Connective.table_of_ne {c : Connective} {a : Bool} (h : a ≠ c.decider) (b : Bool) :
    c.table a b = c.conclude b := by
  cases c <;> cases a <;> first | rfl | exact absurd rfl h

theorem Value.eq_bool_of_ty {v : Value} (h : v.ty = .bool) : ∃ a, v = .bool a := by
  cases v with
  | bool a => exact ⟨a, rfl⟩
  | num n => exact absurd h (by simp)

theorem Value.map_ty_eq_single {vs : List Value} {s : Ty} (h : vs.map Value.ty = [s]) :
    ∃ x, vs = [x] ∧ x.ty = s := by
  obtain ⟨x, rest, rfl, hx, hrest⟩ := List.map_eq_cons_iff.mp h
  obtain rfl := List.map_eq_nil_iff.mp hrest
  exact ⟨x, rfl, hx⟩

theorem Value.map_ty_eq_pair {vs : List Value} {s t : Ty} (h : vs.map Value.ty = [s, t]) :
    ∃ x y, vs = [x, y] ∧ x.ty = s ∧ y.ty = t := by
  obtain ⟨x, rest, rfl, hx, hrest⟩ := List.map_eq_cons_iff.mp h
  obtain ⟨y, rfl, hy⟩ := map_ty_eq_single hrest
  exact ⟨x, y, rfl, hx, hy⟩

/-- **Eager combination agrees with the plan**, whichever of the values the plan has asked for. -/
theorem Op.combine_of_settles {o : Op} {vs : List Value} {ty : Ty} {asked : List Nat} {v : Value}
    (typed : o.Typed (vs.map Value.ty) ty)
    (h : o.plan.Settles (fun i w => vs[i]? = some w) asked v) : o.combine vs = some v := by
  generalize hts : vs.map Value.ty = ts at typed
  cases typed with
  | connective c =>
    obtain ⟨x, y, rfl, hx, hy⟩ := Value.map_ty_eq_pair hts
    obtain ⟨b, rfl⟩ := Value.eq_bool_of_ty hy
    rcases h.of_connective with ⟨ha, -, rfl⟩ | ⟨a, b', hne, ha, hb, -, rfl⟩
    · obtain rfl : x = .bool c.decider := Option.some.inj ha
      rw [combine, c.table_decider]
    · obtain rfl : x = .bool a := Option.some.inj ha
      obtain rfl : b = b' := Value.bool.inj (Option.some.inj hb)
      rw [combine, Connective.table_of_ne hne]
  | not | unary | real =>
    obtain ⟨x, rfl, -⟩ := Value.map_ty_eq_single hts
    obtain ⟨a, ha, -, rfl⟩ := h.of_single
    obtain rfl : x = Want.toValue _ a := Option.some.inj ha
    rfl
  | xor | arith | divide | compare =>
    obtain ⟨x, y, rfl, -, -⟩ := Value.map_ty_eq_pair hts
    obtain ⟨a, b, ha, hb, -, rfl⟩ := h.of_pair
    obtain rfl : x = Want.toValue _ a := Option.some.inj ha
    obtain rfl : y = Want.toValue _ b := Option.some.inj hb
    rfl
  | choose =>
    obtain ⟨x, rest, rfl, -, hrest⟩ := List.map_eq_cons_iff.mp hts
    obtain ⟨y, z, rfl, -, -⟩ := Value.map_ty_eq_pair hrest
    obtain ⟨a, rest, rfl, ha, hn⟩ := h.of_ask
    obtain ⟨w, hw, -, rfl⟩ := hn.of_single
    obtain rfl : x = .bool a := Option.some.inj ha
    cases a with
    | true => exact hw
    | false => exact hw

/-! ## Trees -/

/-- A row of typed trees on which both evaluators agree has eager values of those types, and they are
    what the slots yield. -/
theorem Slots.exists_eagers {b : Bindings} {n : Nat} {s : Slots n} {ts : List Ty}
    (hlen : ts.length = n)
    (below : ∀ i σ, ts[i]? = some σ → ∃ u v, s.get? i = some u ∧
      (u.eval b false).outcome = .ok v ∧ u.eager b = some v ∧ v.ty = σ) :
    ∃ vs, s.eagers b = some vs ∧ vs.map Value.ty = ts ∧ ∀ i v, s.Yields b i v → vs[i]? = some v := by
  have inSlot : ∀ i < n, ∃ u v, s.get? i = some u ∧ (u.eval b false).outcome = .ok v ∧
      (s.get? i).bind (Tree.eager b) = some v ∧ ts[i]? = some v.ty := by
    intro i hi
    have hi' : i < ts.length := hlen ▸ hi
    have hσ : ts[i]? = some ts[i] := List.getElem?_eq_getElem hi'
    obtain ⟨u, v, hu, hv, he, hty⟩ := below i _ hσ
    refine ⟨u, v, hu, hv, ?_, hty ▸ hσ⟩
    rw [hu]
    exact he
  obtain ⟨vs, hvs⟩ := s.exists_collect fun i hi => by
    obtain ⟨u, v, -, -, he, -⟩ := inSlot i hi
    exact ⟨v, he⟩
  obtain ⟨hvlen, hvals⟩ := (s.collect_eq_some_iff vs).mp hvs
  refine ⟨vs, (s.eagers_eq_collect b).trans hvs, List.ext_getElem? ?_, ?_⟩
  · intro i
    rcases Nat.lt_or_ge i n with hi | hi
    · obtain ⟨u, v, -, -, he, hσ⟩ := inSlot i hi
      rw [List.getElem?_map, ← hvals i hi, he, hσ]
      rfl
    · rw [List.getElem?_eq_none (by simpa [hvlen] using hi), List.getElem?_eq_none (hlen ▸ hi)]
  · rintro i v ⟨u, hu, hv⟩
    have hi : i < n := lt_of_get? hu
    obtain ⟨u', v', hu', hv', he, -⟩ := inSlot i hi
    obtain rfl := Option.some.inj (hu.symm.trans hu')
    obtain rfl := Except.ok.inj (hv.symm.trans hv')
    rw [← hvals i hi, he]

/-- **On a typed tree over ready leaves, lazy and eager evaluation come to one value**, which is of
    the type of the tree. -/
theorem Tree.eager_of_ready {b : Bindings} {t : Tree} {ty : Ty} (typed : t.ty? = some ty)
    (ready : ∀ l ∈ t.leaves, l.Ready b) :
    ∃ v, (t.eval b false).outcome = .ok v ∧ t.eager b = some v ∧ v.ty = ty := by
  induction t using Tree.byNode generalizing ty with
  | leaf l =>
    obtain ⟨v, hv⟩ := (ready l (by simp)).value
    obtain rfl : l.ty = ty := by simpa [ty?] using typed
    refine ⟨v, ?_, ?_, Leaf.ty_of_outcome hv⟩
    · rw [eval_leaf, Leaf.eval_eq]
      exact hv
    · rw [eager, hv]
      rfl
  | node o slots ih =>
    -- The subtrees that the plan skips have values too, but the plan shows that they are not needed.
    obtain ⟨v, hv, hty⟩ := eval_ready typed ready
    obtain ⟨ts, hop, hslots⟩ := ty?_node_iff.mp typed
    obtain ⟨vs, hvs, htys, hyields⟩ := Slots.exists_eagers hop.length_eq fun i σ hσ => by
      obtain ⟨u, hu, huty⟩ := hslots i σ hσ
      obtain ⟨w, hw⟩ := ih i u hu huty fun l hl => ready l (mem_leaves_node hu hl)
      exact ⟨u, w, hu, hw⟩
    obtain ⟨asked, hs, -⟩ := (runs_node b o slots false).settles hv
    have hcombine : o.combine vs = some v :=
      Op.combine_of_settles (htys ▸ hop) (hs.mono hyields)
    refine ⟨v, hv, ?_, hty⟩
    rw [eager, hvs]
    exact hcombine

/-- **Lazy evaluation agrees with eager evaluation.** In a context whose flag is clear, a typed tree of
    which every leaf has a value and does not interrupt evaluates to what the eager evaluator gives,
    and both succeed. -/
theorem Store.eval_eq_eager (s : Store) (c : Context) (t : Tree) (ty : Ty)
    (typed : t.ty? = some ty) (clear : s.isRaised c = false)
    (ready : ∀ l ∈ t.leaves, l.Ready s.bindings) :
    ∃ v, (s.eval c t).1.outcome = .ok v ∧ t.eager s.bindings = some v := by
  obtain ⟨v, hv, he, -⟩ := Tree.eager_of_ready typed ready
  rw [eval_of_clear clear]
  exact ⟨v, hv, he⟩

/-- The negation is skipped by the one evaluator and not by the other. -/
theorem Store.eval_eq_eager_or :
    ∃ v, (initial.eval ⟨0, false⟩ ((Op.connective .or).call
        #v[.leaf (.literal (.bool true)), Op.not.call #v[.leaf (.literal (.bool true))]])).1.outcome
          = .ok v ∧
      ((Op.connective .or).call
        #v[.leaf (.literal (.bool true)), Op.not.call #v[.leaf (.literal (.bool true))]]).eager
          initial.bindings = some v := by
  refine eval_eq_eager initial ⟨0, false⟩ _ .bool (by decide) (by decide) ?_
  intro l hl
  replace hl : l ∈ [.literal (.bool true), .literal (.bool true)] := hl
  obtain rfl : l = .literal (.bool true) := List.eq_of_mem_replicate (n := 2) hl
  exact ⟨⟨_, rfl⟩, rfl⟩

end ExprTree
