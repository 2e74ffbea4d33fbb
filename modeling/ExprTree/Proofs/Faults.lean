import ExprTree.Op.Guarded
import ExprTree.Proofs.PlanAnswers
import ExprTree.Proofs.Soundness

/-!
# Faults have causes

An evaluation of a tree over literals and variables fails in three ways only, and for each there is
something in the tree or in its context that one can point at: a flag that was set, a slot or a
variable without a value, a child whose value is of a kind that its node cannot take. `Tree.Explains`
lists these causes, each with the fault that it has.

**Every fault that comes out of an evaluation is explained** (`Tree.explains_of_eval`), at whatever depth
it was raised: going upwards a fault is not changed, and the places below a slot are places of the
node. The other faults have no explanation at all. Those that the operators guard against in their own
arithmetic are never raised, because a plan only ever computes with numbers (`Arith.guarded_num`).
-/

set_option autoImplicit false

namespace ExprTree

/-! ## Explanations -/

/-- The operators that take truth values; all others take numbers. -/
def Op.logical : List String := ["AND", "OR", "NOT", "XOR", "NAND", "NOR", "IMPLIES", "IF"]

/-- The fault has a cause in the tree, under the bindings, or in the flag. -/
inductive Tree.Explains (b : Bindings) (flag : Bool) (t : Tree) : Fault → Prop
  | interrupted {o : Op} {slots : Slots o.arity} (root : t = .node o slots) (set : flag = true) :
      Explains b flag t .interrupted
  | unboundSlot {p : Place} {o : Op} {slots : Slots o.arity} {i : Nat}
      (node : t.at? p = some (.node o slots)) (slot : i < o.arity) (unbound : slots.get? i = none) :
      Explains b flag t (.nothingBound o.symbol i)
  | unboundVar {p : Place} {x : Variable} (leaf : t.at? p = some (.leaf (.var x)))
      (unbound : b.get? x = none) : Explains b flag t (.nothingBound x.name 0)
  /-- A child of an operator on truth values has a number for its value. -/
  | notBool {p : Place} {o : Op} {slots : Slots o.arity} {i : Nat} {u : Tree} {x : Number}
      (node : t.at? p = some (.node o slots)) (takes : o.symbol ∈ Op.logical)
      (child : slots.get? i = some u) (value : (u.eval b false).outcome = .ok (.num x)) :
      Explains b flag t (.wrongType o.symbol "bool" x.ty.name)
  /-- A child of an operator on numbers has a truth value. -/
  | notNumber {p : Place} {o : Op} {slots : Slots o.arity} {i : Nat} {u : Tree} {a : Bool}
      (node : t.at? p = some (.node o slots)) (takes : o.symbol ∉ Op.logical)
      (child : slots.get? i = some u) (value : (u.eval b false).outcome = .ok (.bool a)) :
      Explains b flag t (.wrongType o.symbol "a numeric type" "bool")

/-- What explains a fault in a slot explains it in the node. An interrupt is not raised there, where
    the flag was clear. -/
theorem Tree.Explains.under {b : Bindings} {o : Op} {slots : Slots o.arity} {i : Nat} {u : Tree}
    {e : Fault} (h : u.Explains b false e) (hu : slots.get? i = some u) (flag : Bool) :
    (Tree.node o slots).Explains b flag e := by
  have hat : ∀ p, (Tree.node o slots).at? (i :: p) = u.at? p := by
    intro p
    rw [at?_node_cons, hu]
    rfl
  cases h with
  | interrupted root set => exact absurd set (by simp)
  | unboundSlot node slot unbound => exact .unboundSlot ((hat _).trans node) slot unbound
  | unboundVar leaf unbound => exact .unboundVar ((hat _).trans leaf) unbound
  | notBool node takes child value => exact .notBool ((hat _).trans node) takes child value
  | notNumber node takes child value => exact .notNumber ((hat _).trans node) takes child value

/-- Only three kinds of fault have explanations. -/
theorem Tree.Explains.kind {b : Bindings} {flag : Bool} {t : Tree} {e : Fault}
    (h : t.Explains b flag e) :
    e = .interrupted ∨ (∃ node i, e = .nothingBound node i) ∨
      ∃ node expected got, e = .wrongType node expected got := by
  cases h with
  | interrupted => exact Or.inl rfl
  | unboundSlot | unboundVar => exact Or.inr (Or.inl ⟨_, _, rfl⟩)
  | notBool | notNumber => exact Or.inr (Or.inr ⟨_, _, _, rfl⟩)

/-! ## What a plan asks for -/

/-- Every question of the plan goes to a slot of the operator, and asks for truth values or for
    numbers as is the operator's kind. -/
inductive Plan.Fits (o : Op) : Plan → Prop
  | answer (v : Value) : Fits o (.answer v)
  | ask {slot : Nat} {want : Want} {next : want.Answer → Plan} (hs : slot < o.arity)
      (hb : want = .bool → o.symbol ∈ Op.logical) (hn : want = .number → o.symbol ∉ Op.logical)
      (rest : ∀ a, Fits o (next a)) : Fits o (.ask slot want next)

theorem Plan.Fits.askBool {o : Op} {slot : Nat} {next : Bool → Plan} (hs : slot < o.arity)
    (ho : o.symbol ∈ Op.logical) (rest : ∀ a, Fits o (next a)) : Fits o (.ask slot .bool next) :=
  .ask hs (fun _ => ho) (fun h => absurd h (by simp)) rest

theorem Plan.Fits.askNumber {o : Op} {slot : Nat} {next : Number → Plan} (hs : slot < o.arity)
    (ho : o.symbol ∉ Op.logical) (rest : ∀ x, Fits o (next x)) : Fits o (.ask slot .number next) :=
  .ask hs (fun h => absurd h (by simp)) (fun _ => ho) rest

/-- Two numbers, asked for from left to right. -/
theorem Plan.Fits.askNumbers {o : Op} {f : Number → Number → Value} (hs : 1 < o.arity)
    (ho : o.symbol ∉ Op.logical) :
    Fits o (.ask 0 .number fun x => .ask 1 .number fun y => .answer (f x y)) :=
  .askNumber (Nat.lt_trans Nat.zero_lt_one hs) ho fun _ => .askNumber hs ho fun _ => .answer _

theorem Op.fits_plan (o : Op) : o.plan.Fits o := by
  cases o with
  | connective c =>
    have ho : (connective c).symbol ∈ logical := by cases c <;> decide
    refine .askBool Nat.two_pos ho fun a => ?_
    split
    · exact .answer _
    · exact .askBool Nat.one_lt_two ho fun b => .answer _
  | not => exact .askBool Nat.one_pos (by decide) fun a => .answer _
  | xor =>
    exact .askBool Nat.two_pos (by decide) fun a => .askBool Nat.one_lt_two (by decide) fun b =>
      .answer _
  | arith a => exact .askNumbers Nat.one_lt_two (by cases a <;> decide)
  | divide p =>
    have ho : "PDIV" ∉ logical := by decide
    exact .askNumbers Nat.one_lt_two ho
  | unary u => exact .askNumber Nat.one_pos (by cases u <;> decide) fun x => .answer _
  | real f => exact .askNumber Nat.one_pos (by cases f <;> decide) fun x => .answer _
  | compare c => exact .askNumbers Nat.one_lt_two (by cases c <;> decide)
  | choose =>
    refine .askBool (by decide) (by decide) fun a => .ask ?_ (by simp) (by simp) fun v => .answer _
    split <;> decide

/-- A value is refused for its kind only. -/
theorem Want.take_eq_error {want : Want} {node : String} {v : Value} {e : Fault}
    (h : want.take node v = .error e) :
    (want = .bool ∧ ∃ x, v = .num x ∧ e = .wrongType node "bool" x.ty.name) ∨
      (want = .number ∧ ∃ a, v = .bool a ∧ e = .wrongType node "a numeric type" "bool") := by
  cases want with
  | any => cases h
  | bool =>
    cases v with
    | bool a => cases h
    | num x =>
      cases h
      exact Or.inl ⟨rfl, x, rfl, rfl⟩
  | number =>
    cases v with
    | bool a =>
      cases h
      exact Or.inr ⟨rfl, a, rfl, rfl⟩
    | num x => cases h

/-! ## Every fault is explained -/

/-- **A fault of a run is explained by the node**, if the plan fits it and the faults of its subtrees
    are explained by them. The subtrees have to leave the flag clear: a plan that goes on after one
    is otherwise interrupted with nothing in the tree to show for it. -/
theorem Plan.Runs.explains {b : Bindings} {o : Op} {slots : Slots o.arity} {plan : Plan}
    {flag : Bool} {r : Run Value} (h : plan.Runs b o slots flag r) (hp : plan.Fits o)
    (below : ∀ i u, slots.get? i = some u → (u.eval b false).flag = false ∧
      ∀ e, (u.eval b false).outcome = .error e → u.Explains b false e) :
    ∀ e, r.outcome = .error e → (Tree.node o slots).Explains b flag e := by
  induction h with
  | answer v flag =>
    intro e he
    cases he
  | interrupted slot want next =>
    intro e he
    cases he
    exact .interrupted rfl rfl
  | unbound want next hu =>
    intro e he
    cases he
    cases hp with
    | ask hs hb hn rest => exact .unboundSlot (Tree.at?_nil _) hs hu
  | @failed slot u e' want next hu hfail =>
    intro e he
    cases he
    exact ((below slot u hu).2 e' hfail).under hu false
  | refused want next hu hv hrefused =>
    intro e he
    cases he
    cases hp with
    | ask hs hb hn rest =>
      rcases Want.take_eq_error hrefused with ⟨hw, x, rfl, rfl⟩ | ⟨hw, a, rfl, rfl⟩
      · exact .notBool (Tree.at?_nil _) (hb hw) hu hv
      · exact .notNumber (Tree.at?_nil _) (hn hw) hu hv
  | @answered slot u v want next a r hu hv ha hr ih =>
    cases hp with
    | ask hs hb hn rest =>
      have hflag : (u.eval b false).flag = false := (below slot u hu).1
      rw [hflag] at ih
      exact ih (rest a)

/-- **Every fault of an evaluation is explained by the tree**, at any depth. -/
theorem Tree.explains_of_eval {b : Bindings} {t : Tree} (inputs : ∀ l ∈ t.leaves, l.isInput)
    {flag : Bool} {e : Fault} (he : (t.eval b flag).outcome = .error e) : t.Explains b flag e := by
  induction t using Tree.byNode generalizing flag e with
  | leaf l =>
    rw [eval_leaf, Leaf.eval_eq] at he
    obtain ⟨x, rfl, hx, rfl⟩ := Leaf.unbound_of_isInput (inputs l (by simp)) he
    exact .unboundVar (at?_nil _) hx
  | node o slots ih =>
    refine (runs_node b o slots flag).explains o.fits_plan ?_ e he
    intro i u hu
    have hinputs : ∀ l ∈ u.leaves, l.isInput := fun l hl => inputs l (mem_leaves_node hu hl)
    refine ⟨?_, fun e he => ih i u hu hinputs he⟩
    exact flag_eval_of_quiet (fun l hl => Leaf.interrupts_of_isInput (hinputs l hl)) false

/-- The value of an operation on two numbers is what the guarded operation gives for them. -/
theorem Tree.exists_guarded {b : Bindings} {a : Arith} {slots : Slots (Op.arith a).arity}
    {flag : Bool} {v : Value} (hv : ((Tree.node (.arith a) slots).eval b flag).outcome = .ok v) :
    ∃ x y, slots.Yields b 0 (.num x) ∧ slots.Yields b 1 (.num y) ∧
      a.guarded (.num x) (.num y) = .ok v := by
  obtain ⟨asked, hs, -⟩ := (runs_node b (.arith a) slots flag).settles hv
  obtain ⟨x, y, hx, hy, -, rfl⟩ := hs.of_pair
  exact ⟨x, y, hx, hy, a.guarded_num x y⟩

/-! ## Evaluation in a context -/

/-- **Every fault of an evaluation names a real cause.** If a tree over literals and variables fails to
    evaluate, well-typed or not and complete or not, then it was interrupted, at an operator in the
    root and by a flag that was set; or it names an operator of the tree and a slot of it that is
    unbound, or a variable of the tree that has no value; or it names an operator of the tree and
    the kind of value that it takes, and one of its children has a value of another kind, of the
    type that the fault names. What the operations guard against beyond that does not come up: two
    numbers have a wider type, both can be converted to it, there is a rule for the pair, and its
    result is the value of the node. -/
theorem Store.eval_fault (s : Store) (c : Context) (t : Tree)
    (inputs : ∀ l ∈ t.leaves, l.isInput) :
    (∀ e, (s.eval c t).1.outcome = .error e → t.Explains s.bindings (s.isRaised c) e ∧
      (e = .interrupted ∨ (∃ node i, e = .nothingBound node i) ∨
        ∃ node expected got, e = .wrongType node expected got)) ∧
    (∀ (a : Arith) (x y : Number), (Ty.widest [.num x.ty, .num y.ty]).isSome ∧
      a.guarded (.num x) (.num y) = .ok (.num (a.apply x y))) ∧
    (∀ (a : Arith) (slots : Slots (Op.arith a).arity) (v : Value),
      (s.eval c (.node (.arith a) slots)).1.outcome = .ok v →
      ∃ x y, slots.Yields s.bindings 0 (.num x) ∧ slots.Yields s.bindings 1 (.num y) ∧
        a.guarded (.num x) (.num y) = .ok v) ∧
    (∀ (u : Unary) (x : Number), u.guarded (.num x) = .ok (.num (u.apply x))) ∧
    (∀ x : Number, (Value.num x).toF64 = .ok x.toF64) := by
  refine ⟨?_, ?_, ?_, fun u x => rfl, fun x => rfl⟩
  · intro e he
    have h : t.Explains s.bindings (s.isRaised c) e := Tree.explains_of_eval inputs he
    exact ⟨h, h.kind⟩
  · intro a x y
    exact ⟨rfl, a.guarded_num x y⟩
  · intro a slots v hv
    exact Tree.exists_guarded hv

/-- The operator that refused a truth value is below a negation and a comparison. -/
theorem Store.eval_fault_square :
    (Op.not.call #v[(Op.compare .less).call
        #v[(Op.unary .square).call #v[.leaf (.literal (.bool true))],
          .leaf (.var ⟨"x", .num .f32, 0⟩)]]).Explains initial.bindings false
      (.wrongType "SQUARE" "a numeric type" "bool") := by
  refine ((eval_fault initial ⟨0, false⟩ _ ?_).1 _ rfl).1
  intro l hl
  replace hl : l ∈ [.literal (.bool true), .var ⟨"x", .num .f32, 0⟩] := hl
  rcases List.mem_cons.mp hl with rfl | hl
  · rfl
  · rw [List.mem_singleton.mp hl]
    rfl

end ExprTree
