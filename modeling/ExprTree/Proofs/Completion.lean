import ExprTree.Proofs.Independence
import ExprTree.Proofs.PlanAnswers
import ExprTree.Proofs.Soundness

/-!
# A run checks what it requested

A node looks at the values of its children when it is evaluated, inference looks at their types
beforehand, and inference looks at all of them. The two agree on what the run requested. If the run
succeeded, then inference has no objection either that some literals in the other slots would not
remove (`Tree.exists_completion`). If a node refused a value, then nothing in the other slots can make
the tree typed (`Tree.no_completion`), because a typed tree is never refused a value and a run does
not notice what it does not request.

Where no operator is lazy there are no other slots, and the run says outright whether the tree is
typed.
-/

set_option autoImplicit false

namespace ExprTree

/-! ## Literals for the slots that were not requested -/

def Ty.sample : Ty → Value
  | bool => .bool false
  | num .i32 => .num (.i32 0)
  | num .i64 => .num (.i64 0)
  | num .f32 => .num (.f32 (Binary.singleOfInt 0))
  | num .f64 => .num (.f64 (Binary.doubleOfInt 0))

theorem Ty.ty_sample (t : Ty) : t.sample.ty = t := by
  cases t with
  | bool => rfl
  | num n => cases n <;> rfl

def literals (lit : Place → Value) : Place → Option Tree := fun p => some (.leaf (.literal (lit p)))

/-- A node of a typed operator can be completed if the subtrees in its kept slots can, to the types
    that the operator takes there: the other slots are given literals of such types. -/
theorem Tree.exists_completion_node {o : Op} {slots : Slots o.arity} {ts : List Ty} {ty : Ty}
    {kept : Place → Bool} (typed : o.Typed ts ty)
    (below : ∀ i, kept [i] → ∃ u lit, slots.get? i = some u ∧
      (u.refill (fun p => kept (i :: p)) (literals lit)).ty? = ts[i]?) :
    ∃ lit, ((Tree.node o slots).refill kept (literals lit)).ty? = some ty := by
  have chosen : ∀ i, ∃ lit, kept [i] → ∃ u, slots.get? i = some u ∧
      (u.refill (fun p => kept (i :: p)) (literals lit)).ty? = ts[i]? := by
    intro i
    by_cases hk : kept [i]
    · obtain ⟨u, lit, hu, hlit⟩ := below i hk
      exact ⟨lit, fun _ => ⟨u, hu, hlit⟩⟩
    · exact ⟨fun _ => Ty.bool.sample, fun h => absurd h hk⟩
  obtain ⟨lits, hlits⟩ := Classical.skolem.mp chosen
  let lit : Place → Value := fun p =>
    if kept [p.headD 0] then lits (p.headD 0) p.tail else (ts[p.headD 0]?.getD .bool).sample
  refine ⟨lit, ?_⟩
  rw [refill, ty?_node_iff]
  refine ⟨ts, typed, ?_⟩
  intro i σ hσ
  cases hk : kept [i] with
  | true =>
    obtain ⟨u, hu, huty⟩ := hlits i hk
    have hlit : (fun p => literals lit (i :: p)) = literals (lits i) := by
      funext p
      simp [literals, lit, hk]
    refine ⟨u.refill (fun p => kept (i :: p)) (literals (lits i)), ?_, huty.trans hσ⟩
    rw [slots.get?_refill_of_kept hk, hu, hlit]
    rfl
  | false =>
    have hi : i < o.arity := typed.length_eq ▸ (List.getElem?_eq_some_iff.mp hσ).1
    have hlit : lit [i] = σ.sample := by simp [lit, hk, hσ]
    refine ⟨.leaf (.literal σ.sample), ?_, ?_⟩
    · rw [slots.get?_refill_of_not_kept hi hk, literals, hlit]
    · rw [ty?, Leaf.ty, Ty.ty_sample]

/-- **What a successful run requested is typed but for the other slots**, which it takes some literals
    to fill: the tree then has the type of the value. -/
theorem Tree.exists_completion {b : Bindings} {t : Tree} {flag : Bool} {v : Value}
    (hv : (t.eval b flag).outcome = .ok v) {kept : Place → Bool}
    (hk : ∀ p, p ≠ [] → (kept p ↔ p ∈ (t.eval b flag).trail.requests)) :
    ∃ lit, (t.refill kept (literals lit)).ty? = some v.ty := by
  induction t using Tree.byNode generalizing flag v kept with
  | leaf l =>
    rw [eval_leaf, Leaf.eval_eq] at hv
    exact ⟨fun _ => v, by rw [refill, ty?, Leaf.ty_of_outcome hv]⟩
  | node o slots ih =>
    obtain ⟨asked, hs, hreq⟩ := (runs_node b o slots flag).settles hv
    obtain ⟨ts, hop, hts⟩ := Op.exists_typed hs
    refine exists_completion_node hop ?_
    intro i hki
    have hi : i ∈ asked := ((hreq i []).mp ((hk [i] (by simp)).mp hki)).1
    obtain ⟨w, ⟨u, hu, hw⟩, hσ⟩ := hts i hi
    -- Below the slot, the run requested what the run of the subtree requests.
    have hku : ∀ p, p ≠ [] → (kept (i :: p) ↔ p ∈ (u.eval b false).trail.requests) := by
      intro p hp
      rw [hk _ (by simp), hreq]
      simp [hi, hp, hu]
    obtain ⟨lit, hlit⟩ := ih i u hu hw hku
    exact ⟨u, lit, hu, hlit.trans hσ.symm⟩

/-! ## Values that were refused -/

/-- **A fault that is neither a leaf's own nor an interrupt is a typing error**, and one that no other
    children in the slots that were not requested can mend. -/
theorem Tree.no_completion {b : Bindings} {t : Tree} {flag : Bool} {e : Fault}
    (he : (t.eval b flag).outcome = .error e)
    (byNode : ∀ l ∈ (t.eval b flag).trail.leaves, l.outcome b ≠ .error e) (hi : e ≠ .interrupted)
    {kept : Place → Bool} (hk : ∀ p ∈ (t.eval b flag).trail.requests, kept p)
    (fill : Place → Option Tree) : (t.refill kept fill).ty? = none := by
  rw [Option.eq_none_iff_forall_ne_some]
  intro ty hty
  have hrun : (t.refill kept fill).eval b flag = t.eval b flag := eval_refill hk fun _ _ => rfl
  have hs : SoundRun b (t.refill kept fill) ty (t.eval b flag) := hrun ▸ eval_sound b hty flag
  rcases hs.fault e he with ⟨l, hl, hle⟩ | ⟨hint, -⟩
  · exact byNode l hl hle
  · exact hi hint

/-! ## Trees without lazy operators -/

/-- Where no operator is lazy, a run that succeeded has seen the whole tree. -/
theorem Tree.ty?_of_strict {b : Bindings} {t : Tree} {flag : Bool} {v : Value}
    (strict : ∀ o ∈ t.ops, o.isLazy = false) (hv : (t.eval b flag).outcome = .ok v) :
    t.ty? = some v.ty := by
  induction t using Tree.byNode generalizing flag v with
  | leaf l =>
    rw [eval_leaf, Leaf.eval_eq] at hv
    rw [ty?, Leaf.ty_of_outcome hv]
  | node o slots ih =>
    obtain ⟨asked, hs, -⟩ := (runs_node b o slots flag).settles hv
    obtain ⟨ts, hty, hts⟩ := Op.exists_typed hs
    obtain rfl : asked = List.range o.arity :=
      Op.asked_of_strict (strict o (root_mem_ops o slots)) hs
    refine ty?_node_iff.mpr ⟨ts, hty, ?_⟩
    intro i σ hσ
    have hi : i < o.arity := hty.length_eq ▸ (List.getElem?_eq_some_iff.mp hσ).1
    obtain ⟨w, ⟨u, hu, hw⟩, hwty⟩ := hts i (List.mem_range.mpr hi)
    have huty : u.ty? = some w.ty := ih i u hu (fun o' ho => strict o' (mem_ops_node hu ho)) hw
    exact ⟨u, hu, by rw [huty, ← hwty, hσ]⟩

/-! ## Evaluation in a context -/

/-- **The checks of a run are those of inference on what it requested.**

    If the evaluation of a tree succeeds, then literals in the slots that it did not request make the
    tree typed, with the type of the value. If it fails because a node refused a value, and not a leaf
    with a fault of that kind, then nothing that is put into those slots makes the tree typed. And if
    no operator of the tree is lazy, the flag is clear and every leaf has a value and does not
    interrupt, then the evaluation succeeds with a value of some type exactly if the tree has that
    type. -/
theorem Store.recheck_exact (s : Store) (c : Context) (t : Tree) :
    let r := (s.eval c t).1
    (∀ v, r.outcome = .ok v →
      ∃ lit, (t.refill (· ∈ r.trail.requests) (literals lit)).ty? = some v.ty) ∧
    (∀ node expected got, r.outcome = .error (.wrongType node expected got) →
      (∀ l ∈ r.trail.leaves, l.outcome s.bindings ≠ .error (.wrongType node expected got)) →
      ∀ fill, (t.refill (· ∈ r.trail.requests) fill).ty? = none) ∧
    ((∀ o ∈ t.ops, o.isLazy = false) → s.isRaised c = false →
      (∀ l ∈ t.leaves, l.Ready s.bindings) →
      ∀ ty, (∃ v, r.outcome = .ok v ∧ v.ty = ty) ↔ t.ty? = some ty) := by
  intro r
  refine ⟨?_, ?_, ?_⟩
  · intro v hv
    exact Tree.exists_completion hv fun p _ => decide_eq_true_iff
  · intro node expected got he byNode fill
    exact Tree.no_completion he byNode (by simp) (fun p hp => decide_eq_true hp) fill
  · intro strict hclear ready ty
    constructor
    · rintro ⟨v, hv, rfl⟩
      exact Tree.ty?_of_strict strict hv
    · intro hty
      have hrun : r = t.eval s.bindings false := eval_of_clear hclear t
      rw [hrun]
      exact Tree.eval_ready hty ready

/-- Of two untyped conjunctions, the one that succeeds is completed to a typed one by a literal in its
    second slot, and the one that fails by nothing. -/
theorem Store.recheck_exact_and :
    (∃ lit, (((Op.connective .and).call
        #v[.leaf (.literal (.bool false)), .leaf (.literal (.num (.i32 3)))]).refill
          (· ∈ [[0]]) (literals lit)).ty? = some .bool) ∧
    ∀ fill, (((Op.connective .and).call
        #v[.leaf (.literal (.num (.i32 3))), .leaf (.literal (.bool false))]).refill
          (· ∈ [[0]]) fill).ty? = none := by
  constructor
  · have h := recheck_exact initial ⟨0, false⟩ ((Op.connective .and).call
      #v[.leaf (.literal (.bool false)), .leaf (.literal (.num (.i32 3)))])
    exact h.1 (.bool false) rfl
  · have h := recheck_exact initial ⟨0, false⟩ ((Op.connective .and).call
      #v[.leaf (.literal (.num (.i32 3))), .leaf (.literal (.bool false))])
    refine h.2.1 "AND" "bool" "i32" rfl ?_
    intro l hl
    replace hl : l ∈ [.literal (.num (.i32 3))] := hl
    obtain rfl := List.mem_singleton.mp hl
    simp [Leaf.outcome]

end ExprTree
