import ExprTree.Proofs.Construction
import ExprTree.Proofs.Request
import ExprTree.Proofs.Zero
import ExprTree.Tree.Copy

/-!
# Protected division

A node asks a slot for a number, and either it is given one or it is refused, and then it goes no
further. `Store.Gives` and `Store.Refuses` say what that takes of the flag and of the subtree in the
slot, and there is no third way (`Store.request_number`). **A division asks for both its operands, the
dividend first, and only then looks at the divisor** (`Tree.protects_divide`): so a zero hides no
failure, and with two numbers there is a result.

The fallback is a part of the node, and a node is a value, so nobody can have the one without the
other. What is left to show is that nothing that makes new nodes from old ones forgets it: not the
fresh instance, not the copy, and not the library. Floats are compared by their bits here, so a fallback
that is no number is given, and kept, as the word that it is.
-/

set_option autoImplicit false

namespace ExprTree

/-! ## Asking for a number -/

namespace Store

variable {s : Store} {c : Context} {t u : Tree} {i : Nat} {x : Number} {e : Fault} {tr : Trail}

/-- A slot of a node gives no number: with which fault, and with what trail. -/
inductive Refuses (s : Store) (c : Context) (t : Tree) (i : Nat) : Fault → Trail → Prop
  | interrupted (raised : s.isRaised c = true) :
      Refuses s c t i .interrupted (.event (.request [i]))
  | unbound (clear : s.isRaised c = false) (hu : t.child? i = none) :
      Refuses s c t i (.nothingBound t.identifier i) (.event (.request [i]))
  | failed {u : Tree} {e : Fault} (clear : s.isRaised c = false) (hu : t.child? i = some u)
      (he : (s.eval c u).1.outcome = .error e) :
      Refuses s c t i e (.asking i (s.eval c u).1.trail)
  /-- The subtree evaluates to a truth value. -/
  | truth {u : Tree} {a : Bool} (clear : s.isRaised c = false) (hu : t.child? i = some u)
      (hv : (s.eval c u).1.outcome = .ok (.bool a)) :
      Refuses s c t i (.wrongType t.identifier "a numeric type" "bool")
        (.asking i (s.eval c u).1.trail)

/-- With the flag clear, a slot of a node holds the subtree `u`, and that evaluates to the number
    `x`. -/
structure Gives (s : Store) (c : Context) (t : Tree) (i : Nat) (u : Tree) (x : Number) : Prop where
  clear : s.isRaised c = false
  child : t.child? i = some u
  value : (s.eval c u).1.outcome = .ok (.num x)

theorem Refuses.outcome_request (h : s.Refuses c t i e tr) :
    (s.request c t i .number).1.outcome = .error e := by
  show (ExprTree.request t.identifier _ i .number (s.isRaised c)).outcome = _
  unfold ExprTree.request
  cases h with
  | interrupted raised => rw [if_pos raised]
  | unbound clear hu => simp [clear, hu]
  | failed clear hu he =>
    rw [eval_of_clear clear] at he
    simp [clear, hu, he, Except.bind]
  | truth clear hu hv =>
    rw [eval_of_clear clear] at hv
    simp [clear, hu, hv, Except.bind, Want.take, Ty.name]

theorem Gives.outcome_request (h : s.Gives c t i u x) :
    (s.request c t i .number).1.outcome = .ok x := by
  have hv := h.value
  rw [eval_of_clear h.clear] at hv
  show (ExprTree.request t.identifier _ i .number (s.isRaised c)).outcome = _
  unfold ExprTree.request
  simp [h.clear, h.child, hv, Except.bind, Want.take]

/-- **A request for a number has no other outcome.** -/
theorem request_number (s : Store) (c : Context) (t : Tree) (i : Nat) :
    (∃ u x, s.Gives c t i u x ∧ (s.request c t i .number).1.outcome = .ok x) ∨
      ∃ e tr, s.Refuses c t i e tr ∧ (s.request c t i .number).1.outcome = .error e := by
  have refused : ∀ {e tr}, s.Refuses c t i e tr →
      ∃ e tr, s.Refuses c t i e tr ∧ (s.request c t i .number).1.outcome = .error e :=
    fun h => ⟨_, _, h, h.outcome_request⟩
  cases hflag : s.isRaised c with
  | true => exact Or.inr (refused (.interrupted hflag))
  | false =>
    cases hu : t.child? i with
    | none => exact Or.inr (refused (.unbound hflag hu))
    | some u =>
      cases hv : (s.eval c u).1.outcome with
      | error e => exact Or.inr (refused (.failed hflag hu hv))
      | ok v =>
        cases v with
        | bool a => exact Or.inr (refused (.truth hflag hu hv))
        | num x =>
          have hgives : s.Gives c t i u x := ⟨hflag, hu, hv⟩
          exact Or.inl ⟨u, x, hgives, hgives.outcome_request⟩

variable {o : Op} {slots : Slots o.arity}

/-- A refusal ends the run of a plan. -/
theorem Refuses.runs (h : s.Refuses c (.node o slots) i e tr) (next : Number → Plan) :
    ∃ flag, (Plan.ask i .number next).Runs s.bindings o slots (s.isRaised c)
      ⟨.error e, flag, tr⟩ := by
  cases h with
  | interrupted raised =>
    rw [raised]
    exact ⟨_, .interrupted i .number next⟩
  | unbound clear hu =>
    rw [clear]
    exact ⟨_, .unbound .number next hu⟩
  | failed clear hu he =>
    rw [eval_of_clear clear] at he ⊢
    rw [clear]
    exact ⟨_, .failed .number next hu he⟩
  | truth clear hu hv =>
    rw [eval_of_clear clear] at hv ⊢
    rw [clear]
    exact ⟨_, .refused .number next hu hv rfl⟩

/-- With a number, the plan goes on from what the subtree has left. -/
theorem Gives.runs (h : s.Gives c (.node o slots) i u x) {next : Number → Plan} {r : Run Value}
    (hr : (next x).Runs s.bindings o slots ((s.eval c u).2.isRaised c) r) :
    (Plan.ask i .number next).Runs s.bindings o slots (s.isRaised c)
      ⟨r.outcome, r.flag, .asking i (s.eval c u).1.trail ++ r.trail⟩ := by
  have hv := h.value
  rw [isRaised_eval] at hr
  rw [eval_of_clear h.clear] at hv hr ⊢
  rw [h.clear]
  exact .answered .number next h.child hv rfl hr

end Store

/-! ## Division -/

/-- What there is to say about a division with the fallback `p`, any word of 64 bits. -/
structure Tree.Protects (t : Tree) (p : F64) : Prop where
  /-- In any state a slot gives a number or refuses, so that one of the next three applies. -/
  asked : ∀ s c i,
    (∃ u x, Store.Gives s c t i u x ∧ (s.request c t i .number).1.outcome = .ok x) ∨
      ∃ e tr, Store.Refuses s c t i e tr ∧ (s.request c t i .number).1.outcome = .error e
  /-- If there is no dividend, that is what is reported, and nothing else is evaluated. -/
  dividend : ∀ s c e tr, Store.Refuses s c t 0 e tr →
    (s.eval c t).1.outcome = .error e ∧ (s.eval c t).1.trail.toList = tr.toList
  /-- If there is a dividend, the divisor is asked for next. -/
  divisor : ∀ s c u x e tr, Store.Gives s c t 0 u x → (s.eval c u).2.Refuses c t 1 e tr →
    (s.eval c t).1.outcome = .error e ∧
    (s.eval c t).1.trail.toList = (Trail.asking 0 (s.eval c u).1.trail).toList ++ tr.toList
  /-- If there are both, the result is the quotient of 64-bit floats, or the fallback, bit for bit,
      where the divisor is a zero of its type. -/
  quotient : ∀ s c u x w y, Store.Gives s c t 0 u x → (s.eval c u).2.Gives c t 1 w y →
    (s.eval c t).1.outcome = .ok (.num (.f64 (if y.IsZero then p else x.toF64 / y.toF64))) ∧
    (s.eval c t).1.trail.toList = (Trail.asking 0 (s.eval c u).1.trail).toList ++
      (Trail.asking 1 ((s.eval c u).2.eval c w).1.trail).toList
  fresh : t.fresh.root = .inr (.divide p)
  /-- Wherever the node is in a tree, there is such a node in a copy of the tree. -/
  copied : ∀ (whole : Tree) (place : Place), whole.at? place = some t →
    (whole.copy.at? place).map Tree.root = some (.inr (.divide p))
  /-- Once it is registered, whatever is registered later, nodes made by the library are such
      nodes. -/
  registered : ∀ lib lib' : Library, lib.register t = .ok lib' → ∀ calls : List Library.Call,
    (∃ n, (lib'.performAll calls).instantiate "PDIV" = .ok n ∧ n.root = .inr (.divide p)) ∧
    ∀ children : List (Option Tree), children.length = 2 →
      ∃ n, (lib'.performAll calls).assemble "PDIV" children = .ok n ∧
        n.root = .inr (.divide p) ∧ n.children = children

theorem Library.get?_of_register {lib lib' : Library} {t : Tree} (h : lib.register t = .ok lib') :
    lib'.get? t.identifier = some t := by
  rw [get?_eq_some_iff, (templates_of_register h).1]
  exact ⟨List.mem_append_right _ (List.mem_singleton_self t), rfl⟩

/-- **A division protects against a zero divisor and against nothing else.** Two numbers have a
    quotient or are answered with the fallback, whatever their types; all that can go wrong is that a
    slot gives no number, and then the first slot is the first to complain. -/
theorem Tree.protects_divide (p : F64) (slots : Slots (Op.divide p).arity) :
    (Tree.node (.divide p) slots).Protects p where
  asked s c i := s.request_number c _ i
  dividend s c e tr h := by
    obtain ⟨flag, hruns⟩ := h.runs _
    rw [Store.eval_fst, eval_node_of_runs hruns]
    exact ⟨rfl, rfl⟩
  divisor s c u x e tr h h' := by
    obtain ⟨flag, hruns⟩ := h'.runs _
    rw [Store.eval_fst, eval_node_of_runs (h.runs hruns)]
    exact ⟨rfl, rfl⟩
  quotient s c u x w y h h' := by
    rw [Store.eval_fst, eval_node_of_runs (h.runs (h'.runs (.answer _ _))), guardedQuotient_eq]
    exact ⟨rfl, by simp⟩
  fresh := rfl
  copied whole place h := by
    rw [copy_eq, h]
    rfl
  registered lib lib' h calls := by
    have hget := Library.get?_performAll (Library.get?_of_register h) calls
    refine ⟨⟨_, Library.instantiate_eq hget, rfl⟩, ?_⟩
    intro children hlen
    exact ⟨_, Library.assemble_of_length hget hlen, root_over _ _, children_over hlen⟩

/-- A fallback that is no number, and not the word that a machine has for the quotient of two zeros. -/
example :
    let t := (Op.divide ⟨0xfff4000000000abc⟩).call
      #v[.leaf (.literal (.num (.i64 0))), .leaf (.literal (.num (.f32 ⟨0x80000000⟩)))]
    (Store.initial.eval ⟨0, false⟩ t).1.outcome.toOption =
      some (.num (.f64 ⟨0xfff4000000000abc⟩)) := by
  decide +kernel

end ExprTree
