import ExprTree.Proofs.Interrupt
import ExprTree.Proofs.Visits

/-!
# Derived connectives and their decompositions

Three of the connectives can be put together from others and a negation: NAND and NOR are negations,
and an implication is a disjunction whose first operand is negated. The decomposition has one more
node than the connective, with a request, a look at the flag and a check of its own, and still **it
does what the connective does** (`Store.eval_decomposed`): it visits the same leaves in the same order,
leaves the same flag, and comes to the same value or fails at the same operand in the same way. Only
the name in the complaint is that of another operator.

Two runs are compared by `Run.Retold`, which says how places, faults and values of the one are found
in the other. The comparison goes through sequences of runs (`Run.Retold.andThen`), so what is left to
do is to compare single requests.
-/

set_option autoImplicit false

namespace ExprTree

/-! ## Runs told in other words -/

namespace Run

variable {α β γ δ : Type} {place : Place → Place} {faults : Fault → Fault → Prop}
  {values : α → β → Prop} {results : γ → δ → Prop}

/-- Both outcomes are values that belong together, or both are faults that do. -/
inductive Matches (faults : Fault → Fault → Prop) (values : α → β → Prop) :
    Except Fault α → Except Fault β → Prop
  | ok {v : α} {v' : β} (h : values v v') : Matches faults values (.ok v) (.ok v')
  | error {e e' : Fault} (h : faults e e') : Matches faults values (.error e) (.error e')

/-- The second run is the first told of other places: it visits the leaves that the first visits, at
    their places there, and leaves the same flag. -/
structure Retold (place : Place → Place) (faults : Fault → Fault → Prop) (values : α → β → Prop)
    (r : Run α) (r' : Run β) : Prop where
  outcome : Matches faults values r.outcome r'.outcome
  flag : r'.flag = r.flag
  visits : r'.trail.visits = r.trail.visits.map (Prod.map place id)

theorem Retold.leaves_eq {r : Run α} {r' : Run β} (h : Retold place faults values r r') :
    r'.trail.leaves = r.trail.leaves := by
  rw [← Trail.map_snd_visits, h.visits, List.map_map, ← Trail.map_snd_visits]
  rfl

theorem Retold.answer {v : γ} {v' : δ} (h : results v v') (flag : Bool) :
    Retold place faults results ⟨.ok v, flag, .nil⟩ ⟨.ok v', flag, .nil⟩ :=
  ⟨.ok h, rfl, rfl⟩

/-- The second run goes on to give its value another form. -/
theorem Retold.andThen_answer {r : Run α} {r' : Run β} (h : Retold place faults values r r')
    {f : β → δ} {results : α → δ → Prop} (hf : ∀ v v', values v v' → results v (f v')) :
    Retold place faults results r (r'.andThen fun v flag => ⟨.ok (f v), flag, .nil⟩) := by
  obtain ⟨outcome, flag, trail⟩ := r
  obtain ⟨outcome', flag', trail'⟩ := r'
  obtain ⟨houtcome, hflag, hvisits⟩ := h
  cases houtcome with
  | ok hv =>
    refine ⟨.ok (hf _ _ hv), hflag, ?_⟩
    rw [andThen_ok rfl, Trail.visits_append]
    exact (List.append_nil _).trans hvisits
  | error he => exact ⟨.error he, hflag, hvisits⟩

/-- **Runs are compared one after the other.** -/
theorem Retold.andThen {r : Run α} {r' : Run β} {next : α → Bool → Run γ}
    {next' : β → Bool → Run δ} (h : Retold place faults values r r')
    (hnext : ∀ v v' flag, values v v' → Retold place faults results (next v flag) (next' v' flag)) :
    Retold place faults results (r.andThen next) (r'.andThen next') := by
  obtain ⟨outcome, flag, trail⟩ := r
  obtain ⟨outcome', flag', trail'⟩ := r'
  obtain ⟨houtcome, hflag, hvisits⟩ := h
  obtain rfl : flag' = flag := hflag
  cases houtcome with
  | ok hv =>
    obtain ⟨houtcome, hflag, hvisits'⟩ := hnext _ _ flag' hv
    refine ⟨houtcome, hflag, ?_⟩
    rw [andThen_ok rfl, andThen_ok rfl, Trail.visits_append, Trail.visits_append, List.map_append]
    exact congrArg₂ _ hvisits hvisits'
  | error he => exact ⟨.error he, rfl, hvisits⟩

end Run

/-! ## Requests to operands -/

/-- The complaints of two operators about one failure of an operand. Operand `i` is asked for by
    `asks i` on the one side and by `asks' i` on the other. -/
inductive Fault.Reported (b : Bindings) (operands : Slots 2) (asks asks' : Nat → String) :
    Fault → Fault → Prop
  | interrupted : Reported b operands asks asks' .interrupted .interrupted
  /-- The fault was raised inside an operand, and it is passed on as it is. -/
  | inside {i : Nat} {u : Tree} {e : Fault} (hu : operands.get? i = some u)
      (he : (u.eval b false).outcome = .error e) : Reported b operands asks asks' e e
  | unbound {i : Nat} (hi : i < 2) (hu : operands.get? i = none) :
      Reported b operands asks asks' (.nothingBound (asks i) i) (.nothingBound (asks' i) i)
  | refused {i : Nat} {u : Tree} {x : Number} (hu : operands.get? i = some u)
      (hv : (u.eval b false).outcome = .ok (.num x)) :
      Reported b operands asks asks' (.wrongType (asks i) "bool" (Ty.num x.ty).name)
        (.wrongType (asks' i) "bool" (Ty.num x.ty).name)

section

variable {b : Bindings} {operands : Slots 2} {asks asks' : Nat → String} {place : Place → Place}

/-- Two operators that ask for the same operand. -/
theorem retold_request (b : Bindings) (operands : Slots 2) (asks asks' : Nat → String) {i : Nat}
    (hi : i < 2) (hplace : ∀ p, place (i :: p) = i :: p) (flag : Bool) :
    Run.Retold place (Fault.Reported b operands asks asks') Eq
      (request (asks i) ((operands.get? i).map (Tree.eval b)) i .bool flag)
      (request (asks' i) ((operands.get? i).map (Tree.eval b)) i .bool flag) := by
  have hvisits : ∀ t : Trail, (Trail.asking i t).visits =
      (Trail.asking i t).visits.map (Prod.map place id) := by
    intro t
    rw [Trail.visits_asking, List.map_map]
    congr 1
    funext x
    simp [underSlot, hplace]
  cases flag with
  | true => exact ⟨.error .interrupted, rfl, rfl⟩
  | false =>
    cases hu : operands.get? i with
    | none => exact ⟨.error (.unbound hi hu), rfl, rfl⟩
    | some u =>
      refine ⟨?_, rfl, hvisits _⟩
      show Run.Matches _ _ ((u.eval b false).outcome.bind _) ((u.eval b false).outcome.bind _)
      cases hv : (u.eval b false).outcome with
      | error e => exact .error (.inside hu hv)
      | ok v =>
        cases v with
        | bool x => exact .ok rfl
        | num x => exact .error (.refused hu hv)

/-- A run that is retold by the run of a tree is retold by a request for the tree's value. -/
theorem Run.Retold.requested {α : Type} {faults : Fault → Fault → Prop} {place' : Place → Place}
    {values : α → Bool → Prop} {r : Run α} {t : Tree}
    (h : Retold place faults (fun v w => ∃ y, w = .bool y ∧ values v y) r (t.eval b false))
    (hplace : ∀ x ∈ r.trail.visits, place' x.1 = 0 :: place x.1) (node : String) :
    Retold place' faults values r (ExprTree.request node (some (t.eval b)) 0 .bool false) := by
  obtain ⟨outcome, flag, trail⟩ := r
  obtain ⟨houtcome, hflag, hvisits⟩ := h
  refine ⟨?_, hflag, ?_⟩
  · show Matches _ _ outcome ((t.eval b false).outcome.bind _)
    generalize (t.eval b false).outcome = outcome' at houtcome
    cases houtcome with
    | ok hv =>
      obtain ⟨y, rfl, hy⟩ := hv
      exact .ok hy
    | error he => exact .error he
  · show (Trail.asking 0 (t.eval b false).trail).visits = _
    rw [Trail.visits_asking, hvisits, List.map_map]
    refine List.map_congr_left ?_
    intro x hx
    exact Prod.ext (hplace x hx).symm rfl

theorem exists_of_mem_visits_request {node : String} {child : Option (Bool → Run Value)} {i : Nat}
    {want : Want} {flag : Bool} {x : Place × Leaf}
    (hx : x ∈ (request node child i want flag).trail.visits) : ∃ p, x.1 = i :: p := by
  cases flag with
  | true => cases hx
  | false =>
    cases child with
    | none => cases hx
    | some run =>
      have hx' : x ∈ (Trail.asking i (run false).trail).visits := hx
      rw [Trail.visits_asking] at hx'
      obtain ⟨y, -, rfl⟩ := List.mem_map.mp hx'
      exact ⟨y.1, rfl⟩

end

/-! ## Connectives and negations -/

def Slots.single (child : Option Tree) : Slots 1 := .cons child .nil

def Slots.pair (first second : Option Tree) : Slots 2 := .cons first (.cons second .nil)

@[simp] theorem Slots.get?_pair_zero (first second : Option Tree) :
    (pair first second).get? 0 = first :=
  get?_cons_zero first _

@[simp] theorem Slots.get?_pair_one (first second : Option Tree) :
    (pair first second).get? 1 = second := by
  rw [pair, get?_cons_succ, get?_cons_zero]

def Tree.negation (child : Option Tree) : Tree := .node .not (.single child)

def Tree.connective (c : Connective) (first second : Option Tree) : Tree :=
  .node (.connective c) (.pair first second)

variable {b : Bindings} {first second : Option Tree}

theorem Tree.eval_negation (b : Bindings) (child : Option Tree) (flag : Bool) :
    (Tree.negation child).eval b flag =
      (ExprTree.request "NOT" (child.map (Tree.eval b)) 0 .bool flag).andThen fun x flag =>
        ⟨.ok (.bool !x), flag, .nil⟩ := by
  refine (eval_node b .not (.single child) flag).trans ?_
  cases child with
  | none => rfl
  | some u => rfl

/-- What a connective does with its second operand, once the first has come to `x`. -/
def Connective.proceed (c : Connective) (second : Option (Bool → Run Value)) (x flag : Bool) :
    Run Value :=
  if x = c.decider then ⟨.ok (.bool c.verdict), flag, .nil⟩
  else (request c.symbol second 1 .bool flag).andThen fun y flag =>
    ⟨.ok (.bool (c.conclude y)), flag, .nil⟩

theorem Connective.run_plan (c : Connective) (children : Nat → Option (Bool → Run Value))
    (flag : Bool) :
    (Op.connective c).plan.run c.symbol children flag =
      (request c.symbol (children 0) 0 .bool flag).andThen (c.proceed (children 1)) := by
  rw [Op.plan, Plan.run]
  congr 1
  funext x flag
  rw [proceed]
  split
  · rfl
  · rfl

theorem Tree.eval_connective (b : Bindings) (c : Connective) (first second : Option Tree)
    (flag : Bool) :
    (Tree.connective c first second).eval b flag =
      (ExprTree.request c.symbol (first.map (Tree.eval b)) 0 .bool flag).andThen
        (c.proceed (second.map (Tree.eval b))) := by
  refine ((eval_node b (.connective c) (.pair first second) flag).trans (c.run_plan _ flag)).trans ?_
  cases first with
  | none => cases second <;> rfl
  | some u => cases second <;> rfl

/-! ## The decompositions -/

/-- The values of a connective and of the one that it negates. -/
def Value.Opposite (v w : Value) : Prop := ∃ y, w = .bool y ∧ v = .bool !y

/-- `c` comes to the opposite of what `c'` comes to. -/
structure Connective.Negates (c c' : Connective) : Prop where
  decider : c.decider = c'.decider
  verdict : c.verdict = !c'.verdict
  conclude : ∀ y, c.conclude y = !c'.conclude y

theorem Connective.negates_nand : Negates .nand .and := ⟨rfl, rfl, fun _ => rfl⟩

theorem Connective.negates_nor : Negates .nor .or :=
  ⟨rfl, rfl, fun _ => rfl⟩

/-- A connective over the operands of the one that it negates. -/
theorem Connective.Negates.retold {c c' : Connective} (h : c.Negates c') (flag : Bool) :
    Run.Retold id (Fault.Reported b (.pair first second) (fun _ => c.symbol) fun _ => c'.symbol)
      Value.Opposite ((Tree.connective c first second).eval b flag)
      ((Tree.connective c' first second).eval b flag) := by
  have hrequest : ∀ i < 2, ∀ flag, Run.Retold id _ Eq _ _ := fun i hi flag =>
    retold_request b (.pair first second) (fun _ => c.symbol) (fun _ => c'.symbol) hi
      (fun _ => rfl) flag
  have hfirst := hrequest 0 (by decide)
  have hsecond := hrequest 1 (by decide)
  rw [Slots.get?_pair_zero] at hfirst
  rw [Slots.get?_pair_one] at hsecond
  rw [Tree.eval_connective, Tree.eval_connective]
  refine (hfirst flag).andThen ?_
  rintro x _ flag rfl
  rw [proceed, proceed, h.decider]
  split
  · exact .answer ⟨c'.verdict, rfl, by rw [h.verdict]⟩ flag
  · refine (hsecond flag).andThen ?_
    rintro y _ flag rfl
    exact .answer ⟨c'.conclude y, rfl, by rw [h.conclude]⟩ flag

/-- A connective and the negation of the one that it negates. -/
theorem Connective.Negates.retold_negation {c c' : Connective} (h : c.Negates c') (flag : Bool) :
    Run.Retold (0 :: ·)
      (Fault.Reported b (.pair first second) (fun _ => c.symbol) fun _ => c'.symbol) Eq
      ((Tree.connective c first second).eval b flag)
      ((Tree.negation (some (Tree.connective c' first second))).eval b flag) := by
  rw [Tree.eval_negation]
  cases flag with
  | true =>
    rw [Tree.eval_connective]
    exact ⟨.error .interrupted, rfl, rfl⟩
  | false =>
    refine Run.Retold.andThen_answer (?_ : Run.Retold _ _ (fun v y => v = Value.bool !y) _ _)
      fun _ _ hv => hv
    exact (h.retold false).requested (fun _ _ => rfl) "NOT"

/-- Where the operands of an implication are in its decomposition: the first is one step deeper. -/
def Place.belowNegation : Place → Place
  | 0 :: p => 0 :: 0 :: p
  | p => p

theorem Tree.at?_implication (first second : Option Tree) (i : Nat) (p : Place) :
    (Tree.connective .or (some (Tree.negation first)) second).at? (Place.belowNegation (i :: p)) =
      (Tree.connective .implies first second).at? (i :: p) := by
  rcases i with _ | _ | i
  · cases first <;> rfl
  · cases second <;> cases first <;> rfl
  · cases second <;> cases first <;> rfl

/-- What asks for the operands of an implication in its decomposition. -/
def disjunctionAsks : Nat → String
  | 0 => "NOT"
  | _ => "OR"

/-- The disjunction asks its negated operand, which asks what the implication asks at once. -/
theorem retold_antecedent (flag : Bool) :
    Run.Retold Place.belowNegation
      (Fault.Reported b (.pair first second) (fun _ => "IMPLIES") disjunctionAsks)
      (fun x y => y = !x) (request "IMPLIES" (first.map (Tree.eval b)) 0 .bool flag)
      (request "OR" (some ((Tree.negation first).eval b)) 0 .bool flag) := by
  cases flag with
  | true => exact ⟨.error .interrupted, rfl, rfl⟩
  | false =>
    have hrequest : Run.Retold id _ Eq _ _ := retold_request b (.pair first second)
      (fun _ => "IMPLIES") disjunctionAsks (by decide : 0 < 2) (fun _ => rfl) false
    rw [Slots.get?_pair_zero] at hrequest
    refine Run.Retold.requested (?_ : Run.Retold id _ _ _ _) ?_ "OR"
    · rw [Tree.eval_negation]
      exact hrequest.andThen_answer fun x y hxy => ⟨!y, rfl, by rw [hxy]⟩
    · intro x hx
      obtain ⟨p, hp⟩ := exists_of_mem_visits_request hx
      rw [hp]
      rfl

theorem retold_implication (flag : Bool) :
    Run.Retold Place.belowNegation
      (Fault.Reported b (.pair first second) (fun _ => "IMPLIES") disjunctionAsks) Eq
      ((Tree.connective .implies first second).eval b flag)
      ((Tree.connective .or (some (Tree.negation first)) second).eval b flag) := by
  have hsecond : ∀ flag, Run.Retold Place.belowNegation _ Eq _ _ := fun flag =>
    retold_request b (.pair first second) (fun _ => "IMPLIES") disjunctionAsks
      (by decide : 1 < 2) (fun _ => rfl) flag
  rw [Slots.get?_pair_one] at hsecond
  rw [Tree.eval_connective, Tree.eval_connective]
  refine (retold_antecedent flag).andThen ?_
  rintro x _ flag rfl
  cases x with
  | false => exact .answer rfl flag
  | true =>
    rw [Connective.proceed, Connective.proceed, if_neg (by decide), if_neg (by decide)]
    refine (hsecond flag).andThen ?_
    rintro y _ flag rfl
    exact .answer rfl flag

/-! ## Evaluation in a context -/

/-- Two trees over the same operands that do the same, in a context. What is below the root of `t` at
    a place `p` is in `t'` at `place p`. -/
structure Store.SameEval (s : Store) (c : Context) (operands : Slots 2) (asks asks' : Nat → String)
    (place : Place → Place) (t t' : Tree) : Prop where
  places : ∀ i p, t'.at? (place (i :: p)) = t.at? (i :: p)
  /-- Either both have the same value, or both fail at the same operand in the same way. -/
  outcome : Run.Matches (Fault.Reported s.bindings operands asks asks') Eq
    (s.eval c t).1.outcome (s.eval c t').1.outcome
  visits : (s.eval c t').1.trail.visits = (s.eval c t).1.trail.visits.map (Prod.map place id)
  leaves : (s.eval c t').1.trail.leaves = (s.eval c t).1.trail.leaves
  /-- All flags are the same afterwards, and so is everything else. -/
  store : (s.eval c t').2 = (s.eval c t).2

theorem Store.sameEval_of_retold {s : Store} {c : Context} {operands : Slots 2}
    {asks asks' : Nat → String} {place : Place → Place} {t t' : Tree}
    (places : ∀ i p, t'.at? (place (i :: p)) = t.at? (i :: p))
    (h : ∀ flag, Run.Retold place (Fault.Reported s.bindings operands asks asks') Eq
      (t.eval s.bindings flag) (t'.eval s.bindings flag)) :
    s.SameEval c operands asks asks' place t t' := by
  obtain ⟨houtcome, hflag, hvisits⟩ := h (s.isRaised c)
  have hleaves : (s.eval c t').1.trail.leaves = (s.eval c t).1.trail.leaves :=
    (h (s.isRaised c)).leaves_eq
  refine ⟨places, houtcome, hvisits, hleaves, ?_⟩
  show s.after c (s.eval c t').1 = s.after c (s.eval c t).1
  have hflag' : (s.eval c t').1.flag = (s.eval c t).1.flag := hflag
  rw [after, after, Trail.probes, Trail.probes, hleaves, hflag']

/-- **Derived connectives do what their decompositions do**, over any two operands, from any store:
    NAND what the negation of AND does, NOR what the negation of OR does, and IMPLIES what OR does
    with its first operand negated. -/
theorem Store.eval_decomposed (s : Store) (c : Context) (first second : Option Tree) :
    s.SameEval c (.pair first second) (fun _ => "NAND") (fun _ => "AND") (0 :: ·)
      (.connective .nand first second) (.negation (some (.connective .and first second))) ∧
    s.SameEval c (.pair first second) (fun _ => "NOR") (fun _ => "OR") (0 :: ·)
      (.connective .nor first second) (.negation (some (.connective .or first second))) ∧
    s.SameEval c (.pair first second) (fun _ => "IMPLIES") disjunctionAsks Place.belowNegation
      (.connective .implies first second)
      (.connective .or (some (.negation first)) second) := by
  refine ⟨?_, ?_, ?_⟩
  · exact sameEval_of_retold (fun _ _ => rfl) Connective.negates_nand.retold_negation
  · exact sameEval_of_retold (fun _ _ => rfl) Connective.negates_nor.retold_negation
  · exact sameEval_of_retold (Tree.at?_implication first second) retold_implication

end ExprTree
