import ExprTree.Proofs.Place
import ExprTree.State.Session

/-!
# Variables and the history of a session

The value of a variable, wherever a copy of it stands, is a matter of the client's history alone. This
file reads it off the history, without looking into stores: a variable in a tree is followed back
through copies and edits to the step that declared it (`History.origin`), and its value is the last
one that was assigned to anything of that origin and had the declared type (`History.value?`).

**A session tracks its history** (`Session.Tracks`): that is so after every step if it was before.
-/

set_option autoImplicit false

namespace ExprTree

/-! ## Reading a history -/

/-- The name and the type of the variable that a step declares, if it is a declaration. -/
def Step.declares : Step → Option (String × Ty)
  | declare name ty => some (name, ty)
  | declareBound name v => some (name, v.ty)
  | _ => none

/-- The node, and the place in it, from which a leaf at a place of what is made comes. -/
def Making.source : Making → Place → Option (Nat × Place)
  | literal _, _ => none
  | fresh n, [] => some (n, [])
  | fresh _, _ :: _ => none
  | copy n, p => some (n, p)
  | build _ _, [] => none
  | build _ children, i :: p => children[i]?.join.map fun n => (n, p)
  | child n slot, p => some (n, slot :: p)
  | rebind _ _ _, [] => none
  | rebind n slot new, i :: p => if i = slot then new.map fun c => (c, p) else some (n, i :: p)

def Step.source : Step → Place → Option (Nat × Place)
  | make m, p => m.source p
  | _, _ => none

theorem Step.source_of_declares {step : Step} {d : String × Ty} (h : step.declares = some d)
    (p : Place) : step.source p = none := by
  cases step with
  | make m => cases h
  | _ => rfl

namespace History

/-- What the step with a number has declared. -/
def declared : History → Nat → Option (String × Ty)
  | [], _ => none
  | step :: earlier, k => if k = earlier.length then step.declares else declared earlier k

/-- The number of the declaration that the variable at a place of a node goes back to. A step that has
    made nothing is not the source of anything. -/
def origin : History → Nat → Place → Option Nat
  | [], _, _ => none
  | step :: earlier, n, p =>
    if n = earlier.length then
      if step.declares.isSome ∧ p = [] then some n
      else ((Session.initial.after earlier).made step).bind fun _ =>
        (step.source p).bind fun d => origin earlier d.1 d.2
    else origin earlier n p

/-- The value that a step gives to the variable of declaration `k`: its first value, or a value of the
    declared type that is assigned through a copy of it. -/
def gives (earlier : History) (k : Nat) : Step → Option Value
  | .declareBound _ v => if k = earlier.length then some v else none
  | .assign n v =>
    if earlier.origin n [] = some k ∧ (earlier.declared k).map Prod.snd = some v.ty then some v
    else none
  | _ => none

/-- The last value that was given to the variable of declaration `k`. -/
def value? : History → Nat → Option Value
  | [], _ => none
  | step :: earlier, k => (gives earlier k step).or (value? earlier k)

variable {hist : History}

theorem lt_of_declared {k : Nat} (h : (hist.declared k).isSome) : k < hist.length := by
  induction hist with
  | nil => cases h
  | cons step earlier ih =>
    rw [declared] at h
    rw [List.length_cons]
    split at h
    · omega
    · exact Nat.lt_succ_of_lt (ih h)

theorem declared_of_ne {step : Step} {k : Nat} (h : k ≠ hist.length) :
    declared (step :: hist) k = hist.declared k := by
  rw [declared, if_neg h]

theorem declared_of_origin {n k : Nat} {p : Place} (h : hist.origin n p = some k) :
    (hist.declared k).isSome := by
  induction hist generalizing n p with
  | nil => cases h
  | cons step earlier ih =>
    have older : (declared earlier k).isSome → (declared (step :: earlier) k).isSome := by
      intro hk
      rwa [declared_of_ne (Nat.ne_of_lt (lt_of_declared hk))]
    rw [origin] at h
    split at h
    · rename_i hn
      split at h
      · rename_i hd
        cases h
        rw [declared, if_pos hn]
        exact hd.1
      · obtain ⟨-, -, h⟩ := Option.bind_eq_some_iff.mp h
        obtain ⟨d, -, h⟩ := Option.bind_eq_some_iff.mp h
        exact older (ih h)
    · exact older (ih h)

theorem gives_eq_none_of_lt {step : Step} {k : Nat} (h : hist.length < k) :
    gives hist k step = none := by
  cases step with
  | declareBound name v => rw [gives, if_neg (Nat.ne_of_gt h)]
  | assign n v =>
    rw [gives, if_neg]
    rintro ⟨hk, -⟩
    exact absurd (lt_of_declared (declared_of_origin hk)) (Nat.not_lt.mpr (Nat.le_of_lt h))
  | _ => rfl

theorem value?_eq_none_of_le {k : Nat} (h : hist.length ≤ k) : hist.value? k = none := by
  induction hist with
  | nil => rfl
  | cons step earlier ih =>
    rw [List.length_cons] at h
    rw [value?, gives_eq_none_of_lt (Nat.lt_of_succ_le h), ih (Nat.le_of_succ_le h)]
    rfl

end History

/-! ## Where variables come from -/

/-- The variable at a place of a tree, if there is one. -/
def Tree.varAt? (t : Tree) (p : Place) : Option Variable := (t.at? p).bind var?

theorem Tree.varAt?_eq_some_iff {t : Tree} {p : Place} {x : Variable} :
    t.varAt? p = some x ↔ t.at? p = some (.leaf (.var x)) := by
  rw [varAt?, Option.bind_eq_some_iff]
  constructor
  · rintro ⟨u, hu, hx⟩
    rw [hu, var?_eq_some_iff.mp hx]
  · intro h
    exact ⟨_, h, rfl⟩

theorem Tree.varAt?_cons (t : Tree) (i : Nat) (p : Place) :
    t.varAt? (i :: p) = (t.child? i).bind fun u => u.varAt? p := by
  rw [varAt?, at?, Option.bind_assoc]
  rfl

theorem Tree.child?_fresh (t : Tree) (i : Nat) : t.fresh.child? i = none := by
  cases t with
  | leaf l => rfl
  | node o slots => exact Slots.get?_empty o.arity i

theorem Tree.var?_fresh (t : Tree) : t.fresh.var? = t.var? := by
  cases t <;> rfl

theorem Op.exists_of_ofChildren {o : Op} {cs : List (Option Tree)} {t : Tree}
    (h : (o.ofChildren cs).toOption = some t) :
    ∃ slots, t = .node o slots ∧ ∀ i, slots.get? i = cs[i]?.join := by
  rw [ofChildren, Slots.ofList] at h
  split at h
  · rename_i hlen
    refine ⟨_, (Option.some.inj h).symm, ?_⟩
    intro i
    rw [Slots.get?_ofFn]
    split
    · rfl
    · rw [List.getElem?_eq_none (by omega)]
      rfl
  · cases h

theorem Tree.exists_of_rebind {t t' : Tree} {i : Nat} {c : Option Tree}
    (h : (t.rebind i c).toOption.map Prod.snd = some t') :
    ∃ o slots, t = .node o slots ∧ i < o.arity ∧ t' = .node o (slots.set i c) := by
  cases t with
  | leaf l => cases h
  | node o slots =>
    rw [rebind] at h
    split at h
    · rename_i hi
      exact ⟨o, slots, rfl, hi, (Option.some.inj h).symm⟩
    · cases h

theorem Making.getElem?_of_mapM {find : Nat → Option Tree} {children : List (Option Nat)}
    {cs : List (Option Tree)} (h : children.mapM (child? find) = some cs) (i : Nat) :
    cs[i]?.join = children[i]?.join.bind find := by
  induction children generalizing cs i with
  | nil =>
    obtain rfl : [] = cs := by simpa using h
    rfl
  | cons c children ih =>
    rw [List.mapM_cons] at h
    obtain ⟨t, ht, h⟩ := Option.bind_eq_some_iff.mp h
    obtain ⟨ts, hts, h⟩ := Option.bind_eq_some_iff.mp h
    obtain rfl : t :: ts = cs := Option.some.inj h
    cases i with
    | zero =>
      cases c with
      | none => cases ht; rfl
      | some n =>
        obtain ⟨u, hu, rfl⟩ := Option.map_eq_some_iff.mp ht
        exact hu.symm
    | succ i => exact ih hts i

/-- **Variables come from somewhere**: what is made has the variables, and no others, that there are
    at the sources of its places. -/
theorem Making.varAt?_node? {find : Nat → Option Tree} {m : Making} {t : Tree}
    (h : m.node? find = some t) (p : Place) :
    t.varAt? p = (m.source p).bind fun d => (find d.1).bind fun u => u.varAt? d.2 := by
  cases m with
  | literal v =>
    cases h
    cases p <;> rfl
  | fresh n =>
    obtain ⟨u, hu, rfl⟩ := Option.map_eq_some_iff.mp h
    cases p with
    | nil =>
      rw [source, Option.bind_some, hu]
      exact u.var?_fresh
    | cons i p => rw [Tree.varAt?_cons, u.child?_fresh]; rfl
  | copy n =>
    obtain ⟨u, hu, rfl⟩ := Option.map_eq_some_iff.mp h
    rw [source, Option.bind_some, hu, u.copy_eq]
    rfl
  | build o children =>
    obtain ⟨cs, hcs, h⟩ := Option.bind_eq_some_iff.mp h
    obtain ⟨slots, rfl, hslots⟩ := Op.exists_of_ofChildren h
    cases p with
    | nil => rfl
    | cons i p =>
      rw [Tree.varAt?_cons, Tree.child?, hslots, getElem?_of_mapM hcs, source]
      cases children[i]?.join <;> rfl
  | child n slot =>
    obtain ⟨u, hu, h⟩ := Option.bind_eq_some_iff.mp h
    rw [source, Option.bind_some, hu, Option.bind_some, Tree.varAt?_cons, h]
    rfl
  | rebind n slot new =>
    obtain ⟨u, hu, h⟩ := Option.bind_eq_some_iff.mp h
    obtain ⟨c, hc, h⟩ := Option.bind_eq_some_iff.mp h
    obtain ⟨o, slots, rfl, hi, rfl⟩ := Tree.exists_of_rebind h
    cases p with
    | nil => rfl
    | cons i p =>
      rw [Tree.varAt?_cons, Tree.child?, Slots.get?_set, source]
      by_cases hslot : i = slot
      · rw [if_pos ⟨hslot, hi⟩, if_pos hslot]
        cases new with
        | none => cases hc; rfl
        | some k =>
          obtain ⟨w, hw, rfl⟩ := Option.map_eq_some_iff.mp hc
          rw [Option.map_some, Option.bind_some, Option.bind_some, hw, Option.bind_some]
      · rw [if_neg fun h => hslot h.1, if_neg hslot, Option.bind_some, hu, Option.bind_some,
          Tree.varAt?_cons, Tree.child?]

/-! ## What a step does to the variables -/

namespace Session

/-- The variable at a place of a node of the session, if there is one. -/
def varAt? (s : Session) (n : Nat) (p : Place) : Option Variable :=
  (s.node? n).bind fun t => t.varAt? p

variable {s : Session}

theorem varAt?_nil (n : Nat) : s.varAt? n [] = s.var? n := rfl

theorem varAt?_eq_some_iff {n : Nat} {p : Place} {x : Variable} :
    s.varAt? n p = some x ↔ ∃ t, s.node? n = some t ∧ t.at? p = some (.leaf (.var x)) := by
  rw [varAt?, Option.bind_eq_some_iff]
  simp only [Tree.varAt?_eq_some_iff]

/-- The call of a step that assigns a value to a variable. -/
theorem call_assign {n : Nat} {x : Variable} (hx : s.var? n = some x) (v : Value) :
    s.call (.assign n v) = .assign x v := by
  rw [call, hx]
  rfl

/-- The value that a step gives to a variable, and the variable. -/
def binds (s : Session) (step : Step) : Option (Variable × Value) := s.client.binds (s.call step)

theorem binds_assign (n : Nat) (v : Value) : s.binds (.assign n v) =
    (s.var? n).bind fun x => if v.ty = x.ty then some (x, v) else none := by
  rw [binds, call]
  cases s.var? n <;> rfl

theorem binds_eval (c n : Nat) : s.binds (.eval c n) = none := by
  rw [binds, call]
  cases s.node? n <;> rfl

/-- Identities that are in use remain so. -/
theorem nextId_perform (s : Session) (step : Step) :
    s.store.nextId ≤ (s.perform step).store.nextId := s.client.nextId_effect (s.call step)

/-- **What a step does to the variables**: it gives the value that it gives, and changes no other. -/
theorem value?_perform (s : Session) (step : Step) (y : Variable) : (s.perform step).store.value? y =
    ((s.binds step).bind fun d => if y = d.1 then some d.2 else none).or (s.store.value? y) :=
  s.client.value?_effect (s.call step) y

/-- A declaration makes a variable as it says, with an identity that is not in use. -/
theorem made_of_declares {step : Step} {name : String} {ty : Ty}
    (h : step.declares = some (name, ty)) :
    s.made step = some (.leaf (.var ⟨name, ty, s.store.nextId⟩)) ∧
      (s.perform step).store.nextId = s.store.nextId + 1 := by
  cases step with
  | declare name' ty' => cases h; exact ⟨rfl, rfl⟩
  | declareBound name' v => cases h; exact ⟨rfl, rfl⟩
  | _ => cases h

theorem varAt?_perform (step : Step) (n : Nat) (p : Place) :
    (s.perform step).varAt? n p =
      if n = s.items.length then (s.made step).bind fun t => t.varAt? p
      else s.varAt? n p := by
  rw [varAt?, node?_perform]
  split <;> rfl

/-! ## Tracking a history -/

/-- The variable `x` is the one that step `k` of a history has declared. -/
structure Declared (s : Session) (hist : History) (k : Nat) (x : Variable) : Prop where
  declares : hist.declared k = some (x.name, x.ty)
  made : s.var? k = some x

/-- **The session tracks the history**: for every declaration there is a variable of its own, which
    stands where the history says and has the value that the history says. -/
structure Tracks (s : Session) (hist : History) : Prop where
  count : s.items.length = hist.length
  declared : ∀ k, (hist.declared k).isSome → ∃ x, s.Declared hist k x
  occurs : ∀ n p, s.varAt? n p = (hist.origin n p).bind s.var?
  inUse : ∀ k x, s.Declared hist k x → x.id < s.store.nextId
  apart : ∀ k k' x, s.Declared hist k x → s.Declared hist k' x → k = k'
  value : ∀ k x, s.Declared hist k x → s.store.value? x = hist.value? k
  stored : ∀ x v, s.store.value? x = some v → x.id < s.store.nextId

variable {hist : History}

/-- What stands in a tree goes back to a declaration. -/
theorem Tracks.exists_origin (h : s.Tracks hist) {n : Nat} {p : Place} {x : Variable}
    (hx : s.varAt? n p = some x) : ∃ k, hist.origin n p = some k ∧ s.Declared hist k x := by
  rw [h.occurs] at hx
  obtain ⟨k, hk, hx⟩ := Option.bind_eq_some_iff.mp hx
  obtain ⟨y, hy⟩ := h.declared k (History.declared_of_origin hk)
  obtain rfl : y = x := Option.some.inj (hy.made.symm.trans hx)
  exact ⟨k, hk, hy⟩

/-- After a step, a declared variable is the step's own, which is new, or was declared before. -/
theorem Tracks.declared_perform (h : s.Tracks hist) {step : Step} {k : Nat} {x : Variable}
    (hx : (s.perform step).Declared (step :: hist) k x) :
    (k = hist.length ∧ step.declares = some (x.name, x.ty) ∧ x.id = s.store.nextId) ∨
      s.Declared hist k x := by
  obtain ⟨hd, hm⟩ := hx
  rw [← varAt?_nil, varAt?_perform, h.count] at hm
  by_cases hk : k = hist.length
  · rw [History.declared, if_pos hk] at hd
    rw [if_pos hk, (made_of_declares hd).1] at hm
    have hid : s.store.nextId = x.id := congrArg Variable.id (Option.some.inj hm)
    exact Or.inl ⟨hk, hd, hid.symm⟩
  · rw [if_neg hk] at hm
    exact Or.inr ⟨by rwa [History.declared_of_ne hk] at hd, hm⟩

theorem Declared.ne_length {k : Nat} {x : Variable} (hx : s.Declared hist k x) : k ≠ hist.length :=
  Nat.ne_of_lt (History.lt_of_declared (by rw [hx.declares]; rfl))

theorem Declared.perform {k : Nat} {x : Variable} (hx : s.Declared hist k x)
    (hcount : s.items.length = hist.length) (step : Step) :
    (s.perform step).Declared (step :: hist) k x := by
  have hk := hx.ne_length
  refine ⟨?_, ?_⟩
  · rw [History.declared_of_ne hk, hx.declares]
  · rw [← varAt?_nil, varAt?_perform, hcount, if_neg hk]
    exact hx.made

/-- The binding that a step makes is of a variable that is then in use. -/
theorem Tracks.binds_inUse (h : s.Tracks hist) {step : Step} {d : Variable × Value}
    (hd : s.binds step = some d) : d.1.id < (s.perform step).store.nextId := by
  cases step with
  | declareBound name v =>
    cases hd
    exact Nat.lt_succ_self _
  | assign n v =>
    refine Nat.lt_of_lt_of_le ?_ (nextId_perform s _)
    cases hx : s.var? n with
    | none =>
      rw [binds_assign, hx] at hd
      cases hd
    | some x =>
      obtain ⟨k, -, hxk⟩ := h.exists_origin (p := []) hx
      rw [binds_assign, hx, Option.bind_some] at hd
      split at hd
      · cases hd
        exact h.inUse k x hxk
      · cases hd
  | eval c n => rw [binds_eval] at hd; cases hd
  | _ => cases hd

/-- The first value of a variable is the one that its declaration gives. -/
theorem binds_own {step : Step} {k : Nat} {x : Variable}
    (hd : step.declares = some (x.name, x.ty)) (hid : x.id = s.store.nextId) (hk : k = hist.length) :
    ((s.binds step).bind fun d => if x = d.1 then some d.2 else none) = hist.gives k step := by
  cases step with
  | declareBound name v =>
    obtain ⟨hname, hty⟩ := Prod.mk.inj (Option.some.inj hd)
    have hx : x = ⟨name, v.ty, s.store.nextId⟩ := by
      rw [hname, hty, ← hid]
    rw [History.gives, if_pos hk]
    exact if_pos hx
  | declare name ty => rfl
  | _ => cases hd

/-- **The binding that a step makes of a variable is the one that the history says.** -/
theorem Tracks.gives_eq (h : s.Tracks hist) {k : Nat} {x : Variable} (hx : s.Declared hist k x)
    (step : Step) :
    ((s.binds step).bind fun d => if x = d.1 then some d.2 else none) = hist.gives k step := by
  cases step with
  | declareBound name v =>
    have hne : x ≠ ⟨name, v.ty, s.store.nextId⟩ := by
      rintro rfl
      exact absurd (h.inUse k _ hx) (Nat.lt_irrefl _)
    rw [History.gives, if_neg hx.ne_length]
    exact if_neg hne
  | assign n v =>
    rw [binds_assign, History.gives, ← varAt?_nil, hx.declares]
    cases hy : s.varAt? n [] with
    | none =>
      rw [if_neg]
      · rfl
      · rintro ⟨hk, -⟩
        rw [h.occurs, hk, Option.bind_some, hx.made] at hy
        cases hy
    | some y =>
      -- The value goes to `y`, which declaration `j` has made; so it is a question of `x = y` for the
      -- store and of `j = k` for the history.
      obtain ⟨j, hj, hyj⟩ := h.exists_origin hy
      rw [hj, Option.bind_some]
      by_cases hxy : x = y
      · subst hxy
        obtain rfl := h.apart j k x hyj hx
        by_cases hty : v.ty = x.ty
        · simp [hty]
        · simp [hty, Ne.symm hty]
      · have hjk : j ≠ k := by
          rintro rfl
          exact hxy (Option.some.inj (hx.made.symm.trans hyj.made))
        by_cases hty : v.ty = y.ty
        · simp [hty, hxy, hjk]
        · simp [hty, hjk]
  | eval c n => rw [binds_eval]; rfl
  | _ => rfl

/-- What stands in the nodes that there are is not changed by a step. -/
theorem Tracks.origin_bind_perform (h : s.Tracks hist) (step : Step) (n : Nat) (p : Place) :
    (hist.origin n p).bind (s.perform step).var? = s.varAt? n p := by
  rw [h.occurs]
  cases hk : hist.origin n p with
  | none => rfl
  | some k =>
    obtain ⟨x, hx⟩ := h.declared k (History.declared_of_origin hk)
    rw [Option.bind_some, Option.bind_some, hx.made, (hx.perform h.count step).made]

/-- What stands in a node that a step makes is where the history says. -/
theorem Tracks.occurs_made (h : s.Tracks hist) (hs : s = Session.initial.after hist) (step : Step)
    (p : Place) : (s.made step).bind (fun t => t.varAt? p) =
      (History.origin (step :: hist) hist.length p).bind (s.perform step).var? := by
  rw [History.origin, if_pos rfl, ← hs]
  cases hd : step.declares with
  | some d =>
    obtain ⟨name, ty⟩ := d
    have hm := (made_of_declares (s := s) hd).1
    cases p with
    | nil =>
      rw [if_pos ⟨rfl, rfl⟩, Option.bind_some, ← varAt?_nil, varAt?_perform, h.count, if_pos rfl]
    | cons i p =>
      rw [if_neg (by simp), hm, step.source_of_declares hd]
      rfl
  | none =>
    rw [if_neg (by simp)]
    cases step with
    | make m =>
      rw [made, Step.source]
      cases hm : m.node? s.node? with
      | none => rfl
      | some t =>
        show t.varAt? p = _
        rw [Making.varAt?_node? hm p]
        cases m.source p with
        | none => rfl
        | some d => exact (h.origin_bind_perform (.make m) d.1 d.2).symm
    | probe name v e i => cases p <;> rfl
    | declare name ty => cases hd
    | declareBound name v => cases hd
    | _ => rfl

theorem Tracks.perform (h : s.Tracks hist) (hs : s = Session.initial.after hist) (step : Step) :
    (s.perform step).Tracks (step :: hist) where
  count := by
    rw [Session.perform, List.length_append, h.count]
    rfl
  declared := by
    intro k hk
    by_cases hlast : k = hist.length
    · rw [History.declared, if_pos hlast] at hk
      obtain ⟨⟨name, ty⟩, hd⟩ := Option.isSome_iff_exists.mp hk
      refine ⟨⟨name, ty, s.store.nextId⟩, ?_, ?_⟩
      · rw [History.declared, if_pos hlast, hd]
      · rw [← varAt?_nil, varAt?_perform, h.count, if_pos hlast, (made_of_declares hd).1]
        rfl
    · rw [History.declared_of_ne hlast] at hk
      obtain ⟨x, hx⟩ := h.declared k hk
      exact ⟨x, hx.perform h.count step⟩
  occurs := by
    intro n p
    rw [varAt?_perform, h.count]
    by_cases hlast : n = hist.length
    · rw [if_pos hlast, h.occurs_made hs, hlast]
    · rw [if_neg hlast, History.origin, if_neg hlast, h.origin_bind_perform]
  inUse := by
    intro k x hx
    rcases h.declared_perform hx with ⟨-, hd, hid⟩ | hx
    · rw [(made_of_declares hd).2, hid]
      exact Nat.lt_succ_self _
    · exact Nat.lt_of_lt_of_le (h.inUse k x hx) (nextId_perform s step)
  apart := by
    intro k k' x hx hx'
    rcases h.declared_perform hx with ⟨hk, -, hid⟩ | hx <;>
      rcases h.declared_perform hx' with ⟨hk', -, hid'⟩ | hx'
    · rw [hk, hk']
    · exact absurd hid (Nat.ne_of_lt (h.inUse k' x hx'))
    · exact absurd hid' (Nat.ne_of_lt (h.inUse k x hx))
    · exact h.apart k k' x hx hx'
  value := by
    intro k x hx
    rw [value?_perform, History.value?]
    rcases h.declared_perform hx with ⟨hk, hd, hid⟩ | hx
    · -- The identity of a new variable has not been in use, so nothing is stored under it.
      have hnew : s.store.value? x = none := by
        cases hv : s.store.value? x with
        | none => rfl
        | some v => exact absurd (h.stored x v hv) (by omega)
      rw [hnew, History.value?_eq_none_of_le (Nat.le_of_eq hk.symm), Option.or_none, Option.or_none]
      exact binds_own hd hid hk
    · rw [h.gives_eq hx, h.value k x hx]
  stored := by
    intro x v hv
    rw [value?_perform, Option.or_eq_some_iff] at hv
    rcases hv with hv | ⟨-, hv⟩
    · obtain ⟨d, hd, hv⟩ := Option.bind_eq_some_iff.mp hv
      split at hv
      · rename_i hx
        rw [hx]
        exact h.binds_inUse hd
      · cases hv
    · exact Nat.lt_of_lt_of_le (h.stored x v hv) (nextId_perform s step)

theorem tracks_initial : initial.Tracks [] where
  count := rfl
  declared := fun k hk => by cases hk
  occurs := fun n p => rfl
  inUse := fun k x hx => by cases hx.declares
  apart := fun k k' x hx => by cases hx.declares
  value := fun k x hx => by cases hx.declares
  stored := fun x v hv => by cases hv

/-- **Every session tracks its history.** -/
theorem tracks_after (hist : History) : (initial.after hist).Tracks hist := by
  induction hist with
  | nil => exact tracks_initial
  | cons step earlier ih => exact ih.perform rfl step

end Session

end ExprTree
