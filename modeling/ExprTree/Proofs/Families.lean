import ExprTree.Proofs.Soundness
import ExprTree.State.Client

/-!
# Families of contexts

Whether a context is interrupted is a matter of the client's calls alone. This file reads it off them:
a context is followed back, through copies and settings of the switch, to the `new` that it descends
from (`Calls.origin`), and its flag is as the last change left it that was made through any context
of that origin (`Calls.lastChange`). A change is made from outside, or by an interrupting leaf that an
evaluation visits.

**A client tracks its calls** (`Client.Tracks`): that is so after every call if it was before. What a
client can rely on, `Client.Shares`, follows from it.
-/

set_option autoImplicit false

namespace ExprTree

namespace Client

/-- The change that a call makes to a flag: the context that it is made through, and whether the flag
    is then set. An evaluation makes one if it visits a leaf that interrupts. -/
def changed (s : Client) : Call → Option (Context × Bool)
  | .raise n => (s.context? n).map fun c => (c, true)
  | .lower n => (s.context? n).map fun c => (c, false)
  | .eval n t =>
    (s.context? n).bind fun c =>
      if (s.store.eval c t).1.trail.leaves.any Leaf.interrupts then some (c, true) else none
  | .declare _ _ | .declareBound _ _ | .probe _ _ _ _ | .new | .clone _ | .traced _ _ | .assign _ _
  | .idle => none

/-! ## Reading the calls -/

/-- The `new` that the context made by a call descends from, where `find` says so of the contexts that
    there are. The call itself has the number `n`. -/
def Call.origin (find : Nat → Option Nat) (n : Nat) : Call → Option Nat
  | new => some n
  | clone m | traced m _ => find m
  | declare _ _ | declareBound _ _ | probe _ _ _ _ | raise _ | lower _ | eval _ _ | assign _ _
  | idle => none

/-- The switch of the context made by a call, which a copy takes over. -/
def Call.trace (find : Nat → Bool) : Call → Bool
  | clone m => find m
  | traced _ b => b
  | declare _ _ | declareBound _ _ | probe _ _ _ _ | new | raise _ | lower _ | eval _ _ | assign _ _
  | idle => false

namespace Calls

/-- The number of the `new` that the context made by call `n` descends from. -/
def origin : Calls → Nat → Option Nat
  | [], _ => none
  | call :: earlier, n =>
    if n = earlier.length then call.origin (origin earlier) n else origin earlier n

/-- The switch of the context made by call `n`. -/
def trace : Calls → Nat → Bool
  | [], _ => false
  | call :: earlier, n =>
    if n = earlier.length then call.trace (trace earlier) else trace earlier n

/-- What a call makes of the flag of origin `k`, if it changes that. -/
def change (earlier : Calls) (k : Nat) (call : Call) : Option Bool :=
  if call.through.bind earlier.origin = some k then
    ((initial.after earlier).changed call).map Prod.snd
  else none

/-- What the last change made of the flag of origin `k`. -/
def lastChange : Calls → Nat → Option Bool
  | [], _ => none
  | call :: earlier, k => (change earlier k call).or (lastChange earlier k)

variable {calls : Calls}

theorem origin_last (call : Call) :
    origin (call :: calls) calls.length = call.origin calls.origin calls.length := by
  rw [origin, if_pos rfl]

theorem origin_of_ne {call : Call} {n : Nat} (h : n ≠ calls.length) :
    origin (call :: calls) n = calls.origin n := by
  rw [origin, if_neg h]

/-- Contexts descend from calls of `new`. -/
theorem getElem?_of_origin {n k : Nat} (h : calls.origin n = some k) :
    calls.reverse[k]? = some .new := by
  induction calls generalizing n with
  | nil => cases h
  | cons call earlier ih =>
    have older : ∀ {m}, origin earlier m = some k → (call :: earlier).reverse[k]? = some .new := by
      intro m hm
      obtain ⟨hlt, hk⟩ := List.getElem?_eq_some_iff.mp (ih hm)
      rw [List.reverse_cons, List.getElem?_append_left hlt, ih hm]
    rw [origin] at h
    split at h
    · rename_i hn
      cases call with
      | new =>
        cases h
        rw [List.reverse_cons, hn, ← List.length_reverse, List.getElem?_concat_length]
      | clone m => exact older h
      | traced m b => exact older h
      | _ => cases h
    · exact older h

theorem lt_of_origin {n k : Nat} (h : calls.origin n = some k) : k < calls.length := by
  obtain ⟨hlt, -⟩ := List.getElem?_eq_some_iff.mp (getElem?_of_origin h)
  rwa [List.length_reverse] at hlt

theorem lastChange_eq_none_of_le {k : Nat} (h : calls.length ≤ k) : calls.lastChange k = none := by
  induction calls with
  | nil => rfl
  | cons call earlier ih =>
    rw [List.length_cons] at h
    have hcall : change earlier k call = none := by
      rw [change, if_neg]
      intro hk
      obtain ⟨m, -, hm⟩ := Option.bind_eq_some_iff.mp hk
      exact absurd (lt_of_origin hm) (Nat.not_lt.mpr (Nat.le_of_succ_le h))
    rw [lastChange, hcall, ih (Nat.le_of_succ_le h)]
    rfl

end Calls

/-! ## What a call does -/

variable {s : Client}

/-- A change is made through a context that is there. -/
theorem exists_of_changed {call : Call} {d : Context × Bool} (h : s.changed call = some d) :
    ∃ m, call.through = some m ∧ s.context? m = some d.1 := by
  cases call with
  | raise m | lower m =>
    obtain ⟨c, hc, rfl⟩ := Option.map_eq_some_iff.mp h
    exact ⟨m, rfl, hc⟩
  | eval m t =>
    obtain ⟨c, hc, h⟩ := Option.bind_eq_some_iff.mp h
    split at h
    · cases h
      exact ⟨m, rfl, hc⟩
    · cases h
  | _ => cases h

/-- **A call changes one flag at most**, that of the family of the context that it is made through. -/
theorem isRaised_effect (call : Call) (c : Context) :
    (s.effect call).isRaised c =
      ((s.changed call).bind fun d => if c.family = d.1.family then some d.2 else none).getD
        (s.store.isRaised c) := by
  cases call with
  | raise n | lower n =>
    rw [effect, changed]
    cases s.context? n with
    | none => rfl
    | some d =>
      show (s.store.flags.set d.family _).get c.family = _
      rw [Flags.get_set, Option.map_some, Option.bind_some]
      split <;> rfl
  | eval n t =>
    rw [effect, changed]
    cases s.context? n with
    | none => rfl
    | some d =>
      show (s.store.flags.set d.family (s.store.eval d t).1.flag).get c.family = _
      rw [Flags.get_set, Store.eval_fst, Tree.flag_eval, ← Store.eval_fst, Option.bind_some]
      cases (s.store.eval d t).1.trail.leaves.any Leaf.interrupts with
      | true =>
        rw [Bool.or_true, if_pos rfl, Option.bind_some]
        split <;> rfl
      | false =>
        -- No leaf interrupts, so the flag is put back as it was found.
        rw [Bool.or_false, if_neg Bool.false_ne_true]
        split
        · rename_i hfamily
          rw [Store.isRaised, ← hfamily]
          rfl
        · rfl
  | assign x v =>
    rw [effect, Store.assign]
    cases s.store.bindings.assign x v <;> rfl
  | declare name ty | declareBound name v | probe name v e i | new | clone n | traced n b | idle => rfl

theorem changed_of_quiet {t : Tree} (h : ∀ l ∈ t.leaves, l.interrupts = false) (n : Nat) :
    s.changed (.eval n t) = none := by
  rw [changed]
  cases s.context? n with
  | none => rfl
  | some c =>
    rw [Option.bind_some, if_neg]
    rw [Bool.not_eq_true, List.any_eq_false]
    intro l hl
    rw [h l (t.leaves_eval_subset _ _ l hl)]
    exact Bool.false_ne_true

/-! ## Tracking the calls -/

/-- **The client tracks its calls**: its contexts share a flag exactly if they are of one origin, and
    the flag is as the last change through that origin left it. -/
structure Tracks (s : Client) (calls : Calls) : Prop where
  count : s.held.length = calls.length
  origin : ∀ n c, s.context? n = some c → ∃ k, calls.origin n = some k
  family : ∀ n c n' c', s.context? n = some c → s.context? n' = some c' →
    (c.family = c'.family ↔ calls.origin n = calls.origin n')
  inUse : ∀ n c, s.context? n = some c → c.family < s.store.nextId
  raised : ∀ c, s.store.isRaised c = true → c.family < s.store.nextId
  flag : ∀ n c k, s.context? n = some c → calls.origin n = some k →
    s.store.isRaised c = (calls.lastChange k).getD false
  trace : ∀ n c, s.context? n = some c → c.trace = calls.trace n

variable {calls : Calls}

/-- After a call, a context is the call's own, which is new, or it is of the family, and of the origin,
    of one that was there before. -/
theorem Tracks.context?_perform_cases (h : s.Tracks calls) {call : Call} {n : Nat} {c : Context}
    (hc : (s.perform call).context? n = some c) :
    (n = calls.length ∧ call = .new ∧ c = s.store.newContext.1) ∨
      ∃ m d, s.context? m = some d ∧ c.family = d.family ∧
        Calls.origin (call :: calls) n = calls.origin m := by
  rw [context?_perform, h.count] at hc
  by_cases hn : n = calls.length
  · rw [if_pos hn] at hc
    subst hn
    cases call with
    | new => exact Or.inl ⟨rfl, rfl, (Option.some.inj hc).symm⟩
    | clone m => exact Or.inr ⟨m, c, hc, rfl, Calls.origin_last _⟩
    | traced m b =>
      obtain ⟨d, hd, rfl⟩ := Option.map_eq_some_iff.mp hc
      exact Or.inr ⟨m, d, hd, rfl, Calls.origin_last _⟩
    | _ => cases hc
  · rw [if_neg hn] at hc
    split at hc
    · cases hc
    · exact Or.inr ⟨n, c, hc, rfl, Calls.origin_of_ne hn⟩

theorem Tracks.trace_perform (h : s.Tracks calls) {call : Call} {n : Nat} {c : Context}
    (hc : (s.perform call).context? n = some c) : c.trace = Calls.trace (call :: calls) n := by
  rw [context?_perform, h.count] at hc
  rw [Calls.trace]
  by_cases hn : n = calls.length
  · rw [if_pos hn] at hc ⊢
    cases call with
    | new => cases hc; rfl
    | clone m => exact h.trace m c hc
    | traced m b =>
      obtain ⟨d, -, rfl⟩ := Option.map_eq_some_iff.mp hc
      rfl
    | _ => cases hc
  · rw [if_neg hn] at hc ⊢
    split at hc
    · cases hc
    · exact h.trace n c hc

/-- A flag that has been set stays that of a family in use. -/
theorem Tracks.raised_perform (h : s.Tracks calls) {call : Call} {c : Context}
    (hc : (s.perform call).store.isRaised c = true) : c.family < (s.effect call).nextId := by
  refine Nat.lt_of_lt_of_le ?_ (nextId_effect call)
  replace hc : (s.effect call).isRaised c = true := hc
  rw [isRaised_effect] at hc
  cases hd : s.changed call with
  | none =>
    rw [hd] at hc
    exact h.raised c hc
  | some d =>
    rw [hd, Option.bind_some] at hc
    split at hc
    · rename_i hfamily
      obtain ⟨m, -, hm⟩ := exists_of_changed hd
      rw [hfamily]
      exact h.inUse m d.1 hm
    · exact h.raised c hc

/-- **What a call does to the flag of a context is what the calls say**, for the origin of that
    context. -/
theorem Tracks.isRaised_effect (h : s.Tracks calls) (hs : s = initial.after calls) (call : Call)
    {n k : Nat} {c : Context} (hc : s.context? n = some c) (hk : calls.origin n = some k) :
    (s.effect call).isRaised c = (calls.change k call).getD (s.store.isRaised c) := by
  rw [Client.isRaised_effect, Calls.change, ← hs]
  cases hd : s.changed call with
  | none => simp
  | some d =>
    obtain ⟨m, hm, hdm⟩ := exists_of_changed hd
    have hiff : c.family = d.1.family ↔ calls.origin m = some k := by
      rw [h.family n c m d.1 hc hdm, hk, eq_comm]
    rw [hm, Option.bind_some, Option.bind_some]
    by_cases hfamily : c.family = d.1.family
    · rw [if_pos hfamily, if_pos (hiff.mp hfamily)]
      rfl
    · rw [if_neg hfamily, if_neg fun hm => hfamily (hiff.mpr hm)]

/-- The flag of a new family is clear, since only families in use have had theirs set. -/
theorem Tracks.isRaised_new (h : s.Tracks calls) :
    s.store.isRaised s.store.newContext.1 = false := by
  cases hflag : s.store.isRaised s.store.newContext.1 with
  | false => rfl
  | true => exact absurd (h.raised _ hflag) (Nat.lt_irrefl _)

theorem Tracks.perform (h : s.Tracks calls) (hs : s = initial.after calls) (call : Call) :
    (s.perform call).Tracks (call :: calls) where
  count := by
    rw [Client.perform, List.length_append, length_left, h.count]
    rfl
  origin := by
    intro n c hc
    rcases h.context?_perform_cases hc with ⟨rfl, rfl, -⟩ | ⟨m, d, hd, -, horigin⟩
    · exact ⟨calls.length, Calls.origin_last .new⟩
    · rw [horigin]
      exact h.origin m d hd
  family := by
    -- A new context is of no family that is in use, and its number is that of no call before.
    have new_apart : ∀ {m d}, s.context? m = some d →
        s.store.nextId ≠ d.family ∧ some calls.length ≠ calls.origin m := by
      intro m d hd
      refine ⟨Nat.ne_of_gt (h.inUse m d hd), ?_⟩
      intro hm
      exact absurd (Calls.lt_of_origin hm.symm) (Nat.lt_irrefl _)
    intro n c n' c' hc hc'
    rcases h.context?_perform_cases hc with ⟨rfl, rfl, rfl⟩ | ⟨m, d, hd, hfamily, horigin⟩ <;>
      rcases h.context?_perform_cases hc' with ⟨rfl, hnew, rfl⟩ | ⟨m', d', hd', hfamily', horigin'⟩
    · exact ⟨fun _ => rfl, fun _ => rfl⟩
    · rw [hfamily', horigin', Calls.origin_last]
      exact iff_of_false (new_apart hd').1 (new_apart hd').2
    · subst hnew
      rw [hfamily, horigin, Calls.origin_last]
      exact iff_of_false (new_apart hd).1.symm (new_apart hd).2.symm
    · rw [hfamily, hfamily', horigin, horigin']
      exact h.family m d m' d' hd hd'
  inUse := by
    intro n c hc
    rcases h.context?_perform_cases hc with ⟨-, rfl, rfl⟩ | ⟨m, d, hd, hfamily, -⟩
    · exact Nat.lt_succ_self _
    · rw [hfamily]
      exact Nat.lt_of_lt_of_le (h.inUse m d hd) (nextId_effect call)
  raised := fun c hc => h.raised_perform hc
  flag := by
    intro n c k hc hk
    show (s.effect call).isRaised c = _
    rw [Calls.lastChange]
    rcases h.context?_perform_cases hc with ⟨rfl, rfl, rfl⟩ | ⟨m, d, hd, hfamily, horigin⟩
    · rw [Calls.origin_last] at hk
      obtain rfl : calls.length = k := Option.some.inj hk
      have hchange : calls.change calls.length .new = none := if_neg fun hnone => by cases hnone
      rw [Calls.lastChange_eq_none_of_le (Nat.le_refl _), hchange]
      exact h.isRaised_new
    · rw [horigin] at hk
      have hsame : (s.effect call).isRaised c = (s.effect call).isRaised d := by
        rw [Store.isRaised, hfamily]
        rfl
      rw [hsame, h.isRaised_effect hs call hd hk, h.flag m d k hd hk]
      cases calls.change k call <;> rfl
  trace := fun n c hc => h.trace_perform hc

theorem tracks_initial : initial.Tracks [] where
  count := rfl
  origin := fun n c hc => by cases hc
  family := fun n c n' c' hc => by cases hc
  inUse := fun n c hc => by cases hc
  raised := fun c hc => by cases hc
  flag := fun n c k hc => by cases hc
  trace := fun n c hc => by cases hc

/-- **Every client tracks its calls.** -/
theorem tracks_after (calls : Calls) : (initial.after calls).Tracks calls := by
  induction calls with
  | nil => exact tracks_initial
  | cons call earlier ih => exact ih.perform rfl call

/-! ## What contexts share -/

/-- What a client can rely on, of its contexts. -/
structure Shares (s : Client) (calls : Calls) : Prop where
  /-- Every context descends from a call of `new`. -/
  origin : ∀ n c, s.context? n = some c →
    ∃ k, calls.origin n = some k ∧ calls.reverse[k]? = some .new
  /-- **A context is interrupted exactly if the last change was a set**, of those that were made
      through any context of its origin. -/
  flag : ∀ n c, s.context? n = some c →
    (s.store.isRaised c = true ↔ (calls.origin n).bind calls.lastChange = some true)
  /-- A call that is not made through a context of its origin leaves a context as it is, and its flag
      too. -/
  apart : ∀ call n c, s.context? n = some c → call.through.bind calls.origin ≠ calls.origin n →
    (s.perform call).context? n = some c ∧
      (s.perform call).store.isRaised c = s.store.isRaised c
  /-- So no evaluation in the context goes otherwise for such a call, unless it gives a value to a
      variable. -/
  unaffected : ∀ call n c, s.context? n = some c → call.through.bind calls.origin ≠ calls.origin n →
    s.binds call = none →
      ∀ t, ((s.perform call).store.eval c t).1 = (s.store.eval c t).1
  /-- The switch is as it was made; a copy has taken it over. -/
  trace : ∀ n c, s.context? n = some c → c.trace = calls.trace n
  /-- Nothing but the setting of its own switch changes a context. -/
  kept : ∀ call n c, s.context? n = some c → call.givenAway ≠ some n →
    (s.perform call).context? n = some c
  /-- A new context is not interrupted, and its switch is off. -/
  made : ∃ c, (s.perform .new).context? calls.length = some c ∧ c.trace = false ∧
    (s.perform .new).store.isRaised c = false
  /-- A copy is the same context once more. -/
  cloned : ∀ n c, s.context? n = some c →
    (s.perform (.clone n)).context? calls.length = some c
  /-- The setting of a switch leaves one context in the place of another, which shares its flag. -/
  traced : ∀ n c b, s.context? n = some c →
    (s.perform (.traced n b)).context? n = none ∧
      ∃ c', (s.perform (.traced n b)).context? calls.length = some c' ∧ c'.trace = b ∧
        (s.perform (.traced n b)).store.isRaised c' = s.store.isRaised c
  /-- An evaluation changes no flag at all if no leaf of the tree interrupts. -/
  quiet : ∀ t, (∀ l ∈ t.leaves, l.interrupts = false) → ∀ n c,
    (s.perform (.eval n t)).store.isRaised c = s.store.isRaised c

theorem Tracks.isRaised_iff (h : s.Tracks calls) {n : Nat} {c : Context}
    (hc : s.context? n = some c) :
    s.store.isRaised c = true ↔ (calls.origin n).bind calls.lastChange = some true := by
  obtain ⟨k, hk⟩ := h.origin n c hc
  rw [h.flag n c k hc hk, hk, Option.bind_some]
  cases calls.lastChange k <;> simp

/-- A context of another origin is not given away, and its flag is not changed. -/
theorem Tracks.apart (h : s.Tracks calls) (hs : s = initial.after calls) {call : Call} {n : Nat}
    {c : Context} (hc : s.context? n = some c)
    (hn : call.through.bind calls.origin ≠ calls.origin n) :
    call.givenAway ≠ some n ∧ (s.perform call).store.isRaised c = s.store.isRaised c := by
  refine ⟨?_, ?_⟩
  · intro hgiven
    refine hn ?_
    cases call with
    | traced m b =>
      obtain rfl : m = n := Option.some.inj hgiven
      rfl
    | _ => cases hgiven
  · obtain ⟨k, hk⟩ := h.origin n c hc
    rw [hk] at hn
    show (s.effect call).isRaised c = _
    rw [h.isRaised_effect hs call hc hk, Calls.change, if_neg hn]
    rfl

theorem Tracks.shares (h : s.Tracks calls) (hs : s = initial.after calls) : s.Shares calls where
  origin := by
    intro n c hc
    obtain ⟨k, hk⟩ := h.origin n c hc
    exact ⟨k, hk, Calls.getElem?_of_origin hk⟩
  flag := fun n c hc => h.isRaised_iff hc
  apart := by
    intro call n c hc hn
    obtain ⟨hgiven, hflag⟩ := h.apart hs hc hn
    rw [context?_perform_of_some hc, if_neg hgiven]
    exact ⟨rfl, hflag⟩
  unaffected := by
    intro call n c hc hn hbinds t
    have hbindings : (s.perform call).store.bindings = s.store.bindings := bindings_effect hbinds
    rw [Store.eval_fst, Store.eval_fst, (h.apart hs hc hn).2, hbindings]
  trace := h.trace
  kept := by
    intro call n c hc hn
    rw [context?_perform_of_some hc, if_neg hn]
  made := by
    refine ⟨s.store.newContext.1, ?_, rfl, h.isRaised_new⟩
    rw [← h.count, context?_perform_last]
    rfl
  cloned := by
    intro n c hc
    rw [← h.count, context?_perform_last]
    exact hc
  traced := by
    intro n c b hc
    refine ⟨?_, c.traced b, ?_, rfl, rfl⟩
    · exact (context?_perform_of_some hc _).trans (if_pos rfl)
    · rw [← h.count, context?_perform_last, Client.made, hc]
      rfl
  quiet := by
    intro t ht n c
    show (s.effect (.eval n t)).isRaised c = _
    rw [Client.isRaised_effect, changed_of_quiet ht]
    rfl

/-- **Flags are shared by the contexts of one origin, and by no others**, whatever a client does. -/
theorem shares_after (calls : Calls) : (initial.after calls).Shares calls :=
  (tracks_after calls).shares rfl

/-- What is done through a copy reaches the first context, and none of another family. -/
example :
    let s := initial.after [.raise 1, .new, .clone 0, .new]
    (s.context? 0).map s.store.isRaised = some true ∧
      (s.context? 2).map s.store.isRaised = some false :=
  ⟨rfl, rfl⟩

end Client

end ExprTree
