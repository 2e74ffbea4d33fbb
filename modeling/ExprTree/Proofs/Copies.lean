import ExprTree.Proofs.Place
import ExprTree.State.Session
import ExprTree.Tree.Text

/-!
# Copies cannot be told apart

A copy is built anew from the operators of a tree, and reads the variables that the tree reads. So it
looks like the tree, and it goes on doing so: whatever the client does later, an evaluation of the
copy is an evaluation of the tree.

The client has another way to look: it can use the copy where it would have used the tree. A session
finds what it uses by number, and by nothing else (`Session.perform_rename`), so a history in which
some uses of the one are replaced by uses of the other leaves the very same session.
-/

set_option autoImplicit false

namespace ExprTree

/-! ## Other numbers -/

/-- The same way to make a node, from the nodes with other numbers. -/
def Making.rename (f : Nat → Nat) : Making → Making
  | literal v => literal v
  | fresh n => fresh (f n)
  | copy n => copy (f n)
  | build o children => build o (children.map (Option.map f))
  | child n slot => child (f n) slot
  | rebind n slot new => rebind (f n) slot (new.map f)

/-- The same step, taken with the nodes that have other numbers. -/
def Step.rename (f : Nat → Nat) : Step → Step
  | make m => make (m.rename f)
  | assign n v => assign (f n) v
  | eval c n => eval c (f n)
  | step => step

theorem Making.child?_rename (find : Nat → Option Tree) (f : Nat → Nat) (child : Option Nat) :
    child? find (child.map f) = child? (fun n => find (f n)) child := by
  cases child <;> rfl

/-- **A node is made from what is found**, under whatever numbers. -/
theorem Making.node?_rename (find : Nat → Option Tree) (f : Nat → Nat) (m : Making) :
    (m.rename f).node? find = m.node? fun n => find (f n) := by
  cases m with
  | literal v => rfl
  | fresh n => rfl
  | copy n => rfl
  | build o children =>
    have hchildren : (children.map (Option.map f)).mapM (child? find) =
        children.mapM (child? fun n => find (f n)) := by
      rw [List.mapM_map]
      congr 1
      funext child
      exact child?_rename find f child
    rw [rename, node?, hchildren]
    rfl
  | child n slot => rfl
  | rebind n slot new =>
    rw [rename, node?, child?_rename]
    rfl

namespace Session

variable {s : Session} {f : Nat → Nat}

/-- **A step does the same with another number for the same node.** -/
theorem perform_rename (h : ∀ n, s.node? (f n) = s.node? n) (step : Step) :
    s.perform (step.rename f) = s.perform step := by
  have hfind : (fun n => s.node? (f n)) = s.node? := funext h
  cases step with
  | make m =>
    have hmade : (m.rename f).node? s.node? = m.node? s.node? := by
      rw [Making.node?_rename, hfind]
    rw [Step.rename, perform, perform, made, made, hmade]
    rfl
  | assign n v =>
    have hx : s.var? (f n) = s.var? n := by rw [var?, h, var?]
    rw [Step.rename, perform, perform, call, call, hx]
    rfl
  | eval c n =>
    rw [Step.rename, perform, perform, call, call, h]
    rfl
  | declare name ty => rfl
  | declareBound name v => rfl
  | probe name v e i => rfl
  | new => rfl
  | clone c => rfl
  | traced c trace => rfl
  | raise c => rfl
  | lower c => rfl

/-- Two numbers of one tree remain so, and may be used for each other from then on. -/
theorem after_rename {n n' : Nat} {t : Tree} (hn : s.node? n = some t) (hn' : s.node? n' = some t)
    (hf : ∀ k, f k = k ∨ (k = n ∨ k = n') ∧ (f k = n ∨ f k = n')) (later : History) :
    s.after (later.map (Step.rename f)) = s.after later := by
  induction later with
  | nil => rfl
  | cons step later ih =>
    rw [List.map_cons, after, after, ih]
    refine perform_rename ?_ step
    -- Whatever has been done since, both numbers are still those of `t`.
    have found : ∀ k, k = n ∨ k = n' → (s.after later).node? k = some t := by
      rintro k (rfl | rfl)
      · exact node?_after_of_some hn later
      · exact node?_after_of_some hn' later
    intro k
    rcases hf k with hk | ⟨hk, hfk⟩
    · rw [hk]
    · rw [found k hk, found _ hfk]

theorem node?_perform_copy {n : Nat} {t : Tree} (hn : s.node? n = some t) :
    (s.perform (.make (.copy n))).node? s.items.length = some t.copy := by
  rw [node?_perform, if_pos rfl, made, Making.node?, hn]
  rfl

/-- **A copy cannot be told from what it is a copy of**, now or later. When the tree `t` is copied,
    the copy has its text, length, depth and type, and the same operators, configurations and leaves
    at the same places. After any later history the two are still there, and an evaluation of the copy
    in any context is that of `t`: the same outcome, the same requests and leaves in the same order,
    and the same store after it. And it makes no difference to the session which of the two was used
    where. -/
theorem copy_indistinguishable (s : Session) (n : Nat) (t : Tree) (hn : s.node? n = some t) :
    (s.perform (.make (.copy n))).node? s.items.length = some t.copy ∧
    t.copy.text = t.text ∧ t.copy.length = t.length ∧ t.copy.depth = t.depth ∧
    t.copy.ty? = t.ty? ∧ (∀ p, (t.copy.at? p).map Tree.root = (t.at? p).map Tree.root) ∧
    (∀ (later : History) (context : Context),
      ∃ s', (s.perform (.make (.copy n))).after later = s' ∧
        s'.node? s.items.length = some t.copy ∧ s'.node? n = some t ∧
        s'.store.eval context t.copy = s'.store.eval context t) ∧
    (∀ f : Nat → Nat,
      (∀ k, f k = k ∨ (k = n ∨ k = s.items.length) ∧ (f k = n ∨ f k = s.items.length)) →
      ∀ later : History, (s.perform (.make (.copy n))).after (later.map (Step.rename f)) =
        (s.perform (.make (.copy n))).after later) := by
  have htree := node?_perform_of_some hn (.make (.copy n))
  have hcopy := node?_perform_copy hn
  refine ⟨hcopy, ?_⟩
  rw [t.copy_eq] at hcopy ⊢
  refine ⟨rfl, rfl, rfl, rfl, fun p => rfl, ?_, ?_⟩
  · intro later context
    exact ⟨_, rfl, node?_after_of_some hcopy later, node?_after_of_some htree later, rfl⟩
  · intro f hf later
    exact after_rename htree hcopy hf later

/-- A division with a fallback of its own, of a variable by itself, is copied; then the variable is
    given a value. -/
theorem copy_indistinguishable_divide :
    ∃ s' t, Session.initial.after [.assign 0 (.num (.i64 5)), .make (.copy 1),
        .make (.build (.divide (Binary.doubleOfWord 1)) [some 0, some 0]),
        .declare "n" (.num .i64)] = s' ∧
      t = (Op.divide (Binary.doubleOfWord 1)).call
        #v[.leaf (.var ⟨"n", .num .i64, 0⟩), .leaf (.var ⟨"n", .num .i64, 0⟩)] ∧
      s'.node? 2 = some t.copy ∧ s'.store.eval ⟨1, false⟩ t.copy = s'.store.eval ⟨1, false⟩ t := by
  obtain ⟨s', hs', hcopy, -, heval⟩ := (copy_indistinguishable
    (Session.initial.after [.make (.build (.divide (Binary.doubleOfWord 1)) [some 0, some 0]),
      .declare "n" (.num .i64)]) 1 _ rfl).2.2.2.2.2.2.1 [.assign 0 (.num (.i64 5))] ⟨1, false⟩
  exact ⟨s', _, hs', rfl, hcopy, heval⟩

end Session

end ExprTree
