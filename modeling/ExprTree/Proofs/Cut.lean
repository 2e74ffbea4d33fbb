/-!
# Lists that are cut

Some entries of a list *raise* an alarm, and the alarm is noticed one entry later: `upToNext` is what
is left of the list then. The laws are those of a cut. It does not depend on what comes after it
(`append_of_goesOn`), what comes before the first alarm only moves it (`upToNext_append`), and a list
that raises the alarm with its last entry leaves it to its continuation (`append_cons_of_last`).
-/

set_option autoImplicit false

namespace ExprTree

variable {α β : Type} {raises : α → Bool}

/-- The list up to its first entry that raises, with the one entry after that. -/
def upToNext (raises : α → Bool) : List α → List α
  | [] => []
  | x :: xs => if raises x then x :: xs.take 1 else x :: upToNext raises xs

/-- The list goes on after its first entry that raises. -/
def goesOn (raises : α → Bool) : List α → Bool
  | [] => false
  | x :: xs => if raises x then !xs.isEmpty else goesOn raises xs

theorem upToNext_append {xs : List α} (h : xs.any raises = false) (ys : List α) :
    upToNext raises (xs ++ ys) = xs ++ upToNext raises ys := by
  induction xs with
  | nil => rfl
  | cons x xs ih =>
    obtain ⟨hx, hxs⟩ := Bool.or_eq_false_iff.mp h
    rw [List.cons_append, upToNext, hx, if_neg Bool.false_ne_true, ih hxs, List.cons_append]

theorem goesOn_append {xs : List α} (h : xs.any raises = false) (ys : List α) :
    goesOn raises (xs ++ ys) = goesOn raises ys := by
  induction xs with
  | nil => rfl
  | cons x xs ih =>
    obtain ⟨hx, hxs⟩ := Bool.or_eq_false_iff.mp h
    rw [List.cons_append, goesOn, hx, if_neg Bool.false_ne_true, ih hxs]

/-- A list is cut at the entry after the first that raises. -/
theorem upToNext_append_cons {xs : List α} (h : xs.any raises = false) {x : α}
    (hx : raises x = true) (ys : List α) :
    upToNext raises (xs ++ x :: ys) = xs ++ x :: ys.take 1 := by
  rw [upToNext_append h, upToNext, if_pos hx]

theorem goesOn_append_cons {xs : List α} (h : xs.any raises = false) {x : α}
    (hx : raises x = true) (ys : List α) : goesOn raises (xs ++ x :: ys) = !ys.isEmpty := by
  rw [goesOn_append h, goesOn, if_pos hx]

theorem exists_first {xs : List α} (h : xs.any raises = true) :
    ∃ pre x post, xs = pre ++ x :: post ∧ pre.any raises = false ∧ raises x = true := by
  obtain ⟨y, hy, hr⟩ := List.any_eq_true.mp h
  obtain ⟨x, hfind⟩ := Option.isSome_iff_exists.mp (List.find?_isSome.mpr ⟨y, hy, hr⟩)
  obtain ⟨hx, pre, post, rfl, hpre⟩ := List.find?_eq_some_iff_append.mp hfind
  exact ⟨pre, x, post, rfl, by simpa using hpre, hx⟩

theorem goesOn_of_not_any {xs : List α} (h : xs.any raises = false) : goesOn raises xs = false := by
  rw [← List.append_nil xs, goesOn_append h, goesOn]

theorem any_of_goesOn {xs : List α} (h : goesOn raises xs = true) : xs.any raises = true := by
  cases hxs : xs.any raises with
  | true => rfl
  | false =>
    rw [goesOn_of_not_any hxs] at h
    exact absurd h (by simp)

/-- A list that is cut is cut where it was, whatever is put after it. -/
theorem append_of_goesOn {xs : List α} (h : goesOn raises xs = true) (ys : List α) :
    upToNext raises (xs ++ ys) = upToNext raises xs ∧ goesOn raises (xs ++ ys) = true := by
  obtain ⟨pre, x, post, rfl, hpre, hx⟩ := exists_first (any_of_goesOn h)
  rw [goesOn_append_cons hpre hx] at h
  cases post with
  | nil => exact absurd h (by simp)
  | cons y post =>
    rw [List.append_assoc, List.cons_append, upToNext_append_cons hpre hx,
      upToNext_append_cons hpre hx, goesOn_append_cons hpre hx]
    exact ⟨rfl, rfl⟩

/-- A list that raises with its last entry is cut at the first of what is put after it. -/
theorem append_cons_of_last {xs : List α} (h : xs.any raises = true)
    (hl : goesOn raises xs = false) (y : α) (ys : List α) :
    upToNext raises (xs ++ y :: ys) = xs ++ [y] ∧ goesOn raises (xs ++ y :: ys) = true := by
  obtain ⟨pre, x, post, rfl, hpre, hx⟩ := exists_first h
  rw [goesOn_append_cons hpre hx] at hl
  obtain rfl : post = [] := by simpa using hl
  rw [List.append_assoc, List.singleton_append, upToNext_append_cons hpre hx,
    goesOn_append_cons hpre hx, List.append_assoc]
  exact ⟨rfl, rfl⟩

theorem upToNext_of_not_goesOn {xs : List α} (h : goesOn raises xs = false) :
    upToNext raises xs = xs := by
  induction xs with
  | nil => rfl
  | cons x xs ih =>
    rw [goesOn] at h
    rw [upToNext]
    split at h
    · next hx =>
      obtain rfl : xs = [] := by simpa using h
      rw [if_pos hx, List.take_nil]
    · next hx => rw [if_neg hx, ih h]

variable {raises' : β → Bool} {f : α → β}

theorem upToNext_map (h : ∀ x, raises' (f x) = raises x) (xs : List α) :
    upToNext raises' (xs.map f) = (upToNext raises xs).map f := by
  induction xs with
  | nil => rfl
  | cons x xs ih =>
    rw [List.map_cons, upToNext, upToNext, h, ih]
    split
    · rw [List.map_cons, List.map_take]
    · rw [List.map_cons]

theorem goesOn_map (h : ∀ x, raises' (f x) = raises x) (xs : List α) :
    goesOn raises' (xs.map f) = goesOn raises xs := by
  induction xs with
  | nil => rfl
  | cons x xs ih => rw [List.map_cons, goesOn, goesOn, h, ih, List.isEmpty_map]

end ExprTree
