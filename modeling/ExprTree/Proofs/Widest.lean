import ExprTree.Ty

/-!
# The widest type of a list

`Ty.widest` goes through a list and keeps the wider of what it has and what it meets. What it comes
to is a matter of the types in the list alone, not of their order or number: **it is the number type
in the list that no other is wider than**, and there is none if there is a truth value or nothing at
all (`Ty.widest_eq_some_iff`, `Ty.widest_eq_none_iff`).

So a list may be cut in two and the widest be found of each part first
(`Ty.widest_append_eq_some_iff`). That is what typing does with the leaves of a tree, node by node. And
one pass over the list finds it, which compares each type with the widest so far and stops at a truth
value (`Ty.widest_eq_scan`).
-/

set_option autoImplicit false

namespace ExprTree

/-! ## The order of widths -/

namespace NumTy

instance : LE NumTy := ⟨fun s t => s.rank ≤ t.rank⟩

theorem le_iff_rank_le {s t : NumTy} : s ≤ t ↔ s.rank ≤ t.rank := Iff.rfl

instance : Std.IsLinearOrder NumTy where
  le_refl s := Nat.le_refl s.rank
  le_trans _ _ _ := Nat.le_trans
  le_antisymm _ _ h h' := rank_injective (Nat.le_antisymm h h')
  le_total s t := Nat.le_total s.rank t.rank

instance : Std.LawfulOrderMax NumTy where
  max_le_iff s t u := by
    rw [le_iff_rank_le, rank_max, Nat.max_le]
    rfl
  max_eq_or s t := by
    cases s <;> cases t <;> simp [max, rank]

/-- Of two types of one width it does not matter which is kept. -/
theorem max_eq_ite (s t : NumTy) : max s t = if t.rank ≤ s.rank then s else t := by
  cases s <;> cases t <;> rfl

end NumTy

namespace Ty

variable {ts xs ys : List Ty} {n : NumTy}

/-! ## Lists of number types -/

theorem mapM_num?_map (ns : List NumTy) : (ns.map num).mapM num? = some ns := by
  induction ns with
  | nil => rfl
  | cons n ns ih => simp [num?, ih]

theorem exists_map_num (h : bool ∉ ts) : ∃ ns : List NumTy, ts = ns.map num := by
  induction ts with
  | nil => exact ⟨[], rfl⟩
  | cons t ts ih =>
    rw [List.mem_cons, not_or] at h
    obtain ⟨ns, rfl⟩ := ih h.2
    cases t with
    | bool => exact absurd rfl h.1
    | num n => exact ⟨n :: ns, rfl⟩

theorem widest_map_num (ns : List NumTy) : widest (ns.map num) = ns.max?.map num := by
  rw [widest, mapM_num?_map, Option.map_eq_bind]
  rfl

theorem widest_of_mem_bool (h : bool ∈ ts) : widest ts = none := by
  have hnone : ts.mapM num? = none := by
    induction ts with
    | nil => cases h
    | cons t ts ih =>
      rcases List.mem_cons.mp h with rfl | h
      · rfl
      · simp [ih h]
  rw [widest, hnone]
  rfl

/-! ## The widest type, by what is in the list -/

/-- **The widest type is the number type in the list that no other is wider than**, where there is
    no truth value. -/
theorem widest_eq_some_iff :
    widest ts = some (num n) ↔ bool ∉ ts ∧ num n ∈ ts ∧ ∀ m, num m ∈ ts → m ≤ n := by
  by_cases hb : bool ∈ ts
  · simp [widest_of_mem_bool hb, hb]
  · obtain ⟨ns, rfl⟩ := exists_map_num hb
    simp [widest_map_num, List.max?_eq_some_iff]

/-- There is no widest type of nothing, and none where there is a truth value. -/
theorem widest_eq_none_iff : widest ts = none ↔ ts = [] ∨ bool ∈ ts := by
  by_cases hb : bool ∈ ts
  · simp [widest_of_mem_bool hb, hb]
  · obtain ⟨ns, rfl⟩ := exists_map_num hb
    simp [widest_map_num]

theorem exists_of_widest_eq_some {ty : Ty} (h : widest ts = some ty) : ∃ n, ty = num n := by
  by_cases hb : bool ∈ ts
  · rw [widest_of_mem_bool hb] at h
    cases h
  · obtain ⟨ns, rfl⟩ := exists_map_num hb
    rw [widest_map_num] at h
    obtain ⟨n, -, rfl⟩ := Option.map_eq_some_iff.mp h
    exact ⟨n, rfl⟩

/-- A list without truth values has a widest type, unless it is empty. -/
theorem exists_widest (hne : ts ≠ []) (hb : bool ∉ ts) : ∃ n, widest ts = some (num n) := by
  have hsome : widest ts ≠ none := by simp [widest_eq_none_iff, hne, hb]
  obtain ⟨ty, h⟩ := Option.ne_none_iff_exists'.mp hsome
  obtain ⟨n, rfl⟩ := exists_of_widest_eq_some h
  exact ⟨n, h⟩

/-- **Lists of the same types have the same widest type**, whatever the order and the number of
    occurrences. -/
theorem widest_congr (h : ∀ t, t ∈ xs ↔ t ∈ ys) : widest xs = widest ys := by
  refine Option.ext fun ty => ?_
  constructor
  · intro hty
    obtain ⟨n, rfl⟩ := exists_of_widest_eq_some hty
    simpa [widest_eq_some_iff, h] using hty
  · intro hty
    obtain ⟨n, rfl⟩ := exists_of_widest_eq_some hty
    simpa [widest_eq_some_iff, h] using hty

theorem widest_singleton_eq_some_iff {t : Ty} : widest [t] = some (num n) ↔ t = num n := by
  cases t <;> simp [widest, num?]

/-! ## Parts of a list -/

theorem widest_append_of_some {l m : NumTy} (hx : widest xs = some (num l))
    (hy : widest ys = some (num m)) : widest (xs ++ ys) = some (num (max l m)) := by
  obtain ⟨hxb, hxl, hxmax⟩ := widest_eq_some_iff.mp hx
  obtain ⟨hyb, hym, hymax⟩ := widest_eq_some_iff.mp hy
  refine widest_eq_some_iff.mpr ⟨by simp [hxb, hyb], ?_, ?_⟩
  · rcases Std.MaxEqOr.max_eq_or l m with h | h
    · rw [h]
      exact List.mem_append_left ys hxl
    · rw [h]
      exact List.mem_append_right xs hym
  · intro k hk
    rw [NumTy.le_iff_rank_le, NumTy.rank_max]
    rcases List.mem_append.mp hk with hk | hk
    · exact Nat.le_trans (hxmax k hk) (Nat.le_max_left _ _)
    · exact Nat.le_trans (hymax k hk) (Nat.le_max_right _ _)

/-- **The widest type of two lists together is the wider of the widest types of each.** -/
theorem widest_append_eq_some_iff (hx : xs ≠ []) (hy : ys ≠ []) :
    widest (xs ++ ys) = some (num n) ↔
      ∃ l m, widest xs = some (num l) ∧ widest ys = some (num m) ∧ n = max l m := by
  constructor
  · intro h
    obtain ⟨hb, -⟩ := widest_eq_some_iff.mp h
    rw [List.mem_append, not_or] at hb
    obtain ⟨l, hl⟩ := exists_widest hx hb.1
    obtain ⟨m, hm⟩ := exists_widest hy hb.2
    rw [widest_append_of_some hl hm] at h
    exact ⟨l, m, hl, hm, (num.inj (Option.some.inj h)).symm⟩
  · rintro ⟨l, m, hl, hm, rfl⟩
    exact widest_append_of_some hl hm

/-- The widest type of two lists together is found from the widest types of each, if there are both. -/
theorem widest_append (hx : xs ≠ []) (hy : ys ≠ []) :
    widest (xs ++ ys) = (widest xs).bind fun s => (widest ys).bind fun t => widest [s, t] := by
  by_cases hxb : bool ∈ xs
  · rw [widest_of_mem_bool hxb, widest_of_mem_bool (List.mem_append_left ys hxb)]
    rfl
  · obtain ⟨l, hl⟩ := exists_widest hx hxb
    by_cases hyb : bool ∈ ys
    · rw [widest_of_mem_bool hyb, widest_of_mem_bool (List.mem_append_right xs hyb), hl]
      rfl
    · obtain ⟨m, hm⟩ := exists_widest hy hyb
      rw [widest_append_of_some hl hm, hl, hm]
      rfl

/-! ## One pass over the list -/

/-- What a pass over a list comes to that has found `best` so far: a type is taken up unless `best` is
    as wide, and a truth value ends the pass with nothing. -/
def scan (best : Option NumTy) : List Ty → Option Ty
  | [] => best.map num
  | bool :: _ => none
  | num n :: ts => scan (if best.any (n.rank ≤ ·.rank) then best else some n) ts

theorem widest_cons_cons (m n : NumTy) (ts : List Ty) :
    widest (num m :: num n :: ts) = widest (num (max m n) :: ts) := by
  by_cases hb : bool ∈ ts
  · rw [widest_of_mem_bool (by simp [hb]), widest_of_mem_bool (by simp [hb])]
  · obtain ⟨ns, rfl⟩ := exists_map_num hb
    rw [← List.map_cons, ← List.map_cons, ← List.map_cons, widest_map_num, widest_map_num]
    rfl

/-- The pass keeps the widest type of what it has gone through. -/
theorem scan_some (best : NumTy) (ts : List Ty) : scan (some best) ts = widest (num best :: ts) := by
  induction ts generalizing best with
  | nil => rfl
  | cons t ts ih =>
    cases t with
    | bool => rw [scan, widest_of_mem_bool (by simp)]
    | num n =>
      have hstep : (if (some best).any (n.rank ≤ ·.rank) then some best else some n) =
          some (max best n) := by
        rw [NumTy.max_eq_ite, apply_ite some]
        simp
      rw [scan, hstep, ih, widest_cons_cons]

/-- **One pass over the list finds the widest type.** -/
theorem widest_eq_scan (ts : List Ty) : widest ts = scan none ts := by
  cases ts with
  | nil => rfl
  | cons t ts =>
    cases t with
    | bool => rw [scan, widest_of_mem_bool (by simp)]
    | num n => exact (scan_some n ts).symm

/-- **The widest type of a list is the one of the greatest rank**, with `i32 < i64 < f32 < f64`, and
    one pass over the list finds it. There is none exactly if the list is empty or has a truth value in
    it, anywhere; and else it is in the list, none in the list is of a greater rank, and it is the only
    one of which that is so. It is a matter of which types are in the list, in any order and number. And
    of two lists together it is the widest of the pair of what there is for each. -/
theorem widest_maximal (ts : List Ty) :
    (NumTy.i32.rank < NumTy.i64.rank ∧ NumTy.i64.rank < NumTy.f32.rank ∧
      NumTy.f32.rank < NumTy.f64.rank) ∧
    widest ts = scan none ts ∧
    (widest ts = none ↔ ts = [] ∨ bool ∈ ts) ∧
    (ts ≠ [] → bool ∉ ts → ∃ n, widest ts = some (num n) ∧ num n ∈ ts ∧
      (∀ m, num m ∈ ts → m.rank ≤ n.rank) ∧
      ∀ n', num n' ∈ ts → (∀ m, num m ∈ ts → m.rank ≤ n'.rank) → n' = n) ∧
    (∀ us : List Ty, (∀ t, t ∈ us ↔ t ∈ ts) → widest us = widest ts) ∧
    (∀ us, ts ≠ [] → us ≠ [] →
      widest (ts ++ us) = (widest ts).bind fun s => (widest us).bind fun t => widest [s, t]) := by
  refine ⟨by decide, widest_eq_scan ts, widest_eq_none_iff, ?_, fun us => widest_congr,
    fun us => widest_append⟩
  intro hne hb
  obtain ⟨n, hn⟩ := exists_widest hne hb
  obtain ⟨-, hmem, hmax⟩ := widest_eq_some_iff.mp hn
  refine ⟨n, hn, hmem, hmax, ?_⟩
  intro n' hmem' hmax'
  exact NumTy.rank_injective (Nat.le_antisymm (hmax n' hmem') (hmax' n hmem))

/-- The narrower integer comes twice, and the widest type in the middle. -/
theorem widest_maximal_mixed : widest ([num .i32, num .f32] ++ [num .i64, num .i32]) =
    widest [num .f32, num .i64] := by
  obtain ⟨-, -, -, -, -, happend⟩ := widest_maximal [num .i32, num .f32]
  exact (happend [num .i64, num .i32] (by simp) (by simp)).trans rfl

end Ty

end ExprTree
