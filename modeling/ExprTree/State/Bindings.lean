import ExprTree.Leaf

/-!
# Variable bindings

The values that variables have been given. A variable is only ever bound to a value of its declared
type, and `Bindings` carries that with it: `assign` refuses any other value, and there is no other
way to bind. A later binding of a variable replaces the earlier one and leaves all others alone.
-/

set_option autoImplicit false

namespace ExprTree

structure Bindings where
  entries : List (Variable × Value) := []
  typed : ∀ e ∈ entries, e.2.ty = e.1.ty := by simp

namespace Bindings

variable (b : Bindings)

def get? (x : Variable) : Option Value := (b.entries.find? (·.1 == x)).map (·.2)

theorem mem_of_get? {b : Bindings} {x : Variable} {v : Value} (h : b.get? x = some v) :
    (x, v) ∈ b.entries := by
  obtain ⟨⟨y, w⟩, he, rfl⟩ := Option.map_eq_some_iff.1 h
  have hy : y = x := by simpa using List.find?_some he
  exact hy ▸ List.mem_of_find?_eq_some he

/-- A bound variable has a value of its declared type. -/
theorem ty_of_get? {b : Bindings} {x : Variable} {v : Value} (h : b.get? x = some v) :
    v.ty = x.ty :=
  b.typed _ (mem_of_get? h)

def bind (x : Variable) (v : Value) (h : v.ty = x.ty) : Bindings where
  entries := (x, v) :: b.entries.filter (·.1 != x)
  typed := by
    intro e he
    rcases List.mem_cons.1 he with rfl | he
    · exact h
    · exact b.typed e ((List.mem_filter.1 he).1)

theorem get?_bind (x : Variable) (v : Value) (h : v.ty = x.ty) (y : Variable) :
    (b.bind x v h).get? y = if y = x then some v else b.get? y := by
  by_cases e : y = x
  · subst e
    simp [get?, bind]
  · have others : (b.entries.filter (·.1 != x)).find? (·.1 == y) = b.entries.find? (·.1 == y) := by
      rw [List.find?_filter]
      congr 1
      funext d
      by_cases hd : d.1 = y
      · simp [hd, e]
      · simp [hd]
    simp [get?, bind, e, Ne.symm e, others]

/-- The bindings with `x` bound to `v`, if `v` has the declared type of `x`. -/
def assign (x : Variable) (v : Value) : Except Fault Bindings :=
  if h : v.ty = x.ty then .ok (b.bind x v h)
  else .error (.wrongType x.name x.ty.name v.ty.name)

end Bindings

end ExprTree
