import ExprTree.Op.Plan
import ExprTree.Proofs.Place

/-!
# Typed plans

An operator has a rule of typing, which looks at types, and a plan, which looks at values. They are
written apart, and this file is where they meet: **an operator that is typed over some types has a
plan that is typed over them** (`Op.hasType_plan`). It is the only statement about typing that is
proved operator by operator, nine rules in all; every result about whole trees goes through it.

The rules are stated as a relation first, `Op.Typed`. The computed rule `Op.resultTy` agrees with it
(`Op.resultTy_eq_some_iff`), so that a proof can take a typed operator apart by cases instead of by
matching on lists.
-/

set_option autoImplicit false

namespace ExprTree

/-! ## The rules as a relation -/

/-- The operator has a type over children of these types. -/
inductive Op.Typed : Op → List Ty → Ty → Prop
  | connective (c : Connective) : Typed (.connective c) [.bool, .bool] .bool
  | not : Typed .not [.bool] .bool
  | xor : Typed .xor [.bool, .bool] .bool
  | arith (a : Arith) (m n : NumTy) : Typed (.arith a) [.num m, .num n] (.num (max m n))
  | divide (p : F64) (m n : NumTy) : Typed (.divide p) [.num m, .num n] (.num .f64)
  | unary (u : Unary) (n : NumTy) : Typed (.unary u) [.num n] (.num n)
  | real (f : RealFn) (n : NumTy) : Typed (.real f) [.num n] (.num .f64)
  | compare (c : Comparison) (m n : NumTy) : Typed (.compare c) [.num m, .num n] .bool
  /-- Both branches have the type of the choice. -/
  | choose (t : Ty) : Typed .choose [.bool, t, t] t

theorem Ty.widest_pair_eq_some {s t ty : Ty} (h : Ty.widest [s, t] = some ty) :
    ∃ m n, s = .num m ∧ t = .num n ∧ ty = .num (max m n) := by
  cases s with
  | bool => exact absurd h (by simp [widest, num?])
  | num m =>
    cases t with
    | bool => exact absurd h (by simp [widest, num?])
    | num n =>
      rw [widest_pair, Option.some.injEq] at h
      exact ⟨m, n, rfl, rfl, h.symm⟩

theorem Op.Typed.of_resultTy {o : Op} {ts : List Ty} {ty : Ty} (h : o.resultTy ts = some ty) :
    o.Typed ts ty := by
  cases o with
  | arith a =>
    simp only [resultTy] at h
    split at h
    · obtain ⟨m, n, rfl, rfl, rfl⟩ := Ty.widest_pair_eq_some h
      exact .arith a m n
    · exact absurd h (by simp)
  | choose =>
    simp only [resultTy] at h
    split at h
    · split at h
      · next hs =>
        cases h
        exact hs ▸ .choose _
      · exact absurd h (by simp)
    · exact absurd h (by simp)
  | connective | not | xor | divide | unary | real | compare =>
    simp only [resultTy] at h
    split at h
    · cases h
      constructor
    · exact absurd h (by simp)

theorem Op.Typed.resultTy_eq {o : Op} {ts : List Ty} {ty : Ty} (h : o.Typed ts ty) :
    o.resultTy ts = some ty := by
  cases h with
  | arith a m n => exact Ty.widest_pair m n
  | choose t => simp [resultTy]
  | connective | not | xor | divide | unary | real | compare => rfl

/-- **The computed rule is the relation.** -/
theorem Op.resultTy_eq_some_iff {o : Op} {ts : List Ty} {ty : Ty} :
    o.resultTy ts = some ty ↔ o.Typed ts ty :=
  ⟨.of_resultTy, fun h => h.resultTy_eq⟩

theorem Op.Typed.length_eq {o : Op} {ts : List Ty} {ty : Ty} (h : o.Typed ts ty) :
    ts.length = o.arity :=
  Op.length_of_resultTy h.resultTy_eq

/-- **A node has a type exactly if its operator is typed over some types**, each of which is that of
    the tree in its slot. -/
theorem Tree.ty?_node_iff {o : Op} {slots : Slots o.arity} {ty : Ty} :
    (Tree.node o slots).ty? = some ty ↔ ∃ ts, o.Typed ts ty ∧
      ∀ i σ, ts[i]? = some σ → ∃ u, slots.get? i = some u ∧ u.ty? = some σ := by
  rw [ty?, Option.bind_eq_some_iff]
  constructor
  · rintro ⟨ts, hts, hty⟩
    obtain ⟨hlen, hslots⟩ := (slots.tys?_eq_some_iff ts).mp hts
    refine ⟨ts, Op.resultTy_eq_some_iff.mp hty, ?_⟩
    intro i σ hσ
    have hi : i < o.arity := hlen ▸ (List.getElem?_eq_some_iff.mp hσ).1
    exact Option.bind_eq_some_iff.mp ((hslots i hi).trans hσ)
  · rintro ⟨ts, hty, hslots⟩
    refine ⟨ts, (slots.tys?_eq_some_iff ts).mpr ⟨hty.length_eq, ?_⟩, hty.resultTy_eq⟩
    intro i hi
    have hi' : i < ts.length := hty.length_eq ▸ hi
    have hσ : ts[i]? = some ts[i] := List.getElem?_eq_getElem hi'
    rw [hσ]
    exact Option.bind_eq_some_iff.mpr (hslots i _ hσ)

/-! ## What a question takes -/

/-- A question of this kind takes every value of the type. -/
def Want.Admits : Want → Ty → Prop
  | any, _ => True
  | bool, ty => ty = .bool
  | number, ty => ∃ n, ty = .num n

theorem Want.take_of_admits {want : Want} {v : Value} (h : want.Admits v.ty) (node : String) :
    ∃ a, want.take node v = .ok a ∧ want.toValue a = v := by
  cases want with
  | any => exact ⟨v, rfl, rfl⟩
  | bool =>
    cases v with
    | bool b => exact ⟨b, rfl, rfl⟩
    | num n => exact absurd h (by simp [Admits])
  | number =>
    cases v with
    | bool b => exact absurd h (by simp [Admits])
    | num n => exact ⟨n, rfl, rfl⟩

theorem Want.toValue_of_take {want : Want} {node : String} {v : Value} {a : want.Answer}
    (h : want.take node v = .ok a) : want.toValue a = v := by
  cases want with
  | any =>
    cases h
    rfl
  | bool =>
    cases v with
    | bool b =>
      cases h
      rfl
    | num n => cases h
  | number =>
    cases v with
    | bool b => cases h
    | num n =>
      cases h
      rfl

/-! ## The plans -/

/-- The plan is typed over slots of these types: every question goes to a slot and admits its type,
    and whatever the answers are, the value at the end has the type `ty`. -/
inductive Plan.HasType (ts : List Ty) (ty : Ty) : Plan → Prop
  | answer {v : Value} (h : v.ty = ty) : HasType ts ty (.answer v)
  | ask {slot : Nat} {want : Want} {next : want.Answer → Plan} {σ : Ty} (hs : ts[slot]? = some σ)
      (hw : want.Admits σ) (hn : ∀ a, (want.toValue a).ty = σ → HasType ts ty (next a)) :
      HasType ts ty (.ask slot want next)

/-- **A typed operator has a typed plan.** -/
theorem Op.hasType_plan {o : Op} {ts : List Ty} {ty : Ty} (h : o.Typed ts ty) :
    o.plan.HasType ts ty := by
  cases h with
  | connective c =>
    refine .ask rfl rfl fun a _ => ?_
    split
    · exact .answer rfl
    · exact .ask rfl rfl fun b _ => .answer rfl
  | not => exact .ask rfl rfl fun a _ => .answer rfl
  | xor => exact .ask rfl rfl fun a _ => .ask rfl rfl fun b _ => .answer rfl
  | arith o m n =>
    refine .ask rfl ⟨m, rfl⟩ fun x hx => .ask rfl ⟨n, rfl⟩ fun y hy => .answer ?_
    cases hx
    cases hy
    exact congrArg Ty.num (o.ty_apply x y)
  | divide p m n =>
    exact .ask rfl ⟨m, rfl⟩ fun x _ => .ask rfl ⟨n, rfl⟩ fun y _ => .answer rfl
  | unary u n =>
    refine .ask rfl ⟨n, rfl⟩ fun x hx => .answer ?_
    cases hx
    exact congrArg Ty.num (u.ty_apply x)
  | real f n => exact .ask rfl ⟨n, rfl⟩ fun x _ => .answer rfl
  | compare c m n =>
    exact .ask rfl ⟨m, rfl⟩ fun x _ => .ask rfl ⟨n, rfl⟩ fun y _ => .answer rfl
  | choose =>
    -- The branch is asked for any value: that it has the right type rests on its slot alone.
    refine .ask rfl rfl fun a _ => .ask ?_ trivial fun v hv => .answer hv
    cases a <;> rfl

end ExprTree
