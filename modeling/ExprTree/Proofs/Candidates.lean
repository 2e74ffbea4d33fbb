import ExprTree.Proofs.Place
import ExprTree.Proofs.Registry

/-!
# Candidates

A library is asked which of its templates fit children of given types, and answers from the templates
alone: `Library.applicable` and `Library.yielding` apply their rules of typing and build nothing. What
makes the answer right is that a rule looks neither at the children of its template nor past the types
that it is given, so **to build from a template over typed children is to apply its rule to their
types** (`Library.exists_assemble_iff`). A row of the wrong length is refused by both, by the one with
an error and by the other with no type.
-/

set_option autoImplicit false

namespace ExprTree

theorem Ty.nodup_all : all.Nodup := by decide

/-! ## Filling in children -/

theorem Slots.ofList_of_length (node : String) {n : Nat} {children : List (Option Tree)}
    (h : children.length = n) :
    ofList node n children = .ok (ofFn n fun i => children[i]?.join) :=
  if_pos h

/-- A row made of typed trees has their types. -/
theorem Slots.tys?_of_ofList {node : String} {n : Nat} {cs : List Tree} {ts : List Ty} {s : Slots n}
    (typed : cs.map Tree.ty? = ts.map some) (h : Slots.ofList node n (cs.map some) = .ok s) :
    s.tys? = some ts := by
  rw [ofList] at h
  split at h
  · next hlen =>
    cases h
    have hts : ts.length = cs.length := by
      simpa using (congrArg List.length typed).symm
    rw [tys?_eq_some_iff]
    refine ⟨by rw [hts, ← hlen, List.length_map], ?_⟩
    intro i hi
    have hi' : (cs.map Tree.ty?)[i]? = (ts.map some)[i]? := by rw [typed]
    rw [List.getElem?_map, List.getElem?_map] at hi'
    rw [get?_ofFn, if_pos hi, List.getElem?_map]
    cases hσ : ts[i]? with
    | none =>
      rw [hσ] at hi'
      rw [Option.map_eq_none_iff.mp hi']
      rfl
    | some σ =>
      rw [hσ] at hi'
      obtain ⟨c, hc, hcty⟩ := Option.map_eq_some_iff.mp hi'
      rw [hc]
      exact hcty
  · exact absurd h (by simp)

namespace Tree

@[simp] theorem arity_fresh (t : Tree) : t.fresh.arity = t.arity := by
  cases t <;> rfl

@[simp] theorem resultTy_fresh (t : Tree) (ts : List Ty) : t.fresh.resultTy ts = t.resultTy ts := by
  cases t <;> rfl

theorem length_of_resultTy {t : Tree} {ts : List Ty} {ty : Ty} (h : t.resultTy ts = some ty) :
    ts.length = t.arity := by
  cases t with
  | leaf l =>
    cases ts with
    | nil => rfl
    | cons s ts => exact absurd h (by simp [resultTy, Leaf.resultTy])
  | node o slots => exact Op.length_of_resultTy h

/-- A node over other children has the type that its rule gives for their types. -/
theorem ty?_fill (t : Tree) {slots : Slots t.arity} {ts : List Ty} (h : slots.tys? = some ts) :
    (t.fill slots).ty? = t.resultTy ts := by
  cases t with
  | leaf l =>
    obtain rfl : ts = [] := List.length_eq_zero_iff.mp (slots.length_tys? h)
    rfl
  | node o old =>
    exact congrArg (fun tys : Option (List Ty) => tys.bind o.resultTy) h

end Tree

namespace Library

variable {lib : Library} {cs : List Tree} {ts : List Ty} {id : String}

theorem assemble_eq {t : Tree} (h : lib.get? id = some t) (children : List (Option Tree)) :
    lib.assemble id children = (Slots.ofList id t.fresh.arity children).map t.fresh.fill := by
  rw [assemble, instantiate, h]
  show (Slots.ofList id t.fresh.arity children).bind (fun slots => .ok (t.fresh.fill slots)) = _
  cases Slots.ofList id t.fresh.arity children with
  | ok slots => rfl
  | error e => rfl

/-- **To build from a template over typed children is to apply its rule to their types.** -/
theorem exists_assemble_iff {t : Tree} (typed : cs.map Tree.ty? = ts.map some)
    (h : lib.get? id = some t) (ty : Ty) :
    (∃ n, lib.assemble id (cs.map some) = .ok n ∧ n.ty? = some ty) ↔ t.resultTy ts = some ty := by
  rw [assemble_eq h]
  constructor
  · rintro ⟨n, hn, hty⟩
    cases hs : Slots.ofList id t.fresh.arity (cs.map some) with
    | error e =>
      rw [hs] at hn
      exact absurd hn (by simp [Except.map])
    | ok slots =>
      rw [hs] at hn
      obtain rfl : t.fresh.fill slots = n := Except.ok.inj hn
      rwa [Tree.ty?_fill _ (Slots.tys?_of_ofList typed hs), Tree.resultTy_fresh] at hty
  · intro hty
    have hlen : (cs.map some).length = t.fresh.arity := by
      have hts := congrArg List.length typed
      rw [List.length_map, List.length_map] at hts
      rw [List.length_map, hts, Tree.arity_fresh, Tree.length_of_resultTy hty]
    have hs := Slots.ofList_of_length id hlen
    refine ⟨_, by rw [hs]; rfl, ?_⟩
    rw [Tree.ty?_fill _ (Slots.tys?_of_ofList typed hs), Tree.resultTy_fresh, hty]

theorem mem_yielding {ty : Ty} :
    id ∈ lib.yielding ts ty ↔ ∃ t, lib.get? id = some t ∧ t.resultTy ts = some ty := by
  simp only [yielding, List.mem_map, List.mem_filter, beq_iff_eq, get?_eq_some_iff]
  constructor
  · rintro ⟨t, ⟨ht, hty⟩, hid⟩
    exact ⟨t, ⟨ht, hid⟩, hty⟩
  · rintro ⟨t, ⟨ht, hid⟩, hty⟩
    exact ⟨t, ⟨ht, hty⟩, hid⟩

theorem mem_applicable : id ∈ lib.applicable ts ↔ ∃ ty, id ∈ lib.yielding ts ty := by
  simp only [mem_yielding, applicable, List.mem_map, List.mem_filter, get?_eq_some_iff,
    Option.isSome_iff_exists]
  constructor
  · rintro ⟨t, ⟨ht, ty, hty⟩, hid⟩
    exact ⟨ty, t, ⟨ht, hid⟩, hty⟩
  · rintro ⟨ty, t, ⟨ht, hid⟩, hty⟩
    exact ⟨t, ⟨ht, ty, hty⟩, hid⟩

/-- **A template is named for a type exactly if a tree of that type can be built from it.** -/
theorem mem_yielding_iff_assemble (typed : cs.map Tree.ty? = ts.map some) {ty : Ty} :
    id ∈ lib.yielding ts ty ↔
      ∃ n, lib.assemble id (cs.map some) = .ok n ∧ n.ty? = some ty := by
  rw [mem_yielding]
  constructor
  · rintro ⟨t, ht, hty⟩
    exact (exists_assemble_iff typed ht ty).mpr hty
  · rintro ⟨n, hn, hty⟩
    cases ht : lib.get? id with
    | none =>
      rw [assemble_eq_of_not_mem (get?_eq_none_iff.mp ht)] at hn
      exact absurd hn (by simp)
    | some t => exact ⟨t, rfl, (exists_assemble_iff typed ht ty).mp ⟨n, hn, hty⟩⟩

/-! ## The lists of candidates -/

/-- Templates that are picked out keep their order. -/
theorem sublist_identifiers (lib : Library) (p : Tree → Bool) :
    ((lib.templates.filter p).map Tree.identifier).Sublist lib.identifiers :=
  List.filter_sublist.map _

theorem disjoint_yielding (lib : Library) (ts : List Ty) {ty ty' : Ty} (h : ty ≠ ty') :
    (lib.yielding ts ty).Disjoint (lib.yielding ts ty') := by
  intro id hid hid'
  obtain ⟨t, ht, hty⟩ := mem_yielding.mp hid
  obtain ⟨t', ht', hty'⟩ := mem_yielding.mp hid'
  obtain rfl := Option.some.inj (ht.symm.trans ht')
  exact h (Option.some.inj (hty.symm.trans hty'))

/-- The candidates of all types, put together, are the candidates. -/
theorem perm_applicable (lib : Library) (ts : List Ty) :
    (lib.applicable ts).Perm (Ty.all.flatMap (lib.yielding ts)) := by
  have happlicable : (lib.applicable ts).Nodup :=
    (lib.sublist_identifiers _).nodup lib.distinct
  have hyielding : (Ty.all.flatMap (lib.yielding ts)).Nodup := by
    rw [List.nodup_flatMap]
    refine ⟨fun ty _ => (lib.sublist_identifiers _).nodup lib.distinct, ?_⟩
    exact Ty.nodup_all.imp fun h => lib.disjoint_yielding ts h
  rw [List.perm_ext_iff_of_nodup happlicable hyielding]
  intro id
  rw [mem_applicable, List.mem_flatMap]
  exact exists_congr fun ty => (and_iff_right ty.mem_all).symm

/-- **Candidates are exactly the templates from which a typed tree can be built.** Over any typed
    children, a template is named among those that yield a type exactly if what is built from it has
    that type, and among those that are applicable exactly if it has any. Both lists are in the order
    of registration and name nothing twice, and the second is made up of the first, for the several
    types, without overlap. -/
theorem candidates_exact (lib : Library) (cs : List Tree) (ts : List Ty)
    (typed : cs.map Tree.ty? = ts.map some) :
    (∀ id ty, id ∈ lib.yielding ts ty ↔
      ∃ n, lib.assemble id (cs.map some) = .ok n ∧ n.ty? = some ty) ∧
    (∀ id, id ∈ lib.applicable ts ↔
      ∃ n ty, lib.assemble id (cs.map some) = .ok n ∧ n.ty? = some ty) ∧
    (∀ ty, (lib.yielding ts ty).Sublist lib.identifiers ∧ (lib.yielding ts ty).Nodup) ∧
    ((lib.applicable ts).Sublist lib.identifiers ∧ (lib.applicable ts).Nodup) ∧
    (lib.applicable ts).Perm (Ty.all.flatMap (lib.yielding ts)) ∧
    (∀ ty ty', ty ≠ ty' → (lib.yielding ts ty).Disjoint (lib.yielding ts ty')) := by
  have hsub : ∀ p, ((lib.templates.filter p).map Tree.identifier).Sublist lib.identifiers ∧
      ((lib.templates.filter p).map Tree.identifier).Nodup := by
    intro p
    exact ⟨lib.sublist_identifiers p, (lib.sublist_identifiers p).nodup lib.distinct⟩
  refine ⟨?_, ?_, fun ty => hsub _, hsub _, lib.perm_applicable ts, ?_⟩
  · intro id ty
    exact mem_yielding_iff_assemble typed
  · intro id
    rw [mem_applicable, exists_comm]
    exact exists_congr fun ty => mem_yielding_iff_assemble typed
  · intro ty ty' h
    exact lib.disjoint_yielding ts h

/-- The choice is named for numbers, so it can be built over a condition and two of them. -/
theorem candidates_exact_choose :
    ∃ n, standard.assemble "IF" ([.leaf (.literal (.bool true)), .leaf (.literal (.num (.i32 1))),
        .leaf (.literal (.num (.i32 2)))].map some) = .ok n ∧ n.ty? = some (.num .i32) := by
  have h := candidates_exact standard
    [.leaf (.literal (.bool true)), .leaf (.literal (.num (.i32 1))),
      .leaf (.literal (.num (.i32 2)))]
    [.bool, .num .i32, .num .i32] rfl
  exact (h.1 "IF" (.num .i32)).mp (by decide +kernel)

end Library

end ExprTree
