import ExprTree.Proofs.Registry

/-!
# Stocking a library

Stocking is not done as a whole or not at all. The standard operators go into the library one after
the other, the first that is there already ends it, and those before stay. As no two standard
operators have one identifier, none of them is in the way of another, and **the first one that the
library had before decides how far stocking gets** (`Library.stock_reaches`).

The run lemma is `exists_registerEach_append`, about a row of templates none of which is refused; the
template that is refused, if there is one, comes after such a row.
-/

set_option autoImplicit false

namespace ExprTree.Library

variable {lib : Library}

/-! ## Rows of templates -/

theorem registerEach_of_mem {t : Tree} (h : t.identifier ∈ lib.identifiers) (rest : List Tree) :
    lib.registerEach (t :: rest) = (lib, some (.duplicateName t.identifier)) := by
  rw [registerEach, register_of_mem h]

theorem exists_register {t : Tree} (h : t.identifier ∉ lib.identifiers) :
    ∃ lib', lib.register t = .ok lib' ∧ lib'.templates = lib.templates ++ [t] := by
  cases hr : lib.register t with
  | ok lib' => exact ⟨lib', rfl, (templates_of_register hr).1⟩
  | error e =>
    have hrefusal := refusal_of_register_error hr
    rw [refusal, if_neg h] at hrefusal
    exact absurd hrefusal (by simp)

/-- **A row of new templates goes into the library as it is**, if no two of them have one identifier,
    and what comes after it finds them there. -/
theorem exists_registerEach_append {row : List Tree} (distinct : (row.map Tree.identifier).Nodup)
    (new : ∀ t ∈ row, t.identifier ∉ lib.identifiers) :
    ∃ lib' : Library, lib'.templates = lib.templates ++ row ∧
      ∀ rest, lib.registerEach (row ++ rest) = lib'.registerEach rest := by
  induction row generalizing lib with
  | nil => exact ⟨lib, (List.append_nil _).symm, fun _ => rfl⟩
  | cons t row ih =>
    obtain ⟨hhead, hrow⟩ := List.nodup_cons.mp distinct
    obtain ⟨lib₁, hregister, htemplates₁⟩ := exists_register (new t List.mem_cons_self)
    have hnew : ∀ u ∈ row, u.identifier ∉ lib₁.identifiers := by
      intro u hu hmem
      rw [identifiers_append htemplates₁, List.mem_append] at hmem
      rcases hmem with hmem | hmem
      · exact new u (List.mem_cons_of_mem t hu) hmem
      · have hid : u.identifier = t.identifier := List.mem_singleton.mp hmem
        exact hhead (hid ▸ List.mem_map_of_mem hu)
    obtain ⟨lib₂, htemplates₂, hrest⟩ := ih hrow hnew
    refine ⟨lib₂, ?_, ?_⟩
    · rw [htemplates₂, htemplates₁, List.append_assoc, List.singleton_append]
    · intro rest
      rw [List.cons_append, registerEach, hregister]
      exact hrest rest

/-- A template that was there before ends the row, and no other does. -/
theorem registerEach_of_clash {row : List Tree} {t : Tree} (rest : List Tree)
    (distinct : (row.map Tree.identifier).Nodup)
    (new : ∀ u ∈ row, u.identifier ∉ lib.identifiers) (clash : t.identifier ∈ lib.identifiers) :
    (lib.registerEach (row ++ t :: rest)).1.templates = lib.templates ++ row ∧
      (lib.registerEach (row ++ t :: rest)).2 = some (.duplicateName t.identifier) := by
  obtain ⟨lib', htemplates, hrest⟩ := exists_registerEach_append distinct new
  have hclash : t.identifier ∈ lib'.identifiers := by
    rw [identifiers_append htemplates]
    exact List.mem_append_left _ clash
  rw [hrest, registerEach_of_mem hclash]
  exact ⟨htemplates, rfl⟩

/-- The first template of a row is in the library afterwards, by the row or before it. -/
theorem mem_registerEach_cons (lib : Library) (t : Tree) (rest : List Tree) :
    t.identifier ∈ (lib.registerEach (t :: rest)).1.identifiers := by
  by_cases h : t.identifier ∈ lib.identifiers
  · rw [registerEach_of_mem h]
    exact h
  · obtain ⟨lib', hregister, htemplates⟩ := exists_register h
    rw [registerEach, hregister]
    rw [identifiers_append (lib'.templates_registerEach rest), identifiers_append htemplates]
    exact List.mem_append_left _ (List.mem_append_right _ List.mem_cons_self)

/-! ## The standard operators -/

theorem identifiers_of_empties {ops : List Op} {lib' : Library}
    (h : lib'.templates = lib.templates ++ ops.map Op.empty) :
    lib'.identifiers = lib.identifiers ++ ops.map Op.symbol := by
  rw [identifiers_append h, List.map_map]
  rfl

/-- Some of the standard operators have identifiers of their own, as they all have. -/
theorem nodup_identifiers_of_sublist {ops : List Op} (h : ops.Sublist Op.standard) :
    ((ops.map Op.empty).map Tree.identifier).Nodup := by
  rw [List.map_map]
  exact Op.nodup_symbols_standard.sublist (h.map Op.symbol)

theorem not_mem_of_empties {ops : List Op} (h : ∀ o ∈ ops, o.symbol ∉ lib.identifiers) :
    ∀ t ∈ ops.map Op.empty, t.identifier ∉ lib.identifiers := by
  intro t ht
  obtain ⟨o, ho, rfl⟩ := List.mem_map.mp ht
  exact h o ho

theorem stock_of_new (h : ∀ o ∈ Op.standard, o.symbol ∉ lib.identifiers) :
    lib.stock.2 = none ∧ lib.stock.1.templates = lib.templates ++ Op.standard.map Op.empty := by
  obtain ⟨lib', htemplates, hrest⟩ := exists_registerEach_append
    (nodup_identifiers_of_sublist (List.Sublist.refl _)) (not_mem_of_empties h)
  have hstock : lib.stock = lib'.registerEach [] := by
    rw [← hrest, List.append_nil]
    rfl
  rw [hstock]
  exact ⟨rfl, htemplates⟩

theorem stock_of_clash {pre post : List Op} {o : Op} (hsplit : Op.standard = pre ++ o :: post)
    (new : ∀ o' ∈ pre, o'.symbol ∉ lib.identifiers) (clash : o.symbol ∈ lib.identifiers) :
    lib.stock.2 = some (.duplicateName o.symbol) ∧
      lib.stock.1.templates = lib.templates ++ pre.map Op.empty := by
  have hsublist : pre.Sublist Op.standard := hsplit ▸ List.sublist_append_left pre _
  obtain ⟨htemplates, hcomplaint⟩ := registerEach_of_clash (post.map Op.empty)
    (nodup_identifiers_of_sublist hsublist) (not_mem_of_empties new) (t := o.empty) clash
  have hrow : standardTemplates = pre.map Op.empty ++ o.empty :: post.map Op.empty := by
    rw [standardTemplates, hsplit, List.map_append, List.map_cons]
  rw [stock, hrow]
  exact ⟨hcomplaint, htemplates⟩

/-- Where the first of the standard operators is present, stocking does nothing. -/
theorem stock_of_mem_and (h : "AND" ∈ lib.identifiers) :
    lib.stock = (lib, some (.duplicateName "AND")) :=
  registerEach_of_mem (t := (Op.connective .and).empty) h _

/-- **How far stocking gets.** Unless one of the standard operators was in the library before, all of
    them are added. Else those in front of the first that was, and it is the one complained of. What
    was in the library stays there as it was, and what is added has empty slots. From then on,
    whatever calls are made, stocking complains of the first operator and does nothing. -/
theorem stock_reaches (lib : Library) :
    ((∀ o ∈ Op.standard, o.symbol ∉ lib.identifiers) ∧
        lib.stock.2 = none ∧
        lib.stock.1.identifiers = lib.identifiers ++ Op.standard.map Op.symbol ∧
        lib.stock.1.templates = lib.templates ++ Op.standard.map Op.empty ∨
      ∃ k o, Op.standard[k]? = some o ∧ o.symbol ∈ lib.identifiers ∧
        (∀ o' ∈ Op.standard.take k, o'.symbol ∉ lib.identifiers) ∧
        lib.stock.2 = some (.duplicateName o.symbol) ∧
        lib.stock.1.identifiers = lib.identifiers ++ (Op.standard.take k).map Op.symbol ∧
        lib.stock.1.templates = lib.templates ++ (Op.standard.take k).map Op.empty) ∧
    (∀ id t, lib.get? id = some t → lib.stock.1.get? id = some t) ∧
    ∀ calls, (lib.stock.1.performAll calls).stock =
      (lib.stock.1.performAll calls, some (.duplicateName "AND")) := by
  refine ⟨?_, ?_, ?_⟩
  · cases hfind : Op.standard.find? (fun o => decide (o.symbol ∈ lib.identifiers)) with
    | none =>
      have hnew : ∀ o ∈ Op.standard, o.symbol ∉ lib.identifiers := by
        simpa using List.find?_eq_none.mp hfind
      obtain ⟨hcomplaint, htemplates⟩ := stock_of_new hnew
      exact Or.inl ⟨hnew, hcomplaint, identifiers_of_empties htemplates, htemplates⟩
    | some o =>
      obtain ⟨hclash, pre, post, hsplit, hpre⟩ := List.find?_eq_some_iff_append.mp hfind
      have hpresent : o.symbol ∈ lib.identifiers := of_decide_eq_true hclash
      have hnew : ∀ o' ∈ pre, o'.symbol ∉ lib.identifiers := by
        simpa using hpre
      obtain ⟨hcomplaint, htemplates⟩ := stock_of_clash hsplit hnew hpresent
      refine Or.inr ⟨pre.length, o, ?_, hpresent, ?_⟩
      · rw [hsplit, List.getElem?_append_right (Nat.le_refl _), Nat.sub_self]
        rfl
      · have htake : Op.standard.take pre.length = pre := by
          rw [hsplit, List.take_left]
        rw [htake]
        exact ⟨hnew, hcomplaint, identifiers_of_empties htemplates, htemplates⟩
  · intro id t h
    exact get?_performAll h [.stock]
  · intro calls
    have hand : "AND" ∈ lib.stock.1.identifiers :=
      mem_registerEach_cons lib (Op.connective .and).empty _
    refine stock_of_mem_and (isSome_get?.mp ?_)
    obtain ⟨t, ht⟩ := Option.isSome_iff_exists.mp (isSome_get?.mpr hand)
    rw [get?_performAll ht calls]
    rfl

end ExprTree.Library
