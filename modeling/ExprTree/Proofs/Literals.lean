import ExprTree.Leaf
import ExprTree.Proofs.Spelling

/-!
# Literals are told by their texts

The text of a literal shows its type: a truth value begins with a letter that no number begins with, the
narrower float and the wider integer end in the name of their type, an integer is digits alone, and what
is left is a 64-bit float (`Value.ofLiteral_literalText`). Inside a type it shows the value. For floats
this is a matter of the words: finite ones are spelled by decimals, the shortest of them that are read
back as the word, and the others by letters that no decimal has (`Decimal.Spelled.injective`). So **two
literals have one text exactly if they are one value, or no numbers of one type**
(`Value.literalText_eq_iff`): of the words that are no number, none is told from another.
-/

set_option autoImplicit false

namespace ExprTree

namespace Decimal

open ExprTree.Binary (Format)

/-! ## Texts of words -/

def sign (f : Format) (w : Nat) : List Char := if f.isNegative w then ['-'] else []

/-- How the literal layout spells a signed word: as no number, as an infinity, or as a decimal with
    the value of the shortest numeral of its magnitude. -/
inductive Spelled (f : Format) (w : Nat) : List Char → Prop
  | nan (h : f.infinity < f.magnitude w) : Spelled f w ['N', 'a', 'N']
  | infinite (h : f.magnitude w = f.infinity) : Spelled f w (sign f w ++ ['i', 'n', 'f'])
  | finite (d : Marked) (h : f.magnitude w < f.infinity)
      (hd : d.value = (Numeral.shortest f (f.magnitude w)).value) :
      Spelled f w (sign f w ++ d.chars)

theorem spelled_text (f : Format) (w : Nat) :
    Spelled f w (literal.text f w).toList := by
  have hsign : ∀ cs : List Char,
      (String.ofList (if f.isNegative w then '-' :: cs else cs)).toList = sign f w ++ cs := by
    intro cs
    unfold sign
    split <;> simp
  unfold Layout.text
  simp only
  split
  · next h => exact .nan h
  · next h =>
    rw [hsign]
    split
    · next he => exact .infinite he
    · next he =>
      obtain ⟨d, hchars, hvalue⟩ := exists_marked (Numeral.proper_shortest f (f.magnitude w))
      rw [hchars]
      exact .finite d (by omega) hvalue

theorem eq_of_mem_sign {f : Format} {w : Nat} {c : Char} (h : c ∈ sign f w) : c = '-' := by
  unfold sign at h
  split at h
  · exact List.mem_singleton.mp h
  · cases h

theorem eq_or_mem_of_mem_signed {f : Format} {w : Nat} {cs : List Char} {c : Char}
    (h : c ∈ sign f w ++ cs) : c = '-' ∨ c ∈ cs :=
  (List.mem_append.mp h).imp eq_of_mem_sign id

/-- A minus sign is not mistaken for what comes after it. -/
theorem sign_append_inj {f : Format} {w w' : Nat} {xs ys : List Char}
    (hx : StopsAt (· == '-') xs) (hy : StopsAt (· == '-') ys)
    (h : sign f w ++ xs = sign f w' ++ ys) : f.isNegative w = f.isNegative w' ∧ xs = ys := by
  obtain ⟨hsign, hrest⟩ := hx.append_inj hy (fun c hc => beq_iff_eq.mpr (eq_of_mem_sign hc))
    (fun c hc => beq_iff_eq.mpr (eq_of_mem_sign hc)) h
  refine ⟨?_, hrest⟩
  unfold sign at hsign
  cases hw : f.isNegative w <;> cases hw' : f.isNegative w' <;> simp [hw, hw'] at hsign ⊢

theorem Marked.stopsAt_chars (d : Marked) : StopsAt (· == '-') d.chars := by
  obtain ⟨c, hc, hdigit⟩ := d.head?_chars
  intro c' hc'
  rw [hc] at hc'
  cases hc'
  refine beq_eq_false_iff_ne.mpr ?_
  rintro rfl
  exact absurd hdigit (by decide)

/-- A signed word is its sign and its magnitude. -/
theorem eq_of_magnitude_eq {f : Format} {w w' : Nat} (hw : w < 2 * f.signBit)
    (hw' : w' < 2 * f.signBit) (hs : f.isNegative w = f.isNegative w')
    (hm : f.magnitude w = f.magnitude w') : w = w' := by
  have split : ∀ {w : Nat}, w < 2 * f.signBit →
      w = f.magnitude w + if f.isNegative w then f.signBit else 0 := by
    intro w hw
    unfold Format.magnitude Format.isNegative
    rcases Nat.lt_or_ge w f.signBit with h | h
    · simp [Nat.mod_eq_of_lt h, Nat.not_le_of_lt h]
    · rw [Nat.mod_eq_sub_mod h, Nat.mod_eq_of_lt (by omega)]
      simp only [h, decide_true, if_true]
      omega
  rw [split hw, split hw', hs, hm]

namespace Spelled

variable {f : Format} {w w' : Nat} {cs cs' : List Char}

theorem mem (h : Spelled f w cs) {c : Char} (hc : c ∈ cs) : isLiteralChar c := by
  cases h with
  | nan =>
    have hall : ['N', 'a', 'N'].all isLiteralChar := rfl
    exact List.all_eq_true.mp hall c hc
  | infinite =>
    have hall : ['i', 'n', 'f'].all isLiteralChar := rfl
    rcases eq_or_mem_of_mem_signed hc with rfl | hc
    · rfl
    · exact List.all_eq_true.mp hall c hc
  | finite d =>
    rcases eq_or_mem_of_mem_signed hc with rfl | hc
    · rfl
    · rcases d.mem_chars hc with hc | rfl | rfl
      · exact isLiteralChar_of_isIntChar hc
      · rfl
      · rfl

/-- Only what is no number has an `a` in it. -/
theorem mem_a_iff (h : Spelled f w cs) : 'a' ∈ cs ↔ f.infinity < f.magnitude w := by
  have hsign : 'a' ∉ sign f w := fun hc => absurd (eq_of_mem_sign hc) (by decide)
  cases h with
  | nan hn => simpa using hn
  | infinite hm => simp [hsign, hm]
  | finite d hm =>
    have hd : 'a' ∉ d.chars := fun hc => absurd (d.mem_chars hc) (by decide)
    simp [hsign, hd, Nat.le_of_lt hm]

/-- Only an infinity has an `i` in it. -/
theorem mem_i_iff (h : Spelled f w cs) : 'i' ∈ cs ↔ f.magnitude w = f.infinity := by
  have hsign : 'i' ∉ sign f w := fun hc => absurd (eq_of_mem_sign hc) (by decide)
  cases h with
  | nan hn => simp [Nat.ne_of_gt hn]
  | infinite hm => simp [hm]
  | finite d hm =>
    have hd : 'i' ∉ d.chars := fun hc => absurd (d.mem_chars hc) (by decide)
    simp [hsign, hd, Nat.ne_of_lt hm]

/-- **A word is told by its spelling**, unless it is no number. -/
theorem injective (h : Spelled f w cs) (h' : Spelled f w' cs') (he : cs = cs')
    (hw : w < 2 * f.signBit) (hw' : w' < 2 * f.signBit) :
    w = w' ∨ f.infinity < f.magnitude w ∧ f.infinity < f.magnitude w' := by
  -- Letters tell the three kinds apart, so that texts of one kind are all there is to compare.
  have hnan : f.infinity < f.magnitude w ↔ f.infinity < f.magnitude w' := by
    rw [← h.mem_a_iff, he, h'.mem_a_iff]
  have hinf : f.magnitude w = f.infinity ↔ f.magnitude w' = f.infinity := by
    rw [← h.mem_i_iff, he, h'.mem_i_iff]
  cases h with
  | nan hn => exact Or.inr ⟨hn, hnan.mp hn⟩
  | infinite hm =>
    cases h' with
    | nan | finite => omega
    | infinite hm' =>
      obtain ⟨hs, -⟩ := sign_append_inj (.cons rfl _) (.cons rfl _) he
      exact Or.inl (eq_of_magnitude_eq hw hw' hs (hm.trans hm'.symm))
  | finite d hm hd =>
    cases h' with
    | nan | infinite => omega
    | finite d' hm' hd' =>
      obtain ⟨hs, hchars⟩ := sign_append_inj d.stopsAt_chars d'.stopsAt_chars he
      obtain rfl := Marked.chars_injective hchars
      have hm : f.magnitude w = f.magnitude w' :=
        Numeral.value_shortest_injective (hd.symm.trans hd')
      exact Or.inl (eq_of_magnitude_eq hw hw' hs hm)

theorem eq_nan (h : Spelled f w cs) (hn : f.infinity < f.magnitude w) : cs = ['N', 'a', 'N'] := by
  cases h with
  | nan => rfl
  | infinite hm => exact absurd hm (Nat.ne_of_gt hn)
  | finite d hm => exact absurd hm (Nat.lt_asymm hn)

/-- Letters that decimals do not have are never together with digits. -/
theorem mem_or_not_isDigit (h : Spelled f w cs) :
    (∀ c ∈ cs, isIntChar c ∨ c = '.' ∨ c = 'e') ∨ ∀ c ∈ cs, c.isDigit = false := by
  cases h with
  | nan => exact Or.inr (by simp)
  | infinite =>
    have hletters : ∀ c ∈ ['i', 'n', 'f'], c.isDigit = false := by simp
    refine Or.inr ?_
    intro c hc
    rcases eq_or_mem_of_mem_signed hc with rfl | hc
    · rfl
    · exact hletters c hc
  | finite d =>
    refine Or.inl ?_
    intro c hc
    rcases eq_or_mem_of_mem_signed hc with rfl | hc
    · exact Or.inl rfl
    · exact d.mem_chars hc

/-- So a float does not end in the name of a type. -/
theorem not_suffix (h : Spelled f w cs) {name : List Char} (letter digit : Char)
    (hl : letter ∈ name) (hd : digit ∈ name)
    (hletter : ¬ (isIntChar letter ∨ letter = '.' ∨ letter = 'e')) (hdigit : digit.isDigit) :
    ¬ name <:+ cs := by
  intro hs
  rcases h.mem_or_not_isDigit with hmem | hmem
  · exact hletter (hmem letter (hs.mem hl))
  · rw [hmem digit (hs.mem hd)] at hdigit
    exact absurd hdigit (by simp)

/-- A float does not look like an integer. -/
theorem exists_not_isIntChar (h : Spelled f w cs) : ∃ c ∈ cs, isIntChar c = false := by
  cases h with
  | nan => exact ⟨'N', by simp, rfl⟩
  | infinite => exact ⟨'i', by simp, rfl⟩
  | finite d =>
    obtain ⟨c, hc, hmark⟩ := d.exists_mark
    exact ⟨c, List.mem_append_right _ hc, hmark⟩

/-- A float does not begin like a truth value. -/
theorem head? (h : Spelled f w cs) : ∃ c, cs.head? = some c ∧ c ≠ 't' ∧ c ≠ 'f' := by
  have hsign : ∀ r c, r.head? = some c → c ≠ 't' ∧ c ≠ 'f' →
      ∃ c, (sign f w ++ r).head? = some c ∧ c ≠ 't' ∧ c ≠ 'f' := by
    intro r c hr hc
    unfold sign
    split
    · exact ⟨'-', rfl, by decide⟩
    · exact ⟨c, hr, hc⟩
  cases h with
  | nan => exact ⟨'N', rfl, by decide⟩
  | infinite => exact hsign _ 'i' rfl (by decide)
  | finite d =>
    obtain ⟨c, hc, hdigit⟩ := d.head?_chars
    refine hsign _ c hc ⟨?_, ?_⟩
    · rintro rfl
      exact absurd hdigit (by decide)
    · rintro rfl
      exact absurd hdigit (by decide)

end Spelled

/-- Words have one text exactly if they are equal or no number. -/
theorem text_eq_iff {f : Format} {w w' : Nat} (hw : w < 2 * f.signBit) (hw' : w' < 2 * f.signBit) :
    literal.text f w = literal.text f w' ↔
      w = w' ∨ f.infinity < f.magnitude w ∧ f.infinity < f.magnitude w' := by
  have h := spelled_text f w
  have h' := spelled_text f w'
  constructor
  · intro he
    exact h.injective h' (congrArg String.toList he) hw hw'
  · intro he
    rcases he with rfl | ⟨hn, hn'⟩
    · rfl
    · exact String.toList_injective ((h.eq_nan hn).trans (h'.eq_nan hn').symm)

end Decimal

open Binary Decimal

/-! ## The type of a text -/

/-- The type that the text of a literal shows. -/
def Ty.ofLiteral (cs : List Char) : Ty :=
  if cs.head? = some 't' ∨ cs.head? = some 'f' then .bool
  else if ['f', '3', '2'] <:+ cs then .num .f32
  else if ['i', '6', '4'] <:+ cs then .num .i64
  else if cs.all isIntChar then .num .i32
  else .num .f64

/-- The texts that begin like truth values and those that begin otherwise. -/
theorem Ty.ofLiteral_of_head? {cs : List Char} {c : Char} (hc : cs.head? = some c)
    (hne : c ≠ 't' ∧ c ≠ 'f') :
    ofLiteral cs = if ['f', '3', '2'] <:+ cs then .num .f32
      else if ['i', '6', '4'] <:+ cs then .num .i64
      else if cs.all isIntChar then .num .i32
      else .num .f64 := by
  rw [ofLiteral, hc, if_neg (by simp [hne])]

theorem head?_repr (n : Int) : ∃ c, n.repr.toList.head? = some c ∧ c ≠ 't' ∧ c ≠ 'f' := by
  obtain ⟨c, rest, hc⟩ := List.exists_cons_of_ne_nil (repr_ne_nil n)
  have hint : isIntChar c := isIntChar_of_mem_repr (hc ▸ List.mem_cons_self)
  refine ⟨c, by rw [hc]; rfl, ?_, ?_⟩
  · rintro rfl
    exact absurd hint (by decide)
  · rintro rfl
    exact absurd hint (by decide)

/-- A text goes on to begin as it began. -/
theorem head?_append {cs : List Char} {c : Char} (h : cs.head? = some c) (ds : List Char) :
    (cs ++ ds).head? = some c := by
  rw [List.head?_append, h]
  rfl

theorem Number.toList_literalText_f32 (x : F32) : (f32 x).literalText.toList =
    (literal.text single (wordOfSingle x)).toList ++ ['f', '3', '2'] :=
  String.toList_append

theorem Number.toList_literalText_i64 (n : Int64) :
    (i64 n).literalText.toList = n.toInt.repr.toList ++ ['i', '6', '4'] :=
  String.toList_append

/-- **The text of a literal shows its type.** -/
theorem Value.ofLiteral_literalText (v : Value) : Ty.ofLiteral v.literalText.toList = v.ty := by
  cases v with
  | bool a => cases a <;> decide
  | num x =>
    cases x with
    | f64 x =>
      have h := spelled_text double (wordOfDouble x)
      obtain ⟨c, hc, hne⟩ := h.head?
      obtain ⟨d, hd, hmark⟩ := h.exists_not_isIntChar
      have hf32 : ¬ ['f', '3', '2'] <:+ _ :=
        h.not_suffix 'f' '3' (by simp) (by simp) (by decide) rfl
      have hi64 : ¬ ['i', '6', '4'] <:+ _ :=
        h.not_suffix 'i' '6' (by simp) (by simp) (by decide) rfl
      refine (Ty.ofLiteral_of_head? hc hne).trans ?_
      rw [if_neg hf32, if_neg hi64, if_neg]
      · rfl
      · intro hall
        rw [List.all_eq_true.mp hall d hd] at hmark
        exact absurd hmark (by simp)
    | f32 x =>
      have h := spelled_text single (wordOfSingle x)
      obtain ⟨c, hc, hne⟩ := h.head?
      rw [literalText, Number.toList_literalText_f32,
        Ty.ofLiteral_of_head? (head?_append hc _) hne, if_pos (List.suffix_append _ _)]
      rfl
    | i64 n =>
      obtain ⟨c, hc, hne⟩ := head?_repr n.toInt
      rw [literalText, Number.toList_literalText_i64,
        Ty.ofLiteral_of_head? (head?_append hc _) hne, if_neg, if_pos (List.suffix_append _ _)]
      · rfl
      · intro hs
        have hs' : [] ++ ['f', '3', '2'] <:+ n.toInt.repr.toList ++ ['i', '6', '4'] := hs
        have hlen : ['f', '3', '2'].length = ['i', '6', '4'].length := rfl
        exact absurd ((List.suffix_append_inj_of_length_eq hlen).mp hs').2 (by decide)
    | i32 n =>
      obtain ⟨c, hc, hne⟩ := head?_repr n.toInt
      have hall : ∀ c ∈ n.toInt.repr.toList, isIntChar c := fun c hc => isIntChar_of_mem_repr hc
      refine (Ty.ofLiteral_of_head? hc hne).trans ?_
      rw [if_neg, if_neg, if_pos (List.all_eq_true.mpr hall)]
      · rfl
      · intro hs
        exact absurd (hall 'i' (hs.mem (by simp))) (by decide)
      · intro hs
        exact absurd (hall 'f' (hs.mem (by simp))) (by decide)

/-! ## The value of a text -/

theorem wordOfDouble_inj {x y : F64} : wordOfDouble x = wordOfDouble y ↔ x = y := by
  rw [F64.mk.injEq]
  exact UInt64.toNat_inj

theorem wordOfSingle_inj {x y : F32} : wordOfSingle x = wordOfSingle y ↔ x = y := by
  rw [F32.mk.injEq]
  exact UInt32.toNat_inj

/-- A float that is no number: its word is above the infinite one. -/
def Number.IsNaN : Number → Prop
  | f64 x => double.infinity < double.magnitude (wordOfDouble x)
  | f32 x => single.infinity < single.magnitude (wordOfSingle x)
  | i64 _ | i32 _ => False

def Value.IsNaN : Value → Prop
  | bool _ => False
  | num x => x.IsNaN

theorem Number.literalText_eq_iff {x y : Number} (hty : x.ty = y.ty) :
    x.literalText = y.literalText ↔ x = y ∨ x.IsNaN ∧ y.IsNaN := by
  cases x with
  | f64 x =>
    cases y with
    | f64 y =>
      have h := text_eq_iff (f := double) x.bits.toNat_lt y.bits.toNat_lt
      rw [f64.injEq, ← wordOfDouble_inj]
      exact h
    | f32 | i64 | i32 => cases hty
  | f32 x =>
    cases y with
    | f32 y =>
      have h := text_eq_iff (f := single) x.bits.toNat_lt y.bits.toNat_lt
      rw [f32.injEq, ← wordOfSingle_inj]
      exact (String.append_left_inj _).trans h
    | f64 | i64 | i32 => cases hty
  | i64 m =>
    cases y with
    | i64 n =>
      rw [i64.injEq, ← Int64.toInt_inj]
      simp [literalText, IsNaN]
    | f64 | f32 | i32 => cases hty
  | i32 m =>
    cases y with
    | i32 n =>
      rw [i32.injEq, ← Int32.toInt_inj]
      simp [literalText, IsNaN]
    | f64 | f32 | i64 => cases hty

/-- **Literals of one text are one value, or no numbers of one type.** -/
theorem Value.literalText_eq_iff (v w : Value) :
    v.literalText = w.literalText ↔ v = w ∨ v.ty = w.ty ∧ v.IsNaN ∧ w.IsNaN := by
  have htype : v.literalText = w.literalText → v.ty = w.ty := by
    intro h
    rw [← v.ofLiteral_literalText, h, w.ofLiteral_literalText]
  cases v with
  | bool a =>
    cases w with
    | bool b => cases a <;> cases b <;> simp [literalText, boolText, IsNaN]
    | num y => exact iff_of_false (fun h => Ty.noConfusion (htype h)) (by simp)
  | num x =>
    cases w with
    | bool b => exact iff_of_false (fun h => Ty.noConfusion (htype h)) (by simp)
    | num y =>
      by_cases hty : x.ty = y.ty
      · show x.literalText = y.literalText ↔ _ ∨ _ ∧ x.IsNaN ∧ y.IsNaN
        rw [Number.literalText_eq_iff hty, num.injEq, ty_num, ty_num, hty, eq_self, true_and]
      · refine iff_of_false (fun h => hty (Ty.num.inj (htype h))) ?_
        rintro (h | ⟨h, -⟩)
        · exact hty (congrArg Number.ty (num.inj h))
        · exact hty (Ty.num.inj h)

/-- Neighbours, the first of them the last number that is written in full. -/
example : (Number.f64 ⟨0x4341c37937e07fff⟩).literalText = "9999999999999998.0" ∧
    (Number.f64 ⟨0x4341c37937e08000⟩).literalText = "1e16" := by decide +kernel

theorem Value.literalText_ne_empty (v : Value) : v.literalText ≠ "" := by
  intro h
  have hty : v.ty = .num .i32 := by
    rw [← v.ofLiteral_literalText, h]
    rfl
  -- Bare digits are all that an empty text could be taken for.
  cases v with
  | bool a => cases hty
  | num x =>
    cases x with
    | i32 n => exact repr_ne_nil n.toInt (congrArg String.toList h)
    | f64 | f32 | i64 => cases hty

/-- Literals are written with letters, digits, points and minus signs. -/
theorem Value.isLiteralChar_of_mem {v : Value} {c : Char} (h : c ∈ v.literalText.toList) :
    isLiteralChar c := by
  have hname : ∀ name : List Char, name.all isLiteralChar → ∀ c ∈ name, isLiteralChar c :=
    fun name h => List.all_eq_true.mp h
  cases v with
  | bool a =>
    cases a with
    | true => exact hname ['t', 'r', 'u', 'e'] rfl c h
    | false => exact hname ['f', 'a', 'l', 's', 'e'] rfl c h
  | num x =>
    cases x with
    | f64 x => exact (spelled_text double _).mem h
    | f32 x =>
      rw [literalText, Number.toList_literalText_f32, List.mem_append] at h
      rcases h with h | h
      · exact (spelled_text single _).mem h
      · exact hname _ rfl c h
    | i64 n =>
      rw [literalText, Number.toList_literalText_i64, List.mem_append] at h
      rcases h with h | h
      · exact isLiteralChar_of_isIntChar (isIntChar_of_mem_repr h)
      · exact hname _ rfl c h
    | i32 n => exact isLiteralChar_of_isIntChar (isIntChar_of_mem_repr h)

/-! ## Identifiers -/

/-- **The identifiers of literals tell values apart**: two literals have the same identifier exactly if
    they are one value, that is of one type and with the same bits, or both are no number and of one
    width. The identifiers of literals of different types are different. -/
theorem Leaf.identifiers_distinguish :
    (∀ v w : Value, (literal v).identifier = (literal w).identifier ↔
      v = w ∨ v.ty = w.ty ∧ v.IsNaN ∧ w.IsNaN) ∧
    ∀ v w : Value, v.ty ≠ w.ty → (literal v).identifier ≠ (literal w).identifier := by
  refine ⟨Value.literalText_eq_iff, ?_⟩
  intro v w hty h
  rcases (v.literalText_eq_iff w).mp h with rfl | ⟨heq, -⟩
  · exact hty rfl
  · exact hty heq

end ExprTree
