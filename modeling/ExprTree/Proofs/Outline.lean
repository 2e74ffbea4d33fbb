import ExprTree.Proofs.Reading
import ExprTree.Proofs.Sizes

/-!
# What the text shows of sizes

A text is read here as anyone reads it who does not know about trees: as words, between blanks and
parentheses, and as many levels deep as there are parentheses open before it. **The words of the text
of a tree are its nodes and its unbound slots, in order and each on its level** (`Tree.outlined`);
written down so, the tree is its *outline*.

That settles what the text has to do with length, depth and the number of unbound slots, since each of
them is found on the outline by an induction that no longer knows about text.
-/

set_option autoImplicit false

namespace ExprTree

/-! ## Parentheses -/

/-- The number of parentheses that a text opens, less the number of those that it closes. -/
def level (cs : List Char) : Int := cs.count '(' - cs.count ')'

@[simp] theorem level_nil : level [] = 0 := rfl

@[simp] theorem level_append (xs ys : List Char) : level (xs ++ ys) = level xs + level ys := by
  simp only [level, List.count_append]
  omega

@[simp] theorem level_cons_open (cs : List Char) : level ('(' :: cs) = level cs + 1 := by
  simp [level]
  omega

@[simp] theorem level_cons_close (cs : List Char) : level (')' :: cs) = level cs - 1 := by
  simp [level]
  omega

theorem level_cons_of_ne {c : Char} (ho : c ≠ '(') (hc : c ≠ ')') (cs : List Char) :
    level (c :: cs) = level cs := by
  simp [level, ho, hc]

theorem isWordChar_unbound : ∀ c ∈ ['_'], isWordChar c := by
  simp [isWordChar, isBreak]

/-- Every parenthesis that is opened is closed, and none is closed that has not been opened. -/
structure Balanced (cs : List Char) : Prop where
  settled : level cs = 0
  nonneg : ∀ p, p <+: cs → 0 ≤ level p

namespace Balanced

theorem nil : Balanced [] where
  settled := rfl
  nonneg := by
    intro p hp
    rw [List.prefix_nil.mp hp, level_nil]

theorem append {xs ys : List Char} (hx : Balanced xs) (hy : Balanced ys) : Balanced (xs ++ ys) where
  settled := by rw [level_append, hx.settled, hy.settled, Int.add_zero]
  nonneg := by
    intro p hp
    rcases List.prefix_or_prefix_of_prefix hp (List.prefix_append xs ys) with h | ⟨q, rfl⟩
    · exact hx.nonneg p h
    · rw [level_append, hx.settled, Int.zero_add]
      exact hy.nonneg q ((List.prefix_append_right_inj xs).mp hp)

theorem cons_of_ne {c : Char} (ho : c ≠ '(') (hc : c ≠ ')') {cs : List Char} (h : Balanced cs) :
    Balanced (c :: cs) where
  settled := by rw [level_cons_of_ne ho hc, h.settled]
  nonneg := by
    intro p hp
    rcases List.prefix_cons_iff.mp hp with rfl | ⟨q, rfl, hq⟩
    · exact Int.le_refl 0
    · rw [level_cons_of_ne ho hc]
      exact h.nonneg q hq

theorem enclose {cs : List Char} (h : Balanced cs) : Balanced ('(' :: (cs ++ [')'])) where
  settled := by
    rw [level_cons_open, level_append, h.settled, level_cons_close, level_nil]
    rfl
  nonneg := by
    intro p hp
    rcases List.prefix_cons_iff.mp hp with rfl | ⟨q, rfl, hq⟩
    · exact Int.le_refl 0
    · rw [level_cons_open]
      rcases List.prefix_concat_iff.mp hq with rfl | hq
      · rw [level_append, h.settled, level_cons_close, level_nil]
        exact Int.le_refl 0
      · have := h.nonneg q hq
        omega

theorem of_word {w : List Char} (h : ∀ c ∈ w, isWordChar c) : Balanced w := by
  induction w with
  | nil => exact nil
  | cons c w ih =>
    rw [List.forall_mem_cons] at h
    refine cons_of_ne ?_ ?_ (ih h.2)
    · rintro rfl
      exact absurd h.1 (by decide)
    · rintro rfl
      exact absurd h.1 (by decide)

end Balanced

/-! ## Words -/

/-- The maximal runs of word characters in a text, from left to right, each with all of the text that
    stands before it. What stands before the text itself is `before`. -/
def wordsAfter (before : List Char) : List Char → List (List Char × List Char)
  | [] => []
  | c :: cs =>
    if isWordChar c && before.getLast?.all isBreak then
      (before, (c :: cs).takeWhile isWordChar) :: wordsAfter (before ++ [c]) cs
    else wordsAfter (before ++ [c]) cs

/-- The maximal runs of word characters in a text, each with what stands before it. -/
def wordsOf (text : String) : List (List Char × List Char) := wordsAfter [] text.toList

theorem takeWhile_append_of_stopsAt {p : Char → Bool} {ys : List Char} (h : StopsAt p ys)
    (xs : List Char) : (xs ++ ys).takeWhile p = xs.takeWhile p := by
  have hys : ys.takeWhile p = [] := by
    cases ys with
    | nil => rfl
    | cons y ys => rw [List.takeWhile_cons, h y rfl]; rfl
  rw [List.takeWhile_append, hys, List.append_nil]
  split
  · rename_i hlen
    exact ((List.takeWhile_prefix p).eq_of_length hlen).symm
  · rfl

/-- A text can be read in two parts, if the second does not go on with the last word of the first. -/
theorem wordsAfter_append {ys : List Char} (h : StopsAt isWordChar ys) (before xs : List Char) :
    wordsAfter before (xs ++ ys) = wordsAfter before xs ++ wordsAfter (before ++ xs) ys := by
  induction xs generalizing before with
  | nil => simp [wordsAfter]
  | cons c xs ih =>
    have hword : (c :: (xs ++ ys)).takeWhile isWordChar = (c :: xs).takeWhile isWordChar :=
      takeWhile_append_of_stopsAt h (c :: xs)
    have hbefore : before ++ [c] ++ xs = before ++ c :: xs := by simp
    rw [List.cons_append, wordsAfter, wordsAfter, hword, ih, hbefore]
    split <;> rfl

theorem wordsAfter_break {c : Char} (h : isBreak c) (before cs : List Char) :
    wordsAfter before (c :: cs) = wordsAfter (before ++ [c]) cs := by
  simp [wordsAfter, isWordChar, h]

/-- No word begins inside of another. -/
theorem wordsAfter_inside {w : List Char} (hw : ∀ c ∈ w, isWordChar c) {before : List Char} {d : Char}
    (hd : isWordChar d) : wordsAfter (before ++ [d]) w = [] := by
  induction w generalizing before d with
  | nil => rfl
  | cons c w ih =>
    rw [List.forall_mem_cons] at hw
    have hlast : (before ++ [d]).getLast?.all isBreak = false := by
      simpa [isWordChar] using hd
    rw [wordsAfter, hlast, Bool.and_false, if_neg Bool.false_ne_true]
    exact ih hw.2 hw.1

theorem wordsAfter_word {w : List Char} (hne : w ≠ []) (hw : ∀ c ∈ w, isWordChar c)
    {before : List Char} (hb : before.getLast?.all isBreak) :
    wordsAfter before w = [(before, w)] := by
  obtain ⟨c, w, rfl⟩ := List.exists_cons_of_ne_nil hne
  have htake : (c :: w).takeWhile isWordChar = c :: w := List.takeWhile_eq_self_iff.mpr hw
  rw [List.forall_mem_cons] at hw
  rw [wordsAfter, hb, hw.1, Bool.and_true, if_pos rfl, htake, wordsAfter_inside hw.2 hw.1]

/-- The words of a text, each with the number of parentheses that are open before it. -/
def marks (before cs : List Char) : List (Int × List Char) :=
  (wordsAfter before cs).map fun r => (level r.1, r.2)

theorem marks_append {ys : List Char} (h : StopsAt isWordChar ys) (before xs : List Char) :
    marks before (xs ++ ys) = marks before xs ++ marks (before ++ xs) ys := by
  rw [marks, wordsAfter_append h, List.map_append]
  rfl

theorem marks_break {c : Char} (h : isBreak c) (before cs : List Char) :
    marks before (c :: cs) = marks (before ++ [c]) cs := by
  rw [marks, wordsAfter_break h]
  rfl

theorem marks_word {w : List Char} (hne : w ≠ []) (hw : ∀ c ∈ w, isWordChar c) {before : List Char}
    (hb : before.getLast?.all isBreak) : marks before w = [(level before, w)] := by
  rw [marks, wordsAfter_word hne hw hb]
  rfl

/-! ## Outlines -/

mutual

/-- The identifiers of the nodes of a tree, with `_` for each unbound slot, in the order of the text and
    each with the level that it is on, if the root is on level `d`. -/
def Tree.outline (d : Int) : Tree → List (Int × List Char)
  | .leaf l => [(d, l.identifier.toList)]
  | .node o slots => (d, o.symbol.toList) :: slots.outline (d + 1)

def Slots.outline (d : Int) {n : Nat} : Slots n → List (Int × List Char)
  | .nil => []
  | .unbound rest => (d, ['_']) :: rest.outline d
  | .bound t rest => t.outline d ++ rest.outline d

end

def slotOutline (d : Int) (c : Option Tree) : List (Int × List Char) :=
  c.elim [(d, ['_'])] (Tree.outline d)

theorem Slots.outline_eq_flatMap (d : Int) {n : Nat} (s : Slots n) :
    s.outline d = s.toList.flatMap (slotOutline d) := by
  cases s with
  | nil => simp [outline, toList]
  | unbound rest => simp [outline, toList, slotOutline, outline_eq_flatMap d rest]
  | bound t rest => simp [outline, toList, slotOutline, outline_eq_flatMap d rest]

/-- Every leaf is written as a word, of one character at least. -/
structure Tree.Worded (t : Tree) : Prop where
  legible : t.Legible
  nonempty : ∀ l ∈ t.leaves, l.identifier ≠ ""

theorem Tree.Worded.slot {o : Op} {slots : Slots o.arity} {i : Nat} {u : Tree}
    (h : (Tree.node o slots).Worded) (hu : slots.get? i = some u) : u.Worded where
  legible := h.legible.slot hu
  nonempty := fun l hl => h.nonempty l (mem_leaves_node hu hl)

/-- What is so of every worded tree in a slot of a worded node, if it is so of the trees below. -/
theorem Tree.Worded.below {o : Op} {slots : Slots o.arity} {motive : Tree → Prop}
    (h : (Tree.node o slots).Worded)
    (ih : ∀ i u, slots.get? i = some u → u.Worded → motive u) :
    ∀ u, some u ∈ slots.toList → motive u := by
  intro u hu
  obtain ⟨i, hi⟩ := Slots.exists_get?_of_mem hu
  exact ih i u hi (h.slot hi)

theorem Op.symbol_ne_empty (o : Op) : o.symbol ≠ "" := by
  cases o with
  | connective c => cases c <;> decide
  | arith a => cases a <;> decide
  | unary u => cases u <;> decide
  | real f => cases f <;> decide
  | compare c => cases c <;> decide
  | not | xor | choose => decide
  | divide p =>
    have hsymbol : "PDIV" ≠ "" := by decide
    exact hsymbol

theorem Tree.toList_text_node_cons (o : Op) (slots : Slots o.arity) :
    ∃ c cs, slots.toList = c :: cs ∧ (Tree.node o slots).text.toList =
      o.symbol.toList ++ '(' :: ((slotText c).toList ++ rowChars cs ++ [')']) := by
  obtain ⟨body, htext, hbody⟩ := toList_text_node o slots
  have hne : slots.toList ≠ [] := by
    rw [← List.length_pos_iff, slots.length_toList]
    exact o.arity_pos
  obtain ⟨c, cs, hcs⟩ := List.exists_cons_of_ne_nil hne
  rw [hcs, rowChars_cons] at hbody
  exact ⟨c, cs, hcs, by rw [htext, (List.cons.inj hbody).2]⟩

/-! ### Balance -/

theorem balanced_slotText {c : Option Tree} (below : ∀ u, c = some u → Balanced u.text.toList) :
    Balanced (slotText c).toList := by
  cases c with
  | none => exact .of_word isWordChar_unbound
  | some u => exact below u rfl

theorem balanced_rowChars {cs : List (Option Tree)}
    (below : ∀ u, some u ∈ cs → Balanced u.text.toList) : Balanced (rowChars cs) := by
  induction cs with
  | nil => exact .nil
  | cons c cs ih =>
    rw [rowChars_cons]
    have hslot : Balanced (slotText c).toList :=
      balanced_slotText fun u hu => below u (hu ▸ List.mem_cons_self)
    have hrow : Balanced (rowChars cs) := ih fun u hu => below u (List.mem_cons_of_mem _ hu)
    exact (hslot.append hrow).cons_of_ne (by decide) (by decide)

/-- **The text of a tree has balanced parentheses.** -/
theorem Tree.balanced_text {t : Tree} (worded : t.Worded) : Balanced t.text.toList := by
  induction t using Tree.byNode with
  | leaf l =>
    rw [text]
    exact .of_word worded.legible.isWord.chars
  | node o slots ih =>
    have below := worded.below ih
    obtain ⟨c, cs, hcs, htext⟩ := toList_text_node_cons o slots
    rw [hcs] at below
    have hslot : Balanced (slotText c).toList :=
      balanced_slotText fun u hu => below u (hu ▸ List.mem_cons_self)
    have hrow : Balanced (rowChars cs) :=
      balanced_rowChars fun u hu => below u (List.mem_cons_of_mem _ hu)
    rw [htext]
    exact (Balanced.of_word o.isWord_symbol.chars).append (hslot.append hrow).enclose

/-! ### Words -/

theorem stopsAt_rowChars (cs : List (Option Tree)) : StopsAt isWordChar (rowChars cs) := by
  cases cs with
  | nil => exact .nil _
  | cons c cs =>
    rw [rowChars_cons]
    exact .cons rfl _

/-- The text of a tree is balanced, and shows the outline of the tree wherever it is not the end of a
    longer word. -/
structure Tree.Outlined (t : Tree) : Prop where
  balanced : Balanced t.text.toList
  marks_eq : ∀ before : List Char, before.getLast?.all isBreak →
    marks before t.text.toList = t.outline (level before)

theorem marks_slotText {c : Option Tree} (below : ∀ u, c = some u → u.Outlined) {before : List Char}
    (hb : before.getLast?.all isBreak) :
    marks before (slotText c).toList = slotOutline (level before) c := by
  cases c with
  | none => exact marks_word (by decide) isWordChar_unbound hb
  | some u => exact (below u rfl).marks_eq before hb

/-- After a slot the level is what it was before. -/
theorem level_append_slotText {c : Option Tree} (below : ∀ u, c = some u → u.Outlined)
    (before : List Char) : level (before ++ (slotText c).toList) = level before := by
  rw [level_append, (balanced_slotText fun u hu => (below u hu).balanced).settled, Int.add_zero]

/-- **A row shows the outlines of its slots**, all on the level where it begins. -/
theorem marks_rowChars {cs : List (Option Tree)} (below : ∀ u, some u ∈ cs → u.Outlined)
    (before : List Char) :
    marks before (rowChars cs) = cs.flatMap (slotOutline (level before)) := by
  induction cs generalizing before with
  | nil => rfl
  | cons c cs ih =>
    have hc : ∀ u, c = some u → u.Outlined := fun u hu => below u (hu ▸ List.mem_cons_self)
    have hcs : ∀ u, some u ∈ cs → u.Outlined := fun u hu => below u (List.mem_cons_of_mem _ hu)
    have hblank : level (before ++ [' ']) = level before := by
      rw [level_append, level_cons_of_ne (by decide) (by decide), level_nil, Int.add_zero]
    rw [rowChars_cons, marks_break rfl, marks_append (stopsAt_rowChars cs),
      marks_slotText hc (by simp [isBreak]), ih hcs, level_append_slotText hc, hblank,
      List.flatMap_cons]

/-- **The words of a tree's text are its outline.** -/
theorem Tree.outlined {t : Tree} (worded : t.Worded) : t.Outlined := by
  refine ⟨balanced_text worded, ?_⟩
  induction t using Tree.byNode with
  | leaf l =>
    intro before hb
    rw [text, outline]
    have hne : l.identifier.toList ≠ [] := fun h =>
      worded.nonempty l (by simp) (String.toList_injective h)
    exact marks_word hne worded.legible.isWord.chars hb
  | node o slots ih =>
    intro before hb
    have below : ∀ u, some u ∈ slots.toList → u.Outlined :=
      worded.below fun i u hu hworded => ⟨balanced_text hworded, ih i u hu hworded⟩
    obtain ⟨c, cs, hcs, htext⟩ := toList_text_node_cons o slots
    rw [hcs] at below
    have hc : ∀ u, c = some u → u.Outlined := fun u hu => below u (hu ▸ List.mem_cons_self)
    have hrow : ∀ u, some u ∈ cs → u.Outlined := fun u hu => below u (List.mem_cons_of_mem _ hu)
    have hne : o.symbol.toList ≠ [] := fun h => o.symbol_ne_empty (String.toList_injective h)
    have hopen : level (before ++ o.symbol.toList ++ ['(']) = level before + 1 := by
      rw [level_append, level_append, (Balanced.of_word o.isWord_symbol.chars).settled,
        level_cons_open, level_nil]
      omega
    rw [htext, marks_append (.cons rfl _), marks_word hne o.isWord_symbol.chars hb,
      marks_break rfl, marks_append (.cons rfl _), marks_append (stopsAt_rowChars cs),
      marks_slotText hc (by simp [isBreak]), marks_rowChars hrow, marks_break rfl,
      level_append_slotText hc, hopen, outline, Slots.outline_eq_flatMap, hcs, List.flatMap_cons]
    simp [marks, wordsAfter]

/-! ## Sizes of outlines -/

def slotGaps (c : Option Tree) : Nat := c.elim 1 Tree.gaps

theorem Slots.gaps_eq_sum {n : Nat} (s : Slots n) : s.gaps = (s.toList.map slotGaps).sum := by
  cases s with
  | nil => simp [gaps, toList]
  | unbound rest => simp [gaps, toList, slotGaps, gaps_eq_sum rest]
  | bound u rest => simp [gaps, toList, slotGaps, gaps_eq_sum rest]

theorem IsWord.toList_ne {s : String} (h : IsWord s) : s.toList ≠ ['_'] :=
  fun hs => h.ne_unbound (String.toList_injective hs)

theorem Tree.Worded.leaf_ne {l : Leaf} (h : (Tree.leaf l).Worded) : l.identifier.toList ≠ ['_'] :=
  h.legible.isWord.toList_ne

/-- What is counted in the outline of a row is counted slot by slot. -/
theorem Slots.countP_outline {n : Nat} {s : Slots n} {d : Int} {p : Int × List Char → Bool}
    {f : Option Tree → Nat} (h : ∀ c ∈ s.toList, (slotOutline d c).countP p = f c) :
    (s.outline d).countP p = (s.toList.map f).sum := by
  rw [outline_eq_flatMap, List.countP_flatMap]
  congr 1
  exact List.map_congr_left h

theorem Tree.countP_outline_nodes {t : Tree} (worded : t.Worded) (d : Int) :
    (t.outline d).countP (·.2 != ['_']) = t.length := by
  induction t using Tree.byNode generalizing d with
  | leaf l => simp [outline, length, worded.leaf_ne]
  | node o slots ih =>
    have below := worded.below fun i u hu hworded => ih i u hu hworded (d + 1)
    have hrow : (slots.outline (d + 1)).countP (·.2 != ['_']) = (slots.toList.map slotLength).sum := by
      refine Slots.countP_outline fun c hc => ?_
      cases c with
      | none => rfl
      | some u => exact below u hc
    rw [outline, List.countP_cons, hrow, length, slots.length_eq_sum]
    simp [o.isWord_symbol.toList_ne, Nat.add_comm]

theorem Tree.countP_outline_gaps {t : Tree} (worded : t.Worded) (d : Int) :
    (t.outline d).countP (·.2 == ['_']) = t.gaps := by
  induction t using Tree.byNode generalizing d with
  | leaf l => simp [outline, gaps, worded.leaf_ne]
  | node o slots ih =>
    have below := worded.below fun i u hu hworded => ih i u hu hworded (d + 1)
    have hrow : (slots.outline (d + 1)).countP (·.2 == ['_']) = (slots.toList.map slotGaps).sum := by
      refine Slots.countP_outline fun c hc => ?_
      cases c with
      | none => rfl
      | some u => exact below u hc
    rw [outline, List.countP_cons, hrow, gaps, slots.gaps_eq_sum]
    simp [o.isWord_symbol.toList_ne]

theorem Slots.add_height_le_iff {n : Nat} (s : Slots n) (d m : Int) :
    d + s.height ≤ m ↔ d ≤ m ∧ ∀ c ∈ s.toList, d + slotHeight c ≤ m := by
  constructor
  · intro h
    refine ⟨by omega, fun c hc => ?_⟩
    have := s.height_le_iff.mp (Nat.le_refl _) c hc
    omega
  · rintro ⟨hd, h⟩
    obtain ⟨k, rfl⟩ := Int.le.dest hd
    have hk : s.height ≤ k := s.height_le_iff.mpr fun c hc => by
      have := h c hc
      omega
    omega

/-- **The depth of a tree is that of the deepest level in its outline**, unbound slots apart. -/
theorem Tree.outline_le_iff {t : Tree} (worded : t.Worded) (d m : Int) :
    (∀ e ∈ t.outline d, e.2 ≠ ['_'] → e.1 ≤ m) ↔ d + t.depth ≤ m := by
  induction t using Tree.byNode generalizing d with
  | leaf l => simp [outline, depth, worded.leaf_ne]
  | node o slots ih =>
    have below := worded.below fun i u hu hworded => ih i u hu hworded (d + 1)
    have hslot : d ≤ m → ∀ c ∈ slots.toList,
        ((∀ e ∈ slotOutline (d + 1) c, e.2 ≠ ['_'] → e.1 ≤ m) ↔ d + slotHeight c ≤ m) := by
      intro hd c hc
      cases c with
      | none => simpa [slotOutline, slotHeight] using hd
      | some u =>
        refine (below u hc).trans ?_
        rw [slotHeight, Option.elim_some]
        omega
    rw [outline, List.forall_mem_cons, Slots.outline_eq_flatMap, depth, slots.add_height_le_iff]
    simp only [List.forall_mem_flatMap, ne_eq, o.isWord_symbol.toList_ne, not_false_eq_true,
      true_implies]
    refine and_congr_right fun hd => forall₂_congr fun c hc => hslot hd c hc

/-! ## The text of a tree -/

theorem Leaf.isWord_of_isInput {l : Leaf} (h : l.isInput) (name : ∀ x, l = .var x →
    x.name ≠ "" ∧ (∀ c ∈ x.name.toList, c ∉ [' ', '(', ')']) ∧ x.name ≠ "_") :
    IsWord l.identifier ∧ l.identifier ≠ "" := by
  cases l with
  | literal v => exact ⟨v.isWord_literalText, v.literalText_ne_empty⟩
  | var x =>
    obtain ⟨hne, hchars, hunbound⟩ := name x rfl
    refine ⟨⟨?_, hunbound⟩, hne⟩
    intro c hc
    simpa [isWordChar, isBreak, and_assoc] using hchars c hc
  | probe q => exact absurd h (by simp [Leaf.isInput])

/-- **The text of a tree shows its sizes.** Take any tree over literals and variables, complete or not,
    in which the names of variables are words and none is `_`. The words of its text, other than `_`,
    are as many as the tree has nodes, and the words `_` as many as it has unbound slots. The
    parentheses are balanced, and the greatest number of them that is open before a word other than `_`
    is the depth of the tree. -/
theorem Tree.text_measured (t : Tree) (inputs : ∀ l ∈ t.leaves, l.isInput)
    (names : ∀ x, .var x ∈ t.leaves →
      x.name ≠ "" ∧ (∀ c ∈ x.name.toList, c ∉ [' ', '(', ')']) ∧ x.name ≠ "_") :
    (wordsOf t.text).countP (·.2 != ['_']) = t.length ∧
    (wordsOf t.text).countP (·.2 == ['_']) = t.gaps ∧
    (((wordsOf t.text).filter (·.2 != ['_'])).map fun r => level r.1).max? = some (t.depth : Int) ∧
    Balanced t.text.toList := by
  have isWord : ∀ l ∈ t.leaves, IsWord l.identifier ∧ l.identifier ≠ "" := fun l hl =>
    Leaf.isWord_of_isInput (inputs l hl) fun x hx => names x (hx ▸ hl)
  have worded : t.Worded := ⟨fun l hl => (isWord l hl).1, fun l hl => (isWord l hl).2⟩
  have hwords : (wordsOf t.text).map (fun r => (level r.1, r.2)) = t.outline 0 :=
    (outlined worded).marks_eq [] rfl
  refine ⟨?_, ?_, ?_, balanced_text worded⟩
  · rw [← countP_outline_nodes worded 0, ← hwords, List.countP_map]
    rfl
  · rw [← countP_outline_gaps worded 0, ← hwords, List.countP_map]
    rfl
  · have hlevels : ∀ m : Int, (∀ k ∈ ((wordsOf t.text).filter (·.2 != ['_'])).map
        (fun r => level r.1), k ≤ m) ↔ (t.depth : Int) ≤ m := by
      intro m
      have hle := outline_le_iff worded 0 m
      rw [← hwords, List.forall_mem_map, Int.zero_add] at hle
      rw [List.forall_mem_map, ← hle]
      simp [List.mem_filter]
    cases hmax : (((wordsOf t.text).filter (·.2 != ['_'])).map fun r => level r.1).max? with
    | none =>
      have hdepth := (hlevels (-1)).mp (by simp [List.max?_eq_none_iff.mp hmax])
      omega
    | some k =>
      congr 1
      exact eq_of_forall_ge_iff fun m => (List.max?_le_iff hmax).trans (hlevels m)

/-- The text is `AND(x NOT(_))`; what is deepest in it is an unbound slot, which does not count. -/
theorem Tree.text_measured_gap :
    (wordsOf ((Op.connective .and).call
        #v[.leaf (.var ⟨"x", .bool, 0⟩), Op.not.empty]).text).countP (·.2 != ['_']) = 3 ∧
    (wordsOf ((Op.connective .and).call
        #v[.leaf (.var ⟨"x", .bool, 0⟩), Op.not.empty]).text).countP (·.2 == ['_']) = 1 ∧
    (((wordsOf ((Op.connective .and).call
        #v[.leaf (.var ⟨"x", .bool, 0⟩), Op.not.empty]).text).filter (·.2 != ['_'])).map
          fun r => level r.1).max? = some 1 := by
  have hleaf : ∀ l ∈ [Leaf.var ⟨"x", .bool, 0⟩], l.isInput ∧ l.identifier = "x" := by
    intro l hl
    rw [List.mem_singleton.mp hl]
    exact ⟨rfl, rfl⟩
  obtain ⟨hlength, hgaps, hdepth, -⟩ := text_measured
    ((Op.connective .and).call #v[.leaf (.var ⟨"x", .bool, 0⟩), Op.not.empty])
    (fun l hl => (hleaf l hl).1) (by
      intro x hx
      have hname : x.name = "x" := (hleaf _ hx).2
      rw [hname]
      simp)
  exact ⟨hlength, hgaps, hdepth⟩

end ExprTree
