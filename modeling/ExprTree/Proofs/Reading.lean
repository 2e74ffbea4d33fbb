import ExprTree.Proofs.Literals
import ExprTree.Proofs.Replacement
import ExprTree.Proofs.Soundness
import ExprTree.Proofs.Visits
import ExprTree.Tree.Text

/-!
# The text of a tree is read in one way

Identifiers are words without blanks and parentheses. So a word ends where the first of these comes: a
`(` says that the word was an operator, and a blank or a `)` that it was a leaf or an unbound slot. Which
slots a node has is seen from the blanks on its own level, since the text of each slot ends by itself.

That is the whole of the proof, by induction over the tree: **if the texts of two trees are equal, also
as beginnings of longer texts, then the trees have the same labels at all places**
(`Tree.readable`), a label being the identifier with the slots that are bound. What a label does not
show is the configuration of an operator, and which words a float is made of that is no number. The value
behind an identifier it shows where the identifier is a literal's.
-/

set_option autoImplicit false

namespace ExprTree

/-! ## Words -/

/-- The characters that end a word. -/
def isBreak (c : Char) : Bool := c == ' ' || c == '(' || c == ')'

def isWordChar (c : Char) : Bool := !isBreak c

/-- Such a text comes after a leaf or a slot: it is over, or goes on with a blank or a parenthesis that
    closes. -/
def Ends (r : List Char) : Prop := ∀ c ∈ r.head?, c = ' ' ∨ c = ')'

theorem Ends.stopsAt {r : List Char} (h : Ends r) : StopsAt isWordChar r := by
  intro c hc
  rcases h c hc with rfl | rfl
  · rfl
  · rfl

theorem Ends.not_open {cs : List Char} : ¬ Ends ('(' :: cs) := by
  intro h
  exact absurd (h '(' rfl) (by decide)

/-- The identifier is a word, and not the one that stands for an unbound slot. -/
structure IsWord (s : String) : Prop where
  chars : ∀ c ∈ s.toList, isWordChar c
  ne_unbound : s ≠ "_"

theorem Op.isWord_symbol (o : Op) : IsWord o.symbol := by
  have hall : o.symbol.toList.all isWordChar = true ∧ o.symbol ≠ "_" := by
    cases o with
    | connective c => cases c <;> decide
    | arith a => cases a <;> decide
    | unary u => cases u <;> decide
    | real f => cases f <;> decide
    | compare c => cases c <;> decide
    | not | xor | choose => decide
    | divide p =>
      have hword : "PDIV".toList.all isWordChar = true ∧ "PDIV" ≠ "_" := by decide
      exact hword
  exact ⟨List.all_eq_true.mp hall.1, hall.2⟩

theorem isWordChar_of_isLiteralChar {c : Char} (h : isLiteralChar c) : isWordChar c := by
  unfold isWordChar isBreak
  rw [Bool.not_eq_true', Bool.or_eq_false_iff, Bool.or_eq_false_iff]
  refine ⟨⟨?_, ?_⟩, ?_⟩ <;>
  · rw [beq_eq_false_iff_ne]
    rintro rfl
    exact absurd h (by decide)

theorem Value.isWord_literalText (v : Value) : IsWord v.literalText where
  chars := fun _ hc => isWordChar_of_isLiteralChar (isLiteralChar_of_mem hc)
  ne_unbound := by
    intro h
    have hmem : '_' ∈ v.literalText.toList := by rw [h]; decide
    exact absurd (isLiteralChar_of_mem hmem) (by decide)

def Tree.Legible (t : Tree) : Prop := ∀ l ∈ t.leaves, IsWord l.identifier

theorem Tree.Legible.slot {o : Op} {slots : Slots o.arity} {i : Nat} {u : Tree}
    (h : (Tree.node o slots).Legible) (hu : slots.get? i = some u) : u.Legible :=
  fun l hl => h l (mem_leaves_node hu hl)

theorem Tree.Legible.isWord {t : Tree} (h : t.Legible) : IsWord t.identifier := by
  cases t with
  | leaf l => exact h l (by simp)
  | node o slots => exact o.isWord_symbol

/-! ## The text of a row -/

def slotText (c : Option Tree) : String := c.elim "_" Tree.text

theorem Slots.texts_eq {n : Nat} (s : Slots n) : s.texts = s.toList.map slotText := by
  cases s with
  | nil =>
    rw [texts]
    rfl
  | unbound rest =>
    rw [texts, texts_eq rest]
    rfl
  | bound t rest =>
    rw [texts, texts_eq rest]
    rfl

/-- The texts of the slots, a blank before each. -/
def rowChars (cs : List (Option Tree)) : List Char := cs.flatMap fun c => ' ' :: (slotText c).toList

theorem rowChars_cons (c : Option Tree) (cs : List (Option Tree)) :
    rowChars (c :: cs) = ' ' :: ((slotText c).toList ++ rowChars cs) := by
  simp [rowChars]

theorem cons_intercalate (c : Option Tree) (cs : List (Option Tree)) :
    ' ' :: (" ".intercalate ((c :: cs).map slotText)).toList = rowChars (c :: cs) := by
  induction cs generalizing c with
  | nil => simp [rowChars]
  | cons c' cs ih =>
    rw [rowChars_cons, ← ih c']
    simp

theorem Tree.toList_text_node (o : Op) (slots : Slots o.arity) :
    ∃ body, (Tree.node o slots).text.toList = o.symbol.toList ++ '(' :: (body ++ [')']) ∧
      ' ' :: body = rowChars slots.toList := by
  have hne : slots.toList ≠ [] := by
    rw [← List.length_pos_iff, slots.length_toList]
    exact o.arity_pos
  obtain ⟨c, cs, hcs⟩ := List.exists_cons_of_ne_nil hne
  refine ⟨(" ".intercalate slots.texts).toList, ?_, ?_⟩
  · simp [text]
  · rw [slots.texts_eq, hcs, cons_intercalate]

/-! ## Labels -/

/-- What the text shows of the root: its identifier, and which of its slots are bound. -/
def Tree.label (t : Tree) : String × List Bool := (t.identifier, t.children.map Option.isSome)

/-- The slots hold trees with the same labels at all places, or neither holds a tree. -/
def SameSlot (c c' : Option Tree) : Prop :=
  ∀ p, (c.bind fun u => u.at? p).map Tree.label = (c'.bind fun u => u.at? p).map Tree.label

def Tree.SameLabels (t t' : Tree) : Prop := ∀ p, (t.at? p).map label = (t'.at? p).map label

theorem SameSlot.isSome_eq {c c' : Option Tree} (h : SameSlot c c') : c.isSome = c'.isSome := by
  have hroot := h []
  cases c <;> cases c' <;> first | rfl | cases hroot

theorem map_isSome_of_sameSlot {cs cs' : List (Option Tree)} (h : List.Forall₂ SameSlot cs cs') :
    cs.map Option.isSome = cs'.map Option.isSome := by
  induction h with
  | nil => rfl
  | cons hc _ ih => rw [List.map_cons, List.map_cons, hc.isSome_eq, ih]

theorem sameSlot_getElem? {cs cs' : List (Option Tree)} (h : List.Forall₂ SameSlot cs cs')
    (i : Nat) : SameSlot cs[i]?.join cs'[i]?.join := by
  induction h generalizing i with
  | nil => exact fun _ => rfl
  | cons hc _ ih =>
    cases i with
    | zero => exact hc
    | succ i => exact ih i

theorem Tree.sameLabels_leaf {l l' : Leaf} (h : l.identifier = l'.identifier) :
    (Tree.leaf l).SameLabels (.leaf l') := by
  intro p
  cases p with
  | nil => simp [label, identifier, children, h]
  | cons i p => rfl

theorem Tree.sameLabels_node {o o' : Op} {slots : Slots o.arity} {slots' : Slots o'.arity}
    (h : o.symbol = o'.symbol) (hrow : List.Forall₂ SameSlot slots.toList slots'.toList) :
    (Tree.node o slots).SameLabels (.node o' slots') := by
  intro p
  cases p with
  | nil => simp [label, identifier, children, h, map_isSome_of_sameSlot hrow]
  | cons i p =>
    have hslot := sameSlot_getElem? hrow i
    rw [slots.getElem?_toList, slots'.getElem?_toList] at hslot
    exact hslot p

/-! ## Reading -/

/-- The text of the tree is read in one way: whatever tree and continuation give the same text, the tree
    has the same labels and the continuation is the same. -/
def Tree.Readable (t : Tree) : Prop := ∀ (t' : Tree) (r r' : List Char), t'.Legible → Ends r →
  Ends r' → t.text.toList ++ r = t'.text.toList ++ r' → t.SameLabels t' ∧ r = r'

/-- A tree begins with the word of its root. -/
theorem Tree.exists_toList_text (t : Tree) (h : t.Legible) {r : List Char} (hr : Ends r) :
    ∃ rest, t.text.toList ++ r = t.identifier.toList ++ rest ∧ StopsAt isWordChar rest := by
  cases t with
  | leaf l => exact ⟨r, by rw [text]; rfl, hr.stopsAt⟩
  | node o slots =>
    obtain ⟨body, htext, -⟩ := toList_text_node o slots
    refine ⟨'(' :: (body ++ ')' :: r), ?_, .cons rfl _⟩
    rw [htext]
    simp [identifier]

/-- What stands for an unbound slot is not mistaken for a tree. -/
theorem Tree.ne_unbound_text {t : Tree} (h : t.Legible) {r r' : List Char} (hr : Ends r)
    (hr' : Ends r') : '_' :: r ≠ t.text.toList ++ r' := by
  intro he
  obtain ⟨rest, htext, hrest⟩ := t.exists_toList_text h hr'
  rw [htext] at he
  have hunbound : ∀ c ∈ ['_'], isWordChar c := by simp [isWordChar, isBreak]
  obtain ⟨hword, -⟩ := hr.stopsAt.append_inj hrest hunbound h.isWord.chars he
  exact h.isWord.ne_unbound (String.toList_injective hword.symm)

/-- The texts of slots are read in one way, if those of the trees in them are. -/
theorem slotText_append_inj {c c' : Option Tree} {r r' : List Char}
    (below : ∀ u, c = some u → u.Legible ∧ u.Readable) (below' : ∀ u, c' = some u → u.Legible)
    (hr : Ends r) (hr' : Ends r')
    (h : (slotText c).toList ++ r = (slotText c').toList ++ r') : SameSlot c c' ∧ r = r' := by
  cases c with
  | none =>
    cases c' with
    | none => exact ⟨fun _ => rfl, List.append_cancel_left h⟩
    | some u' => exact absurd h (Tree.ne_unbound_text (below' u' rfl) hr hr')
  | some u =>
    cases c' with
    | none => exact absurd h.symm (Tree.ne_unbound_text (below u rfl).1 hr' hr)
    | some u' => exact (below u rfl).2 u' r r' (below' u' rfl) hr hr' h

theorem ends_rowChars (cs : List (Option Tree)) (r : List Char) :
    Ends (rowChars cs ++ ')' :: r) := by
  intro c hc
  cases cs with
  | nil =>
    cases hc
    exact Or.inr rfl
  | cons c' cs =>
    rw [rowChars_cons] at hc
    cases hc
    exact Or.inl rfl

/-- **A row is read slot by slot**, up to the parenthesis that closes it. -/
theorem rowChars_append_inj {cs cs' : List (Option Tree)} {r r' : List Char}
    (below : ∀ u, some u ∈ cs → u.Legible ∧ u.Readable) (below' : ∀ u, some u ∈ cs' → u.Legible)
    (h : rowChars cs ++ ')' :: r = rowChars cs' ++ ')' :: r') :
    List.Forall₂ SameSlot cs cs' ∧ r = r' := by
  induction cs generalizing cs' with
  | nil =>
    cases cs' with
    | nil => exact ⟨.nil, (List.cons.inj h).2⟩
    | cons c' cs' =>
      rw [rowChars_cons] at h
      exact absurd (List.cons.inj h).1 (by decide)
  | cons c cs ih =>
    cases cs' with
    | nil =>
      rw [rowChars_cons] at h
      exact absurd (List.cons.inj h).1 (by decide)
    | cons c' cs' =>
      rw [rowChars_cons, rowChars_cons, List.cons_append, List.cons_append, List.append_assoc,
        List.append_assoc] at h
      obtain ⟨hslot, hrest⟩ := slotText_append_inj
        (fun u hu => below u (hu ▸ List.mem_cons_self))
        (fun u hu => below' u (hu ▸ List.mem_cons_self))
        (ends_rowChars cs r) (ends_rowChars cs' r') (List.cons.inj h).2
      obtain ⟨hrow, hr⟩ := ih (fun u hu => below u (List.mem_cons_of_mem _ hu))
        (fun u hu => below' u (List.mem_cons_of_mem _ hu)) hrest
      exact ⟨.cons hslot hrow, hr⟩

/-- **The text of a tree is read in one way**, also where it goes on. -/
theorem Tree.readable {t : Tree} (legible : t.Legible) : t.Readable := by
  induction t using Tree.byNode with
  | leaf l =>
    intro t' r r' legible' hr hr' h
    cases t' with
    | leaf l' =>
      rw [text, text] at h
      obtain ⟨hword, hrest⟩ := hr.stopsAt.append_inj hr'.stopsAt legible.isWord.chars
        legible'.isWord.chars h
      exact ⟨sameLabels_leaf (String.toList_injective hword), hrest⟩
    | node o' slots' =>
      obtain ⟨body', htext', -⟩ := toList_text_node o' slots'
      rw [text, htext', List.append_assoc] at h
      -- An operator is followed by a parenthesis that opens, which a leaf never is.
      obtain ⟨-, hrest⟩ := hr.stopsAt.append_inj (.cons rfl _) legible.isWord.chars
        o'.isWord_symbol.chars h
      rw [hrest] at hr
      exact absurd hr Ends.not_open
  | node o slots ih =>
    intro t' r r' legible' hr hr' h
    obtain ⟨body, htext, hbody⟩ := toList_text_node o slots
    cases t' with
    | leaf l' =>
      rw [text, htext, List.append_assoc] at h
      obtain ⟨-, hrest⟩ := StopsAt.append_inj (.cons rfl _) hr'.stopsAt o.isWord_symbol.chars
        legible'.isWord.chars h
      rw [← hrest] at hr'
      exact absurd hr' Ends.not_open
    | node o' slots' =>
      obtain ⟨body', htext', hbody'⟩ := toList_text_node o' slots'
      rw [htext, htext', List.append_assoc, List.append_assoc] at h
      obtain ⟨hword, hrest⟩ := StopsAt.append_inj (.cons rfl _) (.cons rfl _)
        o.isWord_symbol.chars o'.isWord_symbol.chars h
      -- With a blank before its first slot too, a row is the same thing over and over.
      have hrow : rowChars slots.toList ++ ')' :: r = rowChars slots'.toList ++ ')' :: r' := by
        rw [← hbody, ← hbody']
        simpa using hrest
      have below : ∀ u, some u ∈ slots.toList → u.Legible ∧ u.Readable := by
        intro u hu
        obtain ⟨i, hi⟩ := Slots.exists_get?_of_mem hu
        exact ⟨legible.slot hi, ih i u hi (legible.slot hi)⟩
      have below' : ∀ u, some u ∈ slots'.toList → u.Legible := by
        intro u hu
        obtain ⟨i, hi⟩ := Slots.exists_get?_of_mem hu
        exact legible'.slot hi
      obtain ⟨hslots, hr⟩ := rowChars_append_inj below below' hrow
      exact ⟨sameLabels_node (String.toList_injective hword) hslots, hr⟩

/-! ## What labels show -/

theorem Op.ofSymbol?_symbol (o : Op) : ofSymbol? o.symbol = some o.plain := by
  cases o with
  | connective c => cases c <;> rfl
  | arith a => cases a <;> rfl
  | unary u => cases u <;> rfl
  | real f => cases f <;> rfl
  | compare c => cases c <;> rfl
  | not | xor | divide | choose => rfl

/-- Operators of one symbol are one operator, up to their configuration. -/
theorem Op.plain_eq_of_symbol_eq {o o' : Op} (h : o.symbol = o'.symbol) : o.plain = o'.plain := by
  apply Option.some.inj
  rw [← o.ofSymbol?_symbol, h, o'.ofSymbol?_symbol]

open Binary in
/-- The number with one word for all that is no number. -/
def Number.plain : Number → Number
  | f64 x =>
    f64 (if double.infinity < double.magnitude (wordOfDouble x) then doubleOfWord double.nan else x)
  | f32 x =>
    f32 (if single.infinity < single.magnitude (wordOfSingle x) then singleOfWord single.nan else x)
  | i64 n => i64 n
  | i32 n => i32 n

theorem Number.plain_eq_of_isNaN {x y : Number} (hty : x.ty = y.ty) (hx : x.IsNaN) (hy : y.IsNaN) :
    x.plain = y.plain := by
  cases x with
  | f64 x =>
    cases y with
    | f64 y => exact congrArg f64 ((if_pos hx).trans (if_pos hy).symm)
    | f32 | i64 | i32 => cases hty
  | f32 x =>
    cases y with
    | f32 y => exact congrArg f32 ((if_pos hx).trans (if_pos hy).symm)
    | f64 | i64 | i32 => cases hty
  | i64 | i32 => exact hx.elim

/-- The leaf with one word for a literal that is no number. -/
def Leaf.plain : Leaf → Leaf
  | literal (.num x) => literal (.num x.plain)
  | literal (.bool a) => literal (.bool a)
  | var x => var x
  | probe p => probe p

/-- Literals of one text are one literal, up to words that are no number. -/
theorem Leaf.plain_eq_of_literalText_eq {v w : Value} (h : v.literalText = w.literalText) :
    (literal v).plain = (literal w).plain := by
  rcases (v.literalText_eq_iff w).mp h with rfl | ⟨hty, hv, hw⟩
  · rfl
  · cases v with
    | bool a => exact hv.elim
    | num x =>
      cases w with
      | bool b => exact hw.elim
      | num y =>
        have hplain := Number.plain_eq_of_isNaN (Ty.num.inj hty) hv hw
        rw [plain, plain, hplain]

/-- A label tells an operator from a leaf. -/
theorem Tree.label_leaf_ne_node {l : Leaf} {o : Op} {slots : Slots o.arity} :
    (Tree.leaf l).label ≠ (Tree.node o slots).label := by
  intro h
  have hlen : ([] : List Bool).length = (slots.toList.map Option.isSome).length :=
    congrArg (fun label => label.2.length) h
  rw [List.length_map, slots.length_toList] at hlen
  exact absurd hlen (Nat.ne_of_lt o.arity_pos)

/-- Where the leaves are literals, labels show all but the configuration of operators and the word of
    what is no number. -/
theorem Tree.root_eq_of_label_eq {t t' : Tree} (ht : ∀ l, t = .leaf l → ∃ v, l = .literal v)
    (ht' : ∀ l, t' = .leaf l → ∃ v, l = .literal v) (h : t.label = t'.label) :
    t.root.map Leaf.plain Op.plain = t'.root.map Leaf.plain Op.plain := by
  cases t with
  | leaf l =>
    cases t' with
    | leaf l' =>
      obtain ⟨v, rfl⟩ := ht l rfl
      obtain ⟨w, rfl⟩ := ht' l' rfl
      exact congrArg Sum.inl (Leaf.plain_eq_of_literalText_eq (congrArg Prod.fst h))
    | node o' slots' => exact absurd h label_leaf_ne_node
  | node o slots =>
    cases t' with
    | leaf l' => exact absurd h.symm label_leaf_ne_node
    | node o' slots' => exact congrArg Sum.inr (Op.plain_eq_of_symbol_eq (congrArg Prod.fst h))

/-- **The prefix form is uniquely readable.** Two trees over literals and variables, complete or not, in
    which no variable has a name that could be taken for something else, have one text only if they have
    the same labels at all places: the same shape, the same identifiers, the same slots and of these
    the same unbound. If moreover their leaves are literals, the trees differ in nothing but what the
    protected divisions give for a zero divisor and the bits of literals that are no number. -/
theorem Tree.text_unambiguous (t t' : Tree)
    (inputs : ∀ l ∈ t.leaves ++ t'.leaves, l.isInput)
    (names : ∀ x, .var x ∈ t.leaves ++ t'.leaves →
      (∀ c ∈ x.name.toList, c ∉ [' ', '(', ')']) ∧ x.name ≠ "_")
    (same : t.text = t'.text) :
    (∀ p, (t.at? p).map label = (t'.at? p).map label) ∧
    ((∀ l ∈ t.leaves ++ t'.leaves, ∃ v, l = .literal v) →
      ∀ p, (t.at? p).map (fun u => u.root.map Leaf.plain Op.plain) =
        (t'.at? p).map fun u => u.root.map Leaf.plain Op.plain) := by
  have isWord : ∀ l ∈ t.leaves ++ t'.leaves, IsWord l.identifier := by
    intro l hl
    cases l with
    | literal v => exact v.isWord_literalText
    | var x =>
      obtain ⟨hchars, hname⟩ := names x hl
      refine ⟨?_, hname⟩
      intro c hc
      simpa [isWordChar, isBreak, and_assoc] using hchars c hc
    | probe q => exact absurd (inputs _ hl) (by simp [Leaf.isInput])
  have legible : t.Legible := fun l hl => isWord l (List.mem_append_left _ hl)
  have legible' : t'.Legible := fun l hl => isWord l (List.mem_append_right _ hl)
  -- Neither text goes on.
  have labels : t.SameLabels t' :=
    (readable legible t' [] [] legible' (by simp [Ends]) (by simp [Ends]) (by rw [same])).1
  refine ⟨labels, ?_⟩
  intro literals p
  have hp := labels p
  cases hu : t.at? p with
  | none =>
    cases hu' : t'.at? p with
    | none => rfl
    | some u' =>
      rw [hu, hu'] at hp
      cases hp
  | some u =>
    cases hu' : t'.at? p with
    | none =>
      rw [hu, hu'] at hp
      cases hp
    | some u' =>
      rw [hu, hu'] at hp
      refine congrArg some (root_eq_of_label_eq ?_ ?_ (Option.some.inj hp))
      · rintro l rfl
        exact literals l (List.mem_append_left _ (mem_leaves_of_at? hu))
      · rintro l rfl
        exact literals l (List.mem_append_right _ (mem_leaves_of_at? hu'))

/-- Two variables of one name make one text, `ADD(x _)`, and so do two divisions that differ in what
    they give for a zero divisor, `PDIV(1i64 true)`. -/
theorem Tree.text_unambiguous_pdiv :
    (Tree.node (.arith .add) (Slots.bound (.leaf (.var ⟨"x", .bool, 0⟩)) (.unbound .nil))).SameLabels
      (Tree.node (.arith .add) (Slots.bound (.leaf (.var ⟨"x", .bool, 1⟩)) (.unbound .nil))) ∧
    ∀ p, (((Op.divide (Binary.doubleOfWord 0)).call #v[.leaf (.literal (.num (.i64 1))),
        .leaf (.literal (.bool true))]).at? p).map (fun u => u.root.map Leaf.plain Op.plain) =
      (((Op.divide (Binary.doubleOfWord 1)).call #v[.leaf (.literal (.num (.i64 1))),
        .leaf (.literal (.bool true))]).at? p).map fun u => u.root.map Leaf.plain Op.plain := by
  constructor
  · have hleaves : ∀ l ∈ [Leaf.var ⟨"x", .bool, 0⟩, .var ⟨"x", .bool, 1⟩],
        l.isInput ∧ l.identifier = "x" := by
      intro l hl
      rcases List.mem_cons.mp hl with rfl | hl
      · exact ⟨rfl, rfl⟩
      · rw [List.mem_singleton.mp hl]
        exact ⟨rfl, rfl⟩
    refine (text_unambiguous _ _ ?_ ?_ ?_).1
    · intro l hl
      exact (hleaves l hl).1
    · intro x hx
      have hname : x.name = "x" := (hleaves _ hx).2
      rw [hname]
      simp
    · rfl
  · have hleaves : ∀ l ∈ [Leaf.literal (.num (.i64 1)), .literal (.bool true),
        .literal (.num (.i64 1)), .literal (.bool true)], ∃ v, l = .literal v := by
      simp
    refine (text_unambiguous _ _ ?_ ?_ ?_).2 hleaves
    · intro l hl
      obtain ⟨v, rfl⟩ := hleaves l hl
      rfl
    · intro x hx
      obtain ⟨v, hv⟩ := hleaves _ hx
      cases hv
    · rfl

end ExprTree
