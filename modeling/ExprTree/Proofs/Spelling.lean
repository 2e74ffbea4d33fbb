import Mathlib
import ExprTree.Decimal.Layout
import ExprTree.Proofs.ReadBack

/-!
# How decimals are spelled

A text is read without doubt where every part of it ends by itself: a run of digits where something comes
that is no digit, a fraction at the letter of the exponent (`StopsAt.append_inj`).

The layout of literals writes every numeral with a point or with an exponent in it. `Marked` is such a
decimal, in its parts: **the text gives back the parts** (`Marked.chars_injective`), and the parts give
back the value (`exists_marked`).
-/

set_option autoImplicit false

namespace ExprTree

/-! ## Where a run of characters ends -/

/-- A text that does not go on with characters of a class: it is over, or another one comes. -/
def StopsAt (p : Char → Bool) (r : List Char) : Prop := ∀ c ∈ r.head?, p c = false

theorem StopsAt.nil (p : Char → Bool) : StopsAt p [] := by simp [StopsAt]

theorem StopsAt.cons {p : Char → Bool} {c : Char} (h : p c = false) (r : List Char) :
    StopsAt p (c :: r) := by
  simpa [StopsAt] using h

/-- **A run of characters of a class is read in one way**, if none of them follows it. -/
theorem StopsAt.append_inj {p : Char → Bool} {xs ys r r' : List Char} (hr : StopsAt p r)
    (hr' : StopsAt p r') (hx : ∀ c ∈ xs, p c) (hy : ∀ c ∈ ys, p c) (h : xs ++ r = ys ++ r') :
    xs = ys ∧ r = r' := by
  induction xs generalizing ys with
  | nil =>
    cases ys with
    | nil => exact ⟨rfl, h⟩
    | cons y ys =>
      rw [List.nil_append] at h
      have hstop : p y = false := hr y (by simp [h])
      exact absurd (hy y List.mem_cons_self) (by simp [hstop])
  | cons x xs ih =>
    cases ys with
    | nil =>
      rw [List.nil_append] at h
      have hstop : p x = false := hr' x (by simp [← h])
      exact absurd (hx x List.mem_cons_self) (by simp [hstop])
    | cons y ys =>
      rw [List.cons_append, List.cons_append, List.cons.injEq] at h
      obtain ⟨rfl, h⟩ := h
      obtain ⟨rfl, hr⟩ := ih (fun c hc => hx c (List.mem_cons_of_mem _ hc))
        (fun c hc => hy c (List.mem_cons_of_mem _ hc)) h
      exact ⟨rfl, hr⟩

/-! ## Integers -/

/-- The characters of an integer: digits and a sign. -/
def isIntChar (c : Char) : Bool := c.isDigit || c == '-'

theorem isIntChar_of_isDigit {c : Char} (h : c.isDigit) : isIntChar c := by
  simp [isIntChar, h]

/-- The characters that literals are written with. -/
def isLiteralChar (c : Char) : Bool := c.isAlphanum || c == '.' || c == '-'

theorem isLiteralChar_of_isIntChar {c : Char} (h : isIntChar c) : isLiteralChar c := by
  rw [isIntChar, Bool.or_eq_true] at h
  rcases h with h | h
  · simp [isLiteralChar, Char.isAlphanum, h]
  · simp [isLiteralChar, h]

theorem isDigit_of_mem_natRepr {n : Nat} {c : Char} (h : c ∈ n.repr.toList) : c.isDigit := by
  rw [Nat.repr_eq_ofList_toDigits, String.toList_ofList] at h
  exact Nat.isDigit_of_mem_toDigits (by decide) (by decide) h

theorem isIntChar_of_mem_repr {n : Int} {c : Char} (h : c ∈ n.repr.toList) : isIntChar c := by
  rw [Int.repr_eq_if] at h
  split at h
  · exact isIntChar_of_isDigit (isDigit_of_mem_natRepr h)
  · rw [String.toList_append, List.mem_append] at h
    rcases h with h | h
    · obtain rfl : c = '-' := by simpa using h
      decide
    · exact isIntChar_of_isDigit (isDigit_of_mem_natRepr h)

theorem repr_ne_nil (n : Int) : n.repr.toList ≠ [] := by
  rw [Int.repr_eq_if]
  split
  · rw [Nat.repr_eq_ofList_toDigits, String.toList_ofList]
    exact Nat.toDigits_ne_nil
  · simp

namespace Decimal

open ExprTree.Binary (Format)

/-! ## Decimals with a mark -/

/-- A decimal as it is written where it must not look like an integer: digits, and then a fraction, or
    an exponent, or both. -/
structure Marked where
  whole : List Char
  fraction : List Char
  power : Option Int
  nonempty : whole ≠ []
  digits : ∀ c ∈ whole ++ fraction, c.isDigit
  mark : fraction ≠ [] ∨ power ≠ none

namespace Marked

def fractionChars (d : Marked) : List Char := if d.fraction = [] then [] else '.' :: d.fraction

def powerChars (d : Marked) : List Char := d.power.elim [] fun e => 'e' :: e.repr.toList

def chars (d : Marked) : List Char := d.whole ++ (d.fractionChars ++ d.powerChars)

def value (d : Marked) : ℚ :=
  Nat.ofDigitChars 10 (d.whole ++ d.fraction) 0 * (10 : ℚ) ^ (d.power.getD 0 - d.fraction.length)

variable {d d' : Marked}

/-- The characters of a fraction, its point included. -/
def inFraction (c : Char) : Bool := c.isDigit || c == '.'

theorem stopsAt_powerChars (d : Marked) {p : Char → Bool} (hp : p 'e' = false) :
    StopsAt p d.powerChars := by
  unfold powerChars
  cases d.power with
  | none => exact .nil _
  | some e => exact .cons hp _

theorem stopsAt_fractionChars (d : Marked) :
    StopsAt Char.isDigit (d.fractionChars ++ d.powerChars) := by
  unfold fractionChars
  split
  · exact d.stopsAt_powerChars rfl
  · exact .cons rfl _

theorem powerChars_injective (h : d.powerChars = d'.powerChars) : d.power = d'.power := by
  unfold powerChars at h
  cases hp : d.power with
  | none =>
    cases hp' : d'.power with
    | none => rfl
    | some e => simp [hp, hp'] at h
  | some e =>
    cases hp' : d'.power with
    | none => simp [hp, hp'] at h
    | some e' =>
      simp only [hp, hp', Option.elim_some, List.cons.injEq, true_and] at h
      rw [Int.repr_injective (String.toList_injective h)]

theorem fractionChars_injective (h : d.fractionChars = d'.fractionChars) :
    d.fraction = d'.fraction := by
  unfold fractionChars at h
  split at h
  · next hd =>
    split at h
    · next hd' => rw [hd, hd']
    · cases h
  · split at h
    · cases h
    · exact List.cons.inj h |>.2

theorem mem_fractionChars {c : Char} (h : c ∈ d.fractionChars) : c.isDigit ∨ c = '.' := by
  unfold fractionChars at h
  split at h
  · cases h
  · rcases List.mem_cons.mp h with h | h
    · exact Or.inr h
    · exact Or.inl (d.digits c (List.mem_append_right _ h))

/-- **A decimal is told by its text.** -/
theorem chars_injective (h : d.chars = d'.chars) : d = d' := by
  -- The digits in front end at the point or at the exponent, the fraction at the exponent.
  have hwhole := d.stopsAt_fractionChars.append_inj d'.stopsAt_fractionChars
    (fun c hc => d.digits c (List.mem_append_left _ hc))
    (fun c hc => d'.digits c (List.mem_append_left _ hc)) h
  have hrest := (d.stopsAt_powerChars (p := inFraction) rfl).append_inj (d'.stopsAt_powerChars rfl)
    (fun c hc => by simpa [inFraction] using mem_fractionChars hc)
    (fun c hc => by simpa [inFraction] using mem_fractionChars hc) hwhole.2
  have hfraction := fractionChars_injective hrest.1
  have hpower := powerChars_injective hrest.2
  cases d
  cases d'
  simp_all

theorem head?_chars (d : Marked) : ∃ c, d.chars.head? = some c ∧ c.isDigit := by
  obtain ⟨c, rest, hc⟩ := List.exists_cons_of_ne_nil d.nonempty
  refine ⟨c, by simp [chars, hc], d.digits c ?_⟩
  simp [hc]

/-- The characters of a decimal. -/
theorem mem_chars {c : Char} (h : c ∈ d.chars) : isIntChar c ∨ c = '.' ∨ c = 'e' := by
  rw [chars, List.mem_append, List.mem_append] at h
  rcases h with h | h | h
  · exact Or.inl (isIntChar_of_isDigit (d.digits c (List.mem_append_left _ h)))
  · rcases mem_fractionChars h with h | h
    · exact Or.inl (isIntChar_of_isDigit h)
    · exact Or.inr (Or.inl h)
  · unfold powerChars at h
    cases hp : d.power with
    | none => simp [hp] at h
    | some e =>
      rw [hp, Option.elim_some, List.mem_cons] at h
      rcases h with h | h
      · exact Or.inr (Or.inr h)
      · exact Or.inl (isIntChar_of_mem_repr h)

/-- A point or an exponent is there for everyone to see. -/
theorem exists_mark (d : Marked) : ∃ c ∈ d.chars, isIntChar c = false := by
  rcases d.mark with h | h
  · refine ⟨'.', ?_, rfl⟩
    simp [chars, fractionChars, h]
  · obtain ⟨e, he⟩ := Option.ne_none_iff_exists'.mp h
    refine ⟨'e', ?_, rfl⟩
    simp [chars, powerChars, he]

end Marked

/-! ## Numerals -/

structure Numeral.Proper (n : Numeral) : Prop where
  nonempty : n.digits ≠ []
  digits : ∀ c ∈ n.digits, c.isDigit

theorem Numeral.proper_ofCoefficient (c : Nat) (e : Int) : (ofCoefficient c e).Proper where
  nonempty := Nat.toDigits_ne_nil
  digits := fun _ h => Nat.isDigit_of_mem_toDigits (by decide) (by decide) h

theorem Numeral.proper_shortest (f : Format) (b : Nat) : (shortest f b).Proper := by
  unfold shortest
  split
  · exact ⟨by simp, by simp⟩
  · exact proper_ofCoefficient _ _

/-- A numeral is the decimal of the same digits, whatever zeros have been put around them. -/
theorem Marked.value_eq {d : Marked} {n : Numeral} {k : Nat}
    (hd : Nat.ofDigitChars 10 (d.whole ++ d.fraction) 0 =
      Nat.ofDigitChars 10 n.digits 0 * 10 ^ k)
    (he : n.exponent + 1 - n.digits.length = k + (d.power.getD 0 - d.fraction.length)) :
    d.value = n.value := by
  unfold value Numeral.value
  rw [hd, he, Nat.cast_mul, Nat.cast_pow, Nat.cast_ofNat, mul_assoc, ← zpow_natCast,
    ← zpow_add₀ (by simp)]

/-- Zeros before the digits. -/
def Marked.below (n : Numeral) (h : n.Proper) : Marked where
  whole := ['0']
  fraction := List.replicate (n.exponent.natAbs - 1) '0' ++ n.digits
  power := none
  nonempty := by simp
  digits := by
    intro c hc
    simp only [List.mem_append, List.mem_singleton, List.mem_replicate] at hc
    rcases hc with rfl | ⟨-, rfl⟩ | hc
    · rfl
    · rfl
    · exact h.digits c hc
  mark := Or.inl (by simp [h.nonempty])

theorem Marked.value_below {n : Numeral} (h : n.Proper) (he : n.exponent < 0) :
    (below n h).value = n.value := by
  refine value_eq (k := 0) ?_ ?_
  · simp [below, Nat.ofDigitChars_cons, Nat.ofDigitChars_append, Nat.ofDigitChars_replicate_zero]
  · simp only [below, List.length_append, List.length_replicate, Option.getD_none]
    omega

/-- Zeros after the digits. -/
def Marked.above (n : Numeral) (h : n.Proper) : Marked where
  whole := n.digits ++ List.replicate (n.exponent.natAbs + 1 - n.digits.length) '0'
  fraction := ['0']
  power := none
  nonempty := by simp [h.nonempty]
  digits := by
    intro c hc
    simp only [List.mem_append, List.mem_singleton, List.mem_replicate] at hc
    rcases hc with (hc | ⟨-, rfl⟩) | rfl
    · exact h.digits c hc
    · rfl
    · rfl
  mark := Or.inl (by simp)

theorem Marked.value_above {n : Numeral} (h : n.Proper) (he : 0 ≤ n.exponent)
    (hlen : n.digits.length ≤ n.exponent.natAbs + 1) : (above n h).value = n.value := by
  refine value_eq (k := n.exponent.natAbs + 1 - n.digits.length + 1) ?_ ?_
  · simp [above, Nat.ofDigitChars_cons, Nat.ofDigitChars_append, Nat.ofDigitChars_replicate_zero]
    ring
  · simp only [above, List.length_singleton, Option.getD_none]
    omega

/-- A point between the digits, and perhaps an exponent. -/
def Marked.between (n : Numeral) (h : n.Proper) (k : Nat) (power : Option Int) (hk : 0 < k)
    (mark : k < n.digits.length ∨ power ≠ none) : Marked where
  whole := n.digits.take k
  fraction := n.digits.drop k
  power := power
  nonempty := by simp [h.nonempty, Nat.ne_of_gt hk]
  digits := by
    intro c hc
    rw [List.take_append_drop] at hc
    exact h.digits c hc
  mark := by simpa using mark

theorem Marked.value_between {n : Numeral} (h : n.Proper) {k : Nat} {power : Option Int}
    (hk : 0 < k) (mark : k < n.digits.length ∨ power ≠ none) (hle : k ≤ n.digits.length)
    (he : n.exponent + 1 = k + power.getD 0) : (between n h k power hk mark).value = n.value := by
  refine value_eq (k := 0) ?_ ?_
  · simp [between]
  · simp only [between, List.length_drop]
    omega

/-- **The layout of literals writes a numeral as a decimal with a mark**, of the same value. -/
theorem exists_marked {n : Numeral} (h : n.Proper) :
    ∃ d : Marked, literal.numeralText n = d.chars ∧ d.value = n.value := by
  have hlen : 0 < n.digits.length := List.length_pos_iff.mpr h.nonempty
  unfold Layout.numeralText
  split
  · unfold positionalText
    split
    · next he =>
      refine ⟨.below n h, ?_, Marked.value_below h he⟩
      simp [Marked.chars, Marked.fractionChars, Marked.powerChars, Marked.below, h.nonempty]
    · next he =>
      simp only
      split
      · next hle =>
        refine ⟨.above n h, ?_, Marked.value_above h (by omega) hle⟩
        simp [Marked.chars, Marked.fractionChars, Marked.powerChars, Marked.above, literal]
      · next hlt =>
        have hlt : n.exponent.natAbs + 1 < n.digits.length := by omega
        refine ⟨.between n h (n.exponent.natAbs + 1) none (Nat.succ_pos _) (Or.inl hlt), ?_, ?_⟩
        · simp [Marked.chars, Marked.fractionChars, Marked.powerChars, Marked.between, hlt]
        · exact Marked.value_between h _ _ (Nat.le_of_lt hlt)
            (by rw [Option.getD_none]; omega)
  · refine ⟨.between n h 1 (some n.exponent) Nat.one_pos (Or.inr (by simp)), ?_, ?_⟩
    · simp [exponentText, Marked.chars, Marked.fractionChars, Marked.powerChars, Marked.between]
    · exact Marked.value_between h _ _ hlen (by simp; omega)

end Decimal

end ExprTree
