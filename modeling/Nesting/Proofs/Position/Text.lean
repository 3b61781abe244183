import Mathlib.Data.List.Induction
import Mathlib.Data.List.TakeWhile
import Mathlib.Data.Nat.Digits.Defs
import Nesting.Position.Text

/-!
# What is read as a position

A pair of words is two numerals with one other character between them, whatever that character is.
The numerals are described here by their decimal places, and reading is shown to accept exactly
these texts. The text of a position is one of them, so that it is read back.
-/

namespace Nesting

/-! ## 1. Numerals -/

/-- One of the ten characters from `0` to `9`. -/
def IsDecimal (c : Char) : Prop :=
  '0' ≤ c ∧ c ≤ '9'

instance (c : Char) : Decidable (IsDecimal c) :=
  inferInstanceAs (Decidable (_ ∧ _))

/-- The last digit counts ones, the one before it tens, and so on. -/
def decimalValue (digits : List Char) : Nat :=
  Nat.ofDigits 10 (digits.reverse.map fun c => c.toNat - '0'.toNat)

/-- A non-empty run of digits that stands for `n`, with or without leading zeros. -/
structure IsNumeral (digits : List Char) (n : Nat) : Prop where
  nonempty : digits ≠ []
  decimal : ∀ c ∈ digits, IsDecimal c
  value : decimalValue digits = n

/-- Two numerals with one character between them that is no digit. -/
def WritesPair (text : String) (a b : Nat) : Prop :=
  ∃ first separator second, text.toList = first ++ separator :: second ∧
    IsNumeral first a ∧ ¬ IsDecimal separator ∧ IsNumeral second b

section

variable {c : Char} {digits : List Char} {n : Nat}

theorem isDigit_iff_isDecimal : c.isDigit = true ↔ IsDecimal c := by
  unfold Char.isDigit IsDecimal
  rw [Bool.and_eq_true, decide_eq_true_iff, decide_eq_true_iff]
  exact Iff.rfl

theorem isDigit_eq_false (h : ¬ IsDecimal c) : c.isDigit = false :=
  Bool.eq_false_iff.mpr fun hdigit => h (isDigit_iff_isDecimal.mp hdigit)

theorem IsNumeral.isDigit (h : IsNumeral digits n) : ∀ c ∈ digits, c.isDigit = true :=
  fun c hc => isDigit_iff_isDecimal.mpr (h.decimal c hc)

-- From the right end, where reading on multiplies what was read by ten.
theorem ofDigitChars_eq_decimalValue (digits : List Char) :
    Nat.ofDigitChars 10 digits 0 = decimalValue digits := by
  induction digits using List.reverseRecOn with
  | nil => rfl
  | append_singleton digits c ih =>
    rw [Nat.ofDigitChars_append, ih, Nat.ofDigitChars_cons, Nat.ofDigitChars_nil]
    unfold decimalValue
    rw [List.reverse_concat, List.map_cons, Nat.ofDigits_cons]
    omega

theorem readWord?_eq_some_iff :
    readWord? digits = some n ↔ IsNumeral digits n ∧ n < Word.limit := by
  unfold readWord?
  rw [ofDigitChars_eq_decimalValue]
  by_cases hshape : digits ≠ [] ∧ digits.all Char.isDigit
  · have hdecimal : ∀ c ∈ digits, IsDecimal c := fun c hc =>
      isDigit_iff_isDecimal.mp (List.all_eq_true.mp hshape.2 c hc)
    rw [if_pos hshape]
    by_cases hfits : decimalValue digits < Word.limit
    · rw [if_pos hfits, Option.some.injEq]
      refine ⟨fun heq => ⟨⟨hshape.1, hdecimal, heq⟩, heq ▸ hfits⟩, fun h => h.1.value⟩
    · rw [if_neg hfits]
      refine ⟨fun h => (by cases h), fun ⟨hn, hlt⟩ => ?_⟩
      rw [hn.value] at hfits
      exact absurd hlt hfits
  · rw [if_neg hshape]
    refine ⟨fun h => (by cases h), fun ⟨hn, _⟩ => ?_⟩
    exact absurd ⟨hn.nonempty, List.all_eq_true.mpr hn.isDigit⟩ hshape

-- Every number is written as a numeral.
theorem isNumeral_repr (n : Nat) : IsNumeral (Nat.repr n).toList n := by
  rw [Nat.toList_repr]
  refine ⟨Nat.toDigits_ne_nil, ?_, ?_⟩
  · intro c hc
    apply isDigit_iff_isDecimal.mp
    exact Nat.isDigit_of_mem_toDigits (by decide) (by decide) hc
  · rw [← ofDigitChars_eq_decimalValue]
    exact Nat.ofDigitChars_ten_toDigits

end

/-! ## 2. Pairs of words -/

section

variable {text : String} {first second : List Char} {separator : Char} {a b : Nat}

-- The first numeral ends at the first character that is no digit.
theorem readPair?_of_toList (htext : text.toList = first ++ separator :: second)
    (hfirst : ∀ c ∈ first, c.isDigit = true) (hseparator : separator.isDigit = false) :
    readPair? text =
      (readWord? first).bind fun a => (readWord? second).bind fun b => some (a, b) := by
  have hstop : ¬ separator.isDigit = true := by
    rw [hseparator]
    exact Bool.false_ne_true
  unfold readPair?
  rw [htext, List.dropWhile_append_of_pos hfirst, List.dropWhile_cons_of_neg hstop,
    List.takeWhile_append_of_pos hfirst, List.takeWhile_cons_of_neg hstop, List.append_nil]
  rfl

theorem exists_separator (h : text.toList.dropWhile Char.isDigit ≠ []) :
    ∃ first separator second, text.toList = first ++ separator :: second ∧
      (∀ c ∈ first, c.isDigit = true) ∧ separator.isDigit = false := by
  refine ⟨text.toList.takeWhile Char.isDigit, (text.toList.dropWhile Char.isDigit).head h,
    (text.toList.dropWhile Char.isDigit).tail, ?_, fun c hc => List.mem_takeWhile_imp hc,
    List.head_dropWhile_not Char.isDigit h⟩
  rw [List.cons_head_tail, List.takeWhile_append_dropWhile]

theorem readPair?_eq_some_iff :
    readPair? text = some (a, b) ↔ WritesPair text a b ∧ a < Word.limit ∧ b < Word.limit := by
  constructor
  · intro h
    have hsome : text.toList.dropWhile Char.isDigit ≠ [] := by
      intro hnil
      unfold readPair? at h
      rw [hnil] at h
      cases h
    obtain ⟨first, separator, second, htext, hfirst, hseparator⟩ := exists_separator hsome
    rw [readPair?_of_toList htext hfirst hseparator, Option.bind_eq_some_iff] at h
    obtain ⟨a', ha, h⟩ := h
    rw [Option.bind_eq_some_iff] at h
    obtain ⟨b', hb, h⟩ := h
    cases h
    rw [readWord?_eq_some_iff] at ha hb
    refine ⟨⟨first, separator, second, htext, ha.1, ?_, hb.1⟩, ha.2, hb.2⟩
    rw [← isDigit_iff_isDecimal, hseparator]
    exact Bool.false_ne_true
  · rintro ⟨⟨first, separator, second, htext, ha, hseparator, hb⟩, hfitsa, hfitsb⟩
    rw [readPair?_of_toList htext ha.isDigit (isDigit_eq_false hseparator),
      readWord?_eq_some_iff.mpr ⟨ha, hfitsa⟩, readWord?_eq_some_iff.mpr ⟨hb, hfitsb⟩]
    rfl

end

/-! ## 3. Positions -/

namespace Position

variable {text : String} {p : Position}

-- Either a pair of words is read and both are at least one, or the text is refused.
theorem parse_cases (text : String) :
    (∃ p : Position, readPair? text = some (p.line, p.column) ∧ (1 ≤ p.line ∧ 1 ≤ p.column) ∧
      parse text = .ok p) ∨
    ((∀ p : Position, readPair? text = some (p.line, p.column) →
      ¬ (1 ≤ p.line ∧ 1 ≤ p.column)) ∧ parse text = .error (.invalidPosition text)) := by
  unfold parse
  cases hpair : readPair? text with
  | none => exact Or.inr ⟨fun p hp => (by cases hp), rfl⟩
  | some pair =>
    obtain ⟨line, column⟩ := pair
    by_cases hone : 1 ≤ line ∧ 1 ≤ column
    · exact Or.inl ⟨⟨line, column⟩, rfl, hone, if_pos hone⟩
    · refine Or.inr ⟨?_, if_neg hone⟩
      intro p hp
      cases hp
      exact hone

theorem parse_eq_ok_iff :
    parse text = .ok p ↔ readPair? text = some (p.line, p.column) ∧ 1 ≤ p.line ∧ 1 ≤ p.column := by
  rcases parse_cases text with ⟨q, hpair, hone, hparse⟩ | ⟨hnone, hparse⟩
  · rw [hparse, hpair]
    constructor
    · intro h
      cases h
      exact ⟨rfl, hone⟩
    · rintro ⟨h, -⟩
      rw [Option.some.injEq, Prod.mk.injEq] at h
      rw [Position.eq_iff.mpr h]
  · rw [hparse]
    refine ⟨fun h => (by cases h), fun ⟨hpair, hone⟩ => ?_⟩
    exact absurd hone (hnone p hpair)

theorem parse_eq_error (h : ∀ p, parse text ≠ .ok p) :
    parse text = .error (.invalidPosition text) := by
  rcases parse_cases text with ⟨q, -, -, hparse⟩ | ⟨-, hparse⟩
  · exact absurd hparse (h q)
  · exact hparse

theorem toList_text (p : Position) :
    p.text.toList = (Nat.repr p.line).toList ++ '.' :: (Nat.repr p.column).toList := by
  unfold text
  rw [String.toList_append, String.toList_append, List.append_assoc]
  rfl

theorem writesPair_text (p : Position) : WritesPair p.text p.line p.column :=
  ⟨_, '.', _, p.toList_text, isNumeral_repr _, by decide, isNumeral_repr _⟩

/-- **Texts of positions.** A text is read as two words exactly if it is two numerals that fit a
word with one character between them that is no digit, and as a position exactly if both words are
also at least one. Any other text is refused as it stands. The text of a position is read back. -/
theorem parse_reads_two_numerals :
    (∀ text a b, readPair? text = some (a, b) ↔
      WritesPair text a b ∧ a < Nat.pow 2 64 ∧ b < Nat.pow 2 64) ∧
    (∀ text p, parse text = .ok p ↔
      (WritesPair text p.line p.column ∧ p.line < Nat.pow 2 64 ∧ p.column < Nat.pow 2 64) ∧
        1 ≤ p.line ∧ 1 ≤ p.column) ∧
    (∀ text, (∀ p, parse text ≠ .ok p) → parse text = .error (.invalidPosition text)) ∧
    ∀ p : Position, 1 ≤ p.line → 1 ≤ p.column →
      p.line < Nat.pow 2 64 → p.column < Nat.pow 2 64 → parse p.text = .ok p := by
  refine ⟨fun text a b => readPair?_eq_some_iff, fun text p => ?_, fun text => parse_eq_error, ?_⟩
  · rw [parse_eq_ok_iff, readPair?_eq_some_iff]
    exact Iff.rfl
  · intro p hline hcolumn hline' hcolumn'
    rw [parse_eq_ok_iff, readPair?_eq_some_iff]
    exact ⟨⟨p.writesPair_text, hline', hcolumn'⟩, hline, hcolumn⟩

/-- Leading zeros, a separator beyond ASCII, and the largest column. -/
theorem parse_reads_largestColumn :
    WritesPair "007é18446744073709551615" 7 18446744073709551615 ∧
      parse "007é18446744073709551615" = .ok ⟨7, 18446744073709551615⟩ ∧
      1 ≤ (⟨7, 18446744073709551615⟩ : Position).line ∧
      parse "7.18446744073709551615" = .ok ⟨7, 18446744073709551615⟩ := by
  obtain ⟨hpair, hparse, -, hback⟩ := parse_reads_two_numerals
  have hread : readPair? "007é18446744073709551615" = some (7, 18446744073709551615) := by
    decide +kernel
  have hwrites := (hpair _ _ _).mp hread
  refine ⟨hwrites.1, (hparse _ _).mpr ⟨hwrites, by decide, by decide⟩, by decide, ?_⟩
  exact hback ⟨7, 18446744073709551615⟩ (by decide) (by decide) (by decide) (by decide)

end Position

end Nesting
