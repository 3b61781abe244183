import Nesting.Proofs.Lexer.Token

/-!
# Where a literal ends

Backslashes escape in pairs, so a quote after an odd number of them belongs to the literal. The lexer
looks back at two bytes only: a quote stays inside after exactly one backslash and ends the literal
after three. This file says at which quote a literal ends, and for which texts that is the quote that
the parity of the backslashes asks for.
-/

namespace Nesting

/-! ## 1. Quotes and the backslashes before them -/

/-- How many backslashes stand at the end of a text. -/
def trailingBackslashes (text : List UInt8) : Nat :=
  (text.reverse.takeWhile (· == Byte.backslash)).length

/-- The first quote of a text that stands after a number of backslashes as `closes` wants it. -/
structure FirstQuote (closes : Nat → Prop) (quote : UInt8) (text : List UInt8) (n : Nat) : Prop where
  isQuote : text[n]? = some quote
  holds : closes (trailingBackslashes (text.take n))
  first : ∀ m < n, text[m]? = some quote → ¬ closes (trailingBackslashes (text.take m))

theorem exists_firstQuote (closes : Nat → Prop) {quote : UInt8} {text : List UInt8} {m : Nat}
    (hb : text[m]? = some quote) (hm : closes (trailingBackslashes (text.take m))) :
    ∃ n ≤ m, FirstQuote closes quote text n := by
  induction m using Nat.strongRecOn with
  | ind m ih =>
    by_cases hbefore : ∃ k < m, text[k]? = some quote ∧ closes (trailingBackslashes (text.take k))
    · obtain ⟨k, hk, hbk, hck⟩ := hbefore
      obtain ⟨n, hn, hfirst⟩ := ih k hk hbk hck
      exact ⟨n, by omega, hfirst⟩
    · exact ⟨m, Nat.le_refl m, hb, hm, fun k hk hbk hck => hbefore ⟨k, hk, hbk, hck⟩⟩

-- Counting to one and counting by parity find the same quote, unless the first way finds a quote
-- after three, five or more backslashes.
theorem firstQuote_even_iff {quote : UInt8} {text : List UInt8} :
    (∀ n, FirstQuote (· ≠ 1) quote text n ↔ FirstQuote (· % 2 = 0) quote text n) ↔
      ∀ n, FirstQuote (· ≠ 1) quote text n → trailingBackslashes (text.take n) % 2 = 0 := by
  constructor
  · intro h n hn
    exact ((h n).mp hn).holds
  · intro heven n
    constructor
    · intro hn
      refine ⟨hn.isQuote, heven n hn, fun m hm hb hzero => hn.first m hm hb ?_⟩
      show trailingBackslashes (text.take m) ≠ 1
      omega
    · intro hn
      have hholds : trailingBackslashes (text.take n) % 2 = 0 := hn.holds
      refine ⟨hn.isQuote, ?_, fun m hm hb hne => ?_⟩
      · show trailingBackslashes (text.take n) ≠ 1
        omega
      · obtain ⟨k, hk, hfirst⟩ := exists_firstQuote (· ≠ 1) hb hne
        exact hn.first k (by omega) hfirst.isQuote (heven k hfirst)

theorem escapedBy_iff (seen : List UInt8) :
    escapedBy seen = true ↔ (seen.takeWhile (· == Byte.backslash)).length = 1 := by
  match seen with
  | [] => simp [escapedBy]
  | [a] => by_cases ha : a = Byte.backslash <;> simp [escapedBy, ha]
  | a :: b :: seen =>
    by_cases ha : a = Byte.backslash
    · by_cases hb : b = Byte.backslash <;> simp [escapedBy, ha, hb]
    · simp [escapedBy, ha]

theorem endsLiteral_iff {quote : UInt8} {text : List UInt8} {b : UInt8} :
    endsLiteral quote text.reverse b = true ↔ b = quote ∧ trailingBackslashes text ≠ 1 := by
  rw [endsLiteral, Bool.and_eq_true, beq_iff_eq, Bool.not_eq_true', ← Bool.not_eq_true,
    escapedBy_iff]
  rfl

/-! ## 2. The lexer in a literal -/

/-- The grammars and quotes whose literals run to a quote of their kind. An apostrophe in `rust` need
not open one. -/
def RunsToQuote (g : Grammar) (quote : UInt8) : Prop :=
  ((g = .c ∨ g = .cpp) ∧ (quote = Byte.apostrophe ∨ quote = Byte.quote)) ∨
    (g = .rust ∧ quote = Byte.quote)

namespace Lexer

variable {g : Grammar} {quote b : UInt8} {s : Lexer} {seen : List UInt8}

theorem nestedRule_of_string (hr : s.region = .string) (b : UInt8) :
    (s.nestedRule b).2 = if b == Byte.quote && !s.isEscaped then .code else .string := by
  unfold nestedRule
  rw [hr]
  by_cases hb : b = Byte.newline
  · subst hb
    rfl
  · rw [if_neg (by simpa using hb)]
    dsimp only
    split <;> rfl

theorem InLiteral.stays (hq : RunsToQuote g quote) (h : InLiteral quote seen s)
    (hb : endsLiteral quote seen b = false) : InLiteral quote (b :: seen) (s.advance g b) := by
  rcases hq with ⟨hg, hquote⟩ | ⟨rfl, rfl⟩
  · exact (skips_literal hg hquote).stays h hb
  · refine ⟨?_, ?_, rfl⟩
    · rw [endsLiteral, ← h.escaped] at hb
      show (s.nestedRule b).2 = _
      rw [nestedRule_of_string h.region, hb]
      rfl
    · rw [isEscaped_advance, h.last]
      rfl

theorem InLiteral.leaves (hq : RunsToQuote g quote) (h : InLiteral quote seen s)
    (hb : endsLiteral quote seen b = true) : (s.advance g b).region = .code := by
  rcases hq with ⟨hg, hquote⟩ | ⟨rfl, rfl⟩
  · exact ((skips_literal hg hquote).leaves h hb).1
  · rw [endsLiteral, ← h.escaped] at hb
    show (s.nestedRule b).2 = _
    rw [nestedRule_of_string h.region, hb]
    rfl

theorem isLiteral_literalRegion (quote : UInt8) : (literalRegion quote).isLiteral = true := by
  unfold literalRegion
  split <;> rfl

theorem inLiteral_of_code (hq : RunsToQuote g quote) (hr : s.region = .code) :
    InLiteral quote [] (s.advance g quote) := by
  have hrule : (s.rule g quote).2 = literalRegion quote := by
    rcases hq with ⟨hg, rfl | rfl⟩ | ⟨rfl, rfl⟩
    · rw [rule_flat hg, flatRule_of_code hr (by decide)]
      rfl
    · rw [rule_flat hg, flatRule_of_code hr (by decide)]
      rfl
    · show (s.nestedRule Byte.quote).2 = _
      rw [nestedRule_of_code hr (by decide)]
      rfl
  have hquote : quote = Byte.apostrophe ∨ quote = Byte.quote := by
    rcases hq with ⟨-, hquote⟩ | ⟨-, rfl⟩
    · exact hquote
    · exact .inr rfl
  refine ⟨hrule, ?_, ?_⟩
  · rw [isEscaped_advance]
    rcases hquote with rfl | rfl <;> rfl
  · rw [last_advance]
    rcases hquote with rfl | rfl <;> rfl

end Lexer

/-! ## 3. The end of a literal -/

/-- The literal that the last byte of `opened` opens ends with the byte of `rest` at `n`: the lexer is
in a literal up to it and in none after it. -/
def LiteralEndsAt (g : Grammar) (opened rest : List UInt8) (n : Nat) : Prop :=
  n < rest.length ∧
    (∀ m ≤ n, (Lexer.run g (opened ++ rest.take m)).region.isLiteral = true) ∧
    (Lexer.run g (opened ++ rest.take (n + 1))).region.isLiteral = false

section

variable {g : Grammar} {quote : UInt8} {pre rest : List UInt8} {n : Nat}

theorem run_take_succ (g : Grammar) (opened : List UInt8) (hn : n < rest.length) :
    Lexer.run g (opened ++ rest.take (n + 1)) =
      (Lexer.run g (opened ++ rest.take n)).advance g rest[n] := by
  rw [List.take_succ_eq_append_getElem hn, ← List.append_assoc, Lexer.run_append]
  rfl

-- While no quote has ended the literal the lexer stands in it.
theorem inLiteral_take (hq : RunsToQuote g quote) (hcode : (Lexer.run g pre).region = .code)
    (hn : n ≤ rest.length)
    (hquotes : ∀ m < n, rest[m]? = some quote → trailingBackslashes (rest.take m) = 1) :
    Lexer.InLiteral quote (rest.take n).reverse (Lexer.run g (pre ++ [quote] ++ rest.take n)) := by
  induction n with
  | zero =>
    rw [List.take_zero, List.append_nil, Lexer.run_append]
    exact Lexer.inLiteral_of_code hq hcode
  | succ n ih =>
    have hlit := ih (by omega) (fun m hm => hquotes m (by omega))
    rw [run_take_succ g _ hn, List.take_succ_eq_append_getElem hn, List.reverse_append]
    apply hlit.stays hq
    rw [← Bool.not_eq_true, endsLiteral_iff]
    rintro ⟨hb, hne⟩
    exact hne (hquotes n (by omega) (by rw [List.getElem?_eq_getElem hn, hb]))

theorem region_of_firstQuote (hq : RunsToQuote g quote) (hcode : (Lexer.run g pre).region = .code)
    (hfirst : FirstQuote (· ≠ 1) quote rest n) :
    (Lexer.run g (pre ++ [quote] ++ rest.take (n + 1))).region = .code := by
  obtain ⟨hn, hb⟩ := List.getElem?_eq_some_iff.mp hfirst.isQuote
  have hlit := inLiteral_take hq hcode (Nat.le_of_lt hn)
    (fun m hm hb => Decidable.not_not.mp (hfirst.first m hm hb))
  rw [run_take_succ g _ hn]
  exact hlit.leaves hq (endsLiteral_iff.mpr ⟨hb, hfirst.holds⟩)

theorem literalEndsAt_iff (hq : RunsToQuote g quote) (hcode : (Lexer.run g pre).region = .code) :
    LiteralEndsAt g (pre ++ [quote]) rest n ↔ FirstQuote (· ≠ 1) quote rest n := by
  have hliteral : ∀ n ≤ rest.length,
      (∀ m < n, rest[m]? = some quote → trailingBackslashes (rest.take m) = 1) →
      (Lexer.run g (pre ++ [quote] ++ rest.take n)).region.isLiteral = true := by
    intro n hn hquotes
    rw [(inLiteral_take hq hcode hn hquotes).region]
    exact Lexer.isLiteral_literalRegion quote
  constructor
  · rintro ⟨hn, hin, hout⟩
    -- A quote before `n` after any other number of backslashes would have ended the literal.
    have hquotes : ∀ m < n, rest[m]? = some quote → trailingBackslashes (rest.take m) = 1 := by
      intro m
      induction m using Nat.strongRecOn with
      | ind m ih =>
        intro hm hb
        by_cases hone : trailingBackslashes (rest.take m) = 1
        · exact hone
        · have hregion := region_of_firstQuote hq hcode
            ⟨hb, hone, fun k hk hk' hne => hne (ih k hk (by omega) hk')⟩
          have hlit := hin (m + 1) hm
          rw [hregion] at hlit
          cases hlit
    by_cases hlast : rest[n]? = some quote ∧ trailingBackslashes (rest.take n) ≠ 1
    · exact ⟨hlast.1, hlast.2, fun m hm hb hne => hne (hquotes m hm hb)⟩
    · have hlit := hliteral (n + 1) hn (fun m hm hb => by
        by_cases hmn : m = n
        · subst hmn
          exact Decidable.not_not.mp fun hne => hlast ⟨hb, hne⟩
        · exact hquotes m (by omega) hb)
      rw [hout] at hlit
      cases hlit
  · intro hfirst
    obtain ⟨hn, -⟩ := List.getElem?_eq_some_iff.mp hfirst.isQuote
    refine ⟨hn, fun m hm => ?_, ?_⟩
    · apply hliteral m (by omega)
      intro k hk hb
      exact Decidable.not_not.mp (hfirst.first k (by omega) hb)
    · rw [region_of_firstQuote hq hcode hfirst]
      rfl

end

/-- **Escapes.** A literal that a quote opens in the code ends with the first quote of its kind that
does not stand after exactly one backslash. This is the first quote after an even number of
backslashes exactly if it is itself such a quote. -/
theorem literal_ends_unless_one_backslash {g : Grammar} {quote : UInt8} (hq : RunsToQuote g quote)
    (pre rest : List UInt8) (hcode : (Lexer.run g pre).region = .code) :
    (∀ n, LiteralEndsAt g (pre ++ [quote]) rest n ↔ FirstQuote (· ≠ 1) quote rest n) ∧
      ((∀ n, LiteralEndsAt g (pre ++ [quote]) rest n ↔ FirstQuote (· % 2 = 0) quote rest n) ↔
        ∀ n, FirstQuote (· ≠ 1) quote rest n → trailingBackslashes (rest.take n) % 2 = 0) := by
  refine ⟨fun n => literalEndsAt_iff hq hcode, ?_⟩
  simp only [literalEndsAt_iff hq hcode]
  exact firstQuote_even_iff

/-- An escaped quote, an escaped backslash and a quote. -/
def pairedText : List UInt8 := [0x5c, 0x22, 0x5c, 0x5c, 0x22, 0x28]

theorem literal_ends_pairedText :
    RunsToQuote .rust 0x22 ∧ (Lexer.run .rust []).region = .code ∧
      LiteralEndsAt .rust [0x22] pairedText 4 ∧ trailingBackslashes (pairedText.take 4) = 2 := by
  have hends := (literal_ends_unless_one_backslash (.inr ⟨rfl, rfl⟩) [] pairedText rfl).1 4
  refine ⟨.inr ⟨rfl, rfl⟩, rfl, hends.mpr ⟨by decide, by decide, ?_⟩, by decide⟩
  decide

/-- An escaped backslash and an escaped quote. -/
def oddText : List UInt8 := [0x5c, 0x5c, 0x5c, 0x22, 0x28]

theorem literal_ends_after_three_backslashes :
    LiteralEndsAt .c [0x22] oddText 3 ∧ ∀ n, ¬ FirstQuote (· % 2 = 0) 0x22 oddText n := by
  refine ⟨⟨by decide, by decide, by decide⟩, fun n hn => ?_⟩
  have hodd : ∀ n < oddText.length, oddText[n]? = some 0x22 →
      trailingBackslashes (oddText.take n) % 2 ≠ 0 := by decide
  obtain ⟨hlt, -⟩ := List.getElem?_eq_some_iff.mp hn.isQuote
  exact hodd n hlt hn.isQuote hn.holds

end Nesting
