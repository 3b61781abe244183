import Nesting.Proofs.Lexer.CharLiteral
import Nesting.Proofs.Lexer.Escape

/-!
# Apostrophes that quote nothing

In `rust` an apostrophe that opens a literal need not belong to one, so the literal must not run on. It
ends with the third byte after the apostrophe at the latest, as long as the line does not end before.
The exception is a byte escape, which runs to the first byte that is no digit. It begins with an `x`
after a backslash, and also after two, although the second backslash is then the character.
-/

namespace Nesting

/-! ## 1. The end of a literal, byte by byte -/

section

variable {g : Grammar} {opened rest : List UInt8} {b : UInt8} {n : Nat}

theorem Lexer.run_concat (g : Grammar) (opened : List UInt8) (b : UInt8) :
    Lexer.run g (opened ++ [b]) = (Lexer.run g opened).advance g b := by
  rw [Lexer.run_append]
  rfl

theorem literalEndsAt_cons_zero : LiteralEndsAt g opened (b :: rest) 0 ↔
    (Lexer.run g opened).region.isLiteral = true ∧
      (Lexer.run g (opened ++ [b])).region.isLiteral = false := by
  unfold LiteralEndsAt
  simp

theorem literalEndsAt_cons_succ : LiteralEndsAt g opened (b :: rest) (n + 1) ↔
    (Lexer.run g opened).region.isLiteral = true ∧ LiteralEndsAt g (opened ++ [b]) rest n := by
  have htake : ∀ m, opened ++ (b :: rest).take (m + 1) = opened ++ [b] ++ rest.take m := by
    intro m
    simp
  unfold LiteralEndsAt
  rw [htake, List.length_cons, Nat.add_lt_add_iff_right]
  constructor
  · rintro ⟨hn, hin, hout⟩
    refine ⟨?_, hn, fun m hm => ?_, hout⟩
    · have hzero := hin 0 (by omega)
      rwa [List.take_zero, List.append_nil] at hzero
    · rw [← htake]
      exact hin (m + 1) (by omega)
  · rintro ⟨hzero, hn, hin, hout⟩
    refine ⟨hn, fun m hm => ?_, hout⟩
    cases m with
    | zero =>
      rw [List.take_zero, List.append_nil]
      exact hzero
    | succ m =>
      rw [htake]
      exact hin m (by omega)

-- A literal that lasts through `lead` ends in what follows.
theorem literalEndsAt_append {lead : List UInt8}
    (h : ∀ m ≤ lead.length, (Lexer.run g (opened ++ lead.take m)).region.isLiteral = true) :
    LiteralEndsAt g opened (lead ++ rest) n ↔
      ∃ k, n = lead.length + k ∧ LiteralEndsAt g (opened ++ lead) rest k := by
  induction lead generalizing opened n with
  | nil => simp
  | cons b lead ih =>
    have hopened : (Lexer.run g opened).region.isLiteral = true := by
      have hzero := h 0 (Nat.zero_le _)
      rwa [List.take_zero, List.append_nil] at hzero
    have hnext : ∀ m ≤ lead.length,
        (Lexer.run g (opened ++ [b] ++ lead.take m)).region.isLiteral = true := by
      intro m hm
      have hsucc := h (m + 1) (Nat.succ_le_succ hm)
      rwa [List.take_succ_cons, ← List.singleton_append, ← List.append_assoc] at hsucc
    rw [List.cons_append, List.length_cons]
    cases n with
    | zero =>
      have hb := hnext 0 (Nat.zero_le _)
      rw [List.take_zero, List.append_nil] at hb
      rw [literalEndsAt_cons_zero, hb]
      constructor
      · rintro ⟨-, hout⟩
        cases hout
      · rintro ⟨k, hk, -⟩
        omega
    | succ n =>
      rw [literalEndsAt_cons_succ, and_iff_right hopened, ih hnext, List.append_assoc,
        List.singleton_append]
      exact exists_congr fun k => and_congr_left fun _ => by omega

/-- A literal without an end goes on to the end of the text. -/
theorem isLiteral_of_not_literalEndsAt (hr : (Lexer.run g opened).region.isLiteral = true)
    (h : ∀ n, ¬ LiteralEndsAt g opened rest n) (m : Nat) :
    (Lexer.run g (opened ++ rest.take m)).region.isLiteral = true := by
  induction rest generalizing opened m with
  | nil => rwa [List.take_nil, List.append_nil]
  | cons b rest ih =>
    cases m with
    | zero => rwa [List.take_zero, List.append_nil]
    | succ m =>
      have hnext : (Lexer.run g (opened ++ [b])).region.isLiteral = true := by
        rw [← Bool.not_eq_false]
        intro hout
        exact h 0 (literalEndsAt_cons_zero.mpr ⟨hr, hout⟩)
      rw [List.take_succ_cons, ← List.singleton_append, ← List.append_assoc]
      exact ih hnext (fun n hn => h (n + 1) (literalEndsAt_cons_succ.mpr ⟨hr, hn⟩)) m

end

/-! ## 2. The digits of a byte escape -/

/-- A byte that ends a byte escape. A newline is passed over. -/
def endsByteEscape (b : UInt8) : Bool :=
  b != Byte.newline && !Byte.isHexDigit b

theorem Lexer.rule_rust_of_byteEscape {s : Lexer} (hr : s.region = .byteEscape) (b : UInt8) :
    s.rule .rust b =
      if endsByteEscape b then (.code, .code) else (.skipped, .byteEscape) := by
  have hquote : (b == Byte.apostrophe || !Byte.isHexDigit b) = !Byte.isHexDigit b := by
    by_cases hb : b = Byte.apostrophe
    · subst hb
      decide
    · simp [hb]
  show s.nestedRule b = _
  unfold nestedRule endsByteEscape
  rw [hr, hquote]
  by_cases hb : b = Byte.newline
  · subst hb
    rfl
  · simp [hb]

theorem literalEndsAt_of_byteEscape {opened rest : List UInt8} {n : Nat}
    (hr : (Lexer.run .rust opened).region = .byteEscape) :
    LiteralEndsAt .rust opened rest n ↔ rest.findIdx? endsByteEscape = some n := by
  induction rest generalizing opened n with
  | nil => exact ⟨fun h => absurd h.1 (Nat.not_lt_zero n), fun h => by cases h⟩
  | cons b rest ih =>
    have hliteral : (Lexer.run .rust opened).region.isLiteral = true := by
      rw [hr]
      rfl
    have hnext : (Lexer.run .rust (opened ++ [b])).region =
        (if endsByteEscape b then (ByteClass.code, Region.code)
          else (.skipped, .byteEscape)).2 := by
      rw [Lexer.run_concat, Lexer.region_advance, Lexer.rule_rust_of_byteEscape hr]
    rw [List.findIdx?_cons]
    cases hb : endsByteEscape b with
    | true =>
      rw [hb] at hnext
      cases n with
      | zero =>
        rw [literalEndsAt_cons_zero, hnext]
        exact ⟨fun _ => rfl, fun _ => ⟨hliteral, rfl⟩⟩
      | succ n =>
        refine ⟨fun h => ?_, fun h => by cases h⟩
        -- The lexer has left the literal with `b`, so it does not end later.
        have hstart := (literalEndsAt_cons_succ.mp h).2.2.1 0 (Nat.zero_le n)
        rw [List.take_zero, List.append_nil, hnext] at hstart
        cases hstart
    | false =>
      rw [hb] at hnext
      cases n with
      | zero =>
        rw [literalEndsAt_cons_zero, hnext]
        simp [Region.isLiteral]
      | succ n =>
        rw [literalEndsAt_cons_succ, ih hnext, and_iff_right hliteral]
        simp

/-! ## 3. The first bytes after the apostrophe -/

/-- The byte `b` after `pre` opens a literal in apostrophes: the lexer is in no literal before it and
in such a literal after it. -/
def OpensChar (pre : List UInt8) (b : UInt8) : Prop :=
  (Lexer.run .rust pre).region.isLiteral = false ∧
    ∃ body, (Lexer.run .rust (pre ++ [b])).region = .char body

/-- The lexer turns to a byte escape with the byte of `rest` at `n`, and not before. -/
def ByteEscapeStartsAt (opened rest : List UInt8) (n : Nat) : Prop :=
  n < rest.length ∧
    (∀ m ≤ n, (Lexer.run .rust (opened ++ rest.take m)).region ≠ .byteEscape) ∧
    (Lexer.run .rust (opened ++ rest.take (n + 1))).region = .byteEscape

/-- What may stand between an apostrophe and the `x` of a byte escape. -/
def escapeLeads : List (List UInt8) :=
  [[Byte.backslash], [Byte.backslash, Byte.backslash]]

namespace Lexer

variable {s : Lexer} {b : UInt8}

-- A literal in apostrophes is opened by an apostrophe in the code and by nothing else.
theorem code_of_char {body : Nat} (hr : s.region.isLiteral = false)
    (h : (s.rule .rust b).2 = .char body) : s.region = .code ∧ b = Byte.apostrophe := by
  change (s.nestedRule b).2 = _ at h
  have hcomments : ∀ stars, Region.inComments stars ≠ .char body := by
    intro stars
    cases stars <;> simp [Region.inComments]
  unfold nestedRule at h
  by_cases hb : b = Byte.newline
  · rw [if_pos (by simpa using hb)] at h
    cases hregion : s.region <;> simp_all [Region.afterNewline, Region.isLiteral]
  · rw [if_neg (by simpa using hb)] at h
    cases hregion : s.region with
    | code =>
      by_cases hquote : b = Byte.apostrophe
      · exact ⟨rfl, hquote⟩
      · rw [hregion] at h
        unfold fromCode at h
        simp only [beq_iff_eq, hquote, if_false] at h
        split at h
        · cases h
        · split at h
          · cases h
          · split at h <;> cases h
    | lineComment => simp [hregion] at h
    | blockComment star outer =>
      rw [hregion] at h
      dsimp only at h
      split at h
      · cases h
      · split at h
        · exact absurd h (hcomments outer)
        · cases h
    | string | char | byteEscape =>
      rw [hregion] at hr
      cases hr

theorem charRule_apostrophe (h : s.isEscaped = false) :
    s.charRule 0 Byte.apostrophe = (.code, .code) := by
  unfold charRule
  rw [h]
  rfl

end Lexer

section

variable {opened rest : List UInt8} {b : UInt8} {body : Nat}

theorem region_concat_of_char (hr : (Lexer.run .rust opened).region = .char body)
    (hb : b ≠ Byte.newline) : (Lexer.run .rust (opened ++ [b])).region =
      ((Lexer.run .rust opened).charRule body b).2 := by
  rw [Lexer.run_concat, Lexer.region_advance, Lexer.rule_rust_of_char hr hb]

theorem last_concat (opened : List UInt8) (b : UInt8) :
    (Lexer.run .rust (opened ++ [b])).last = some b := by
  rw [Lexer.run_concat]
  rfl

theorem region_concat_backslash (hr : (Lexer.run .rust opened).region = .char 0)
    (hlast : (Lexer.run .rust opened).last ≠ some Byte.backslash) :
    (Lexer.run .rust (opened ++ [Byte.backslash])).region = .char 0 := by
  rw [region_concat_of_char hr (by decide), Lexer.charRule_backslash hlast]

theorem literalEndsAt_of_full (hr : (Lexer.run .rust opened).region = .char 1)
    (hb : b ≠ Byte.newline)
    (hx : b = Byte.lowerX → (Lexer.run .rust opened).last ≠ some Byte.backslash)
    (rest : List UInt8) : LiteralEndsAt .rust opened (b :: rest) 0 := by
  rw [literalEndsAt_cons_zero, hr, region_concat_of_char hr hb, Lexer.charRule_of_full hx]
  exact ⟨rfl, rfl⟩

/-- Three bytes after the apostrophe end the literal, unless they begin a byte escape. -/
theorem exists_literalEndsAt (hr : (Lexer.run .rust opened).region = .char 0)
    (hlast : (Lexer.run .rust opened).last = some Byte.apostrophe) {b₁ b₂ b₃ : UInt8}
    (h₁ : b₁ ≠ Byte.newline) (h₂ : b₂ ≠ Byte.newline) (h₃ : b₃ ≠ Byte.newline)
    (hone : b₁ = Byte.backslash → b₂ ≠ Byte.lowerX)
    (htwo : b₁ = Byte.backslash → b₂ = Byte.backslash → b₃ ≠ Byte.lowerX) :
    ∃ n ≤ 2, LiteralEndsAt .rust opened (b₁ :: b₂ :: b₃ :: rest) n := by
  have hne : (Lexer.run .rust opened).last ≠ some Byte.backslash := by
    rw [hlast]
    decide
  have hlit : (Lexer.run .rust opened).region.isLiteral = true := by
    rw [hr]
    rfl
  by_cases hquote : b₁ = Byte.apostrophe
  · subst hquote
    refine ⟨0, by omega, literalEndsAt_cons_zero.mpr ⟨hlit, ?_⟩⟩
    have hescaped : (Lexer.run .rust opened).isEscaped = false := by
      unfold Lexer.isEscaped
      rw [hlast]
      rfl
    rw [region_concat_of_char hr h₁, Lexer.charRule_apostrophe hescaped]
    rfl
  by_cases hback : b₁ = Byte.backslash
  · subst hback
    have hr₁ := region_concat_backslash hr hne
    have hescaped : (Lexer.run .rust (opened ++ [Byte.backslash])).isEscaped = true := by
      rw [Lexer.run_concat, Lexer.isEscaped_advance]
      simpa using hne
    -- After the backslash any byte is the character, a quote or another backslash included.
    have hr₂ : (Lexer.run .rust (opened ++ [Byte.backslash] ++ [b₂])).region = .char 1 := by
      rw [region_concat_of_char hr₁ h₂, Lexer.charRule_of_one (fun hx => absurd hx (hone rfl))
        (by decide) (fun _ => hescaped) (fun _ => last_concat _ _)]
    refine ⟨2, by omega, ?_⟩
    rw [literalEndsAt_cons_succ, literalEndsAt_cons_succ, hr₁]
    refine ⟨hlit, rfl, literalEndsAt_of_full hr₂ h₃ (fun hx heq => ?_) rest⟩
    rw [last_concat, Option.some.injEq] at heq
    exact htwo rfl heq hx
  · have hr₁ : (Lexer.run .rust (opened ++ [b₁])).region = .char 1 := by
      rw [region_concat_of_char hr h₁, Lexer.charRule_of_one (fun _ => hne) (by decide)
        (fun heq => absurd heq hquote) (fun heq => absurd heq hback)]
    refine ⟨1, by omega, ?_⟩
    rw [literalEndsAt_cons_succ]
    refine ⟨hlit, literalEndsAt_of_full hr₁ h₂ (fun _ heq => ?_) (b₃ :: rest)⟩
    rw [last_concat, Option.some.injEq] at heq
    exact hback heq

theorem char_of_escapeLead (hr : (Lexer.run .rust opened).region = .char 0)
    (hlast : (Lexer.run .rust opened).last ≠ some Byte.backslash) {lead : List UInt8}
    (hlead : lead ∈ escapeLeads) :
    (∀ m ≤ lead.length, ∃ body, (Lexer.run .rust (opened ++ lead.take m)).region = .char body) ∧
      (Lexer.run .rust (opened ++ lead)).last = some Byte.backslash := by
  have hr₁ := region_concat_backslash hr hlast
  have hr₂ : (Lexer.run .rust (opened ++ [Byte.backslash] ++ [Byte.backslash])).region = .char 1 := by
    rw [region_concat_of_char hr₁ (by decide), Lexer.charRule_of_one (fun hx => absurd hx (by decide))
      (by decide) (fun heq => absurd heq (by decide)) (fun _ => last_concat _ _)]
  have htwo : opened ++ [Byte.backslash, Byte.backslash] =
      opened ++ [Byte.backslash] ++ [Byte.backslash] := by simp
  simp only [escapeLeads, List.mem_cons, List.not_mem_nil, or_false] at hlead
  rcases hlead with rfl | rfl
  · refine ⟨fun m hm => ?_, last_concat _ _⟩
    match m, hm with
    | 0, _ => exact ⟨0, by simpa using hr⟩
    | 1, _ => exact ⟨0, hr₁⟩
  · refine ⟨fun m hm => ?_, by rw [htwo]; exact last_concat _ _⟩
    match m, hm with
    | 0, _ => exact ⟨0, by simpa using hr⟩
    | 1, _ => exact ⟨0, hr₁⟩
    | 2, _ => exact ⟨1, by rw [← hr₂, ← htwo]; rfl⟩

/-- An `x` after one backslash, or after two, turns the literal to a byte escape. -/
theorem byteEscapeStartsAt_of_lead (hr : (Lexer.run .rust opened).region = .char 0)
    (hlast : (Lexer.run .rust opened).last ≠ some Byte.backslash) {lead : List UInt8}
    (hlead : lead ∈ escapeLeads) (more : List UInt8) :
    ByteEscapeStartsAt opened (lead ++ Byte.lowerX :: more) lead.length ∧
      ∀ n, LiteralEndsAt .rust opened (lead ++ Byte.lowerX :: more) n ↔
        ∃ k, n = lead.length + 1 + k ∧ more.findIdx? endsByteEscape = some k := by
  obtain ⟨hchar, hback⟩ := char_of_escapeLead hr hlast hlead
  have hx : (Lexer.run .rust (opened ++ (lead ++ [Byte.lowerX]))).region = .byteEscape := by
    obtain ⟨body, hbody⟩ := hchar lead.length (Nat.le_refl _)
    rw [List.take_length] at hbody
    rw [← List.append_assoc, region_concat_of_char hbody (by decide), Lexer.charRule_lowerX hback]
  have hlit : ∀ m ≤ (lead ++ [Byte.lowerX]).length,
      (Lexer.run .rust (opened ++ (lead ++ [Byte.lowerX]).take m)).region.isLiteral = true := by
    intro m hm
    rw [List.length_append, List.length_singleton] at hm
    by_cases hle : m ≤ lead.length
    · obtain ⟨body, hbody⟩ := hchar m hle
      rw [List.take_append_of_le_length hle, hbody]
      rfl
    · rw [List.take_of_length_le (by rw [List.length_append, List.length_singleton]; omega), hx]
      rfl
  have hsplit : lead ++ Byte.lowerX :: more = (lead ++ [Byte.lowerX]) ++ more := by simp
  constructor
  · refine ⟨by rw [hsplit]; simp, fun m hm => ?_, ?_⟩
    · obtain ⟨body, hbody⟩ := hchar m hm
      rw [List.take_append_of_le_length hm, hbody]
      simp
    · rw [List.take_length_add_append]
      exact hx
  · intro n
    rw [hsplit, literalEndsAt_append hlit, List.length_append, List.length_singleton]
    simp only [literalEndsAt_of_byteEscape hx]

end

/-- **Apostrophes.** A literal in apostrophes ends with one of the three bytes after its opening
apostrophe, if these stand on its line and do not begin a byte escape. If they do, the escape begins
with its `x`, and the literal ends with the first byte after it that is neither a newline nor a
digit. Without such a byte it never ends. -/
theorem apostrophe_ends_within_three {pre : List UInt8} {b : UInt8} (hopen : OpensChar pre b)
    (rest : List UInt8) :
    (3 ≤ rest.length → Byte.newline ∉ rest.take 3 →
      (∀ lead ∈ escapeLeads, ¬ lead ++ [Byte.lowerX] <+: rest) →
        ∃ n ≤ 2, LiteralEndsAt .rust (pre ++ [b]) rest n) ∧
    ∀ lead ∈ escapeLeads, ∀ more, rest = lead ++ Byte.lowerX :: more →
      ByteEscapeStartsAt (pre ++ [b]) rest lead.length ∧
        (∀ n, LiteralEndsAt .rust (pre ++ [b]) rest n ↔
          ∃ k, n = lead.length + 1 + k ∧ more.findIdx? endsByteEscape = some k) ∧
        (more.findIdx? endsByteEscape = none →
          ∀ m, (Lexer.run .rust (pre ++ [b] ++ rest.take m)).region.isLiteral = true) := by
  obtain ⟨hcode, rfl⟩ : (Lexer.run .rust pre).region = .code ∧ b = Byte.apostrophe := by
    obtain ⟨hr, body, hbody⟩ := hopen
    rw [Lexer.run_concat] at hbody
    exact Lexer.code_of_char hr hbody
  have hr : (Lexer.run .rust (pre ++ [Byte.apostrophe])).region = .char 0 := by
    rw [Lexer.run_concat, Lexer.region_advance]
    show (Lexer.nestedRule _ _).2 = _
    rw [Lexer.nestedRule_of_code hcode (by decide)]
    rfl
  have hlast := last_concat pre Byte.apostrophe
  constructor
  · intro hlen hline hlead
    match rest, hlen with
    | b₁ :: b₂ :: b₃ :: rest, _ =>
      simp only [List.take_succ_cons, List.take_zero, List.mem_cons, List.not_mem_nil, or_false,
        not_or] at hline
      apply exists_literalEndsAt hr hlast (Ne.symm hline.1) (Ne.symm hline.2.1)
        (Ne.symm hline.2.2)
      · rintro rfl rfl
        exact hlead [Byte.backslash] (by decide) ⟨b₃ :: rest, rfl⟩
      · rintro rfl rfl rfl
        exact hlead [Byte.backslash, Byte.backslash] (by decide) ⟨rest, rfl⟩
  · rintro lead hlead more rfl
    have hne : (Lexer.run .rust (pre ++ [Byte.apostrophe])).last ≠ some Byte.backslash := by
      rw [hlast]
      decide
    obtain ⟨hstarts, hends⟩ := byteEscapeStartsAt_of_lead hr hne hlead more
    refine ⟨hstarts, hends, fun hnone => ?_⟩
    apply isLiteral_of_not_literalEndsAt (by rw [hr]; rfl)
    intro n hn
    obtain ⟨k, -, hk⟩ := (hends n).mp hn
    rw [hnone] at hk
    cases hk

/-- Two backslashes and an `x`, the digits `4` and `F`, the end of the line, the digit `b` and a
bracket. -/
def brokenEscapeText : List UInt8 := [0x5c, 0x5c, 0x78, 0x34, 0x46, 0x0a, 0x62, 0x7b]

theorem apostrophe_ends_brokenEscapeText :
    OpensChar [0x28] 0x27 ∧ (∃ n ≤ 2, LiteralEndsAt .rust [0x28, 0x27] [0x5c, 0x27, 0x29] n) ∧
      ByteEscapeStartsAt [0x28, 0x27] brokenEscapeText 2 ∧
      LiteralEndsAt .rust [0x28, 0x27] brokenEscapeText 7 ∧
      (Lexer.run .rust ([0x28, 0x27] ++ brokenEscapeText.take 7)).region.isLiteral = true := by
  have hopen : OpensChar [0x28] 0x27 := ⟨by decide, 0, by decide⟩
  obtain ⟨hshort, -⟩ := apostrophe_ends_within_three hopen [0x5c, 0x27, 0x29]
  obtain ⟨-, hescape⟩ := apostrophe_ends_within_three hopen brokenEscapeText
  obtain ⟨hstarts, hends, -⟩ := hescape [0x5c, 0x5c] (by decide)
    [0x34, 0x46, 0x0a, 0x62, 0x7b] rfl
  obtain ⟨-, hunended⟩ := apostrophe_ends_within_three hopen (brokenEscapeText.take 7)
  obtain ⟨-, -, hnever⟩ := hunended [0x5c, 0x5c] (by decide) [0x34, 0x46, 0x0a, 0x62] rfl
  exact ⟨hopen, hshort (by decide) (by decide) (by decide), hstarts,
    (hends 7).mpr ⟨4, rfl, by decide⟩, hnever (by decide) 7⟩

end Nesting
