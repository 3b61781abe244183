import Nesting.Proofs.Lexer.Memory

/-!
# Tokens of the flat grammars

A lexer for `c` and `cpp` that looks ahead: from a place in the code it takes a whole comment or
literal, or one byte, and goes on after it. The byte lexer looks back instead, at two bytes and two
offsets, and `classes_eq_flatMap_tokens` shows that both give every byte the same class.
-/

namespace Nesting

/-! ## 1. Where a token ends -/

/-- The bytes through the first one that ends a token, and the bytes after it. Whether a byte is the
end depends on those of the token before it, `seen`, newest first. Without an end it is all
bytes. -/
def cutAfter (ends : List UInt8 → UInt8 → Bool) (seen : List UInt8) :
    List UInt8 → List UInt8 × List UInt8
  | [] => ([], [])
  | b :: rest =>
    if ends seen b then ([b], rest)
    else (cutAfter ends (b :: seen) rest).map (b :: ·) id

theorem cutAfter_append (ends : List UInt8 → UInt8 → Bool) (seen rest : List UInt8) :
    (cutAfter ends seen rest).1 ++ (cutAfter ends seen rest).2 = rest := by
  induction rest generalizing seen with
  | nil => rfl
  | cons b rest ih =>
    unfold cutAfter
    split
    · rfl
    · exact congrArg (b :: ·) (ih (b :: seen))

/-- A line comment ends with its line. -/
def endsLine (_ : List UInt8) (b : UInt8) : Bool :=
  b == Byte.newline

/-- A block comment ends with the slash after a star. The star that opened it is not among the bytes
seen, so it is never the star of the end. -/
def endsBlock (seen : List UInt8) (b : UInt8) : Bool :=
  b == Byte.slash && seen.head? == some Byte.star

/-- A byte is escaped by a backslash before it that has no backslash before it in turn. -/
def escapedBy (seen : List UInt8) : Bool :=
  seen.head? == some Byte.backslash && seen.tail.head? != some Byte.backslash

/-- A literal ends with the next quote of its kind that is not escaped. -/
def endsLiteral (quote : UInt8) (seen : List UInt8) (b : UInt8) : Bool :=
  b == quote && !escapedBy seen

/-! ## 2. Tokens -/

/-- A comment, a literal, or a byte outside both. -/
inductive Token where
  /-- Two slashes and the bytes after them. -/
  | lineComment (body : List UInt8)
  /-- A slash, a star and the bytes after them. -/
  | blockComment (body : List UInt8)
  /-- A quote and the bytes after it. -/
  | literal (quote : UInt8) (body : List UInt8)
  | newline
  | other (b : UInt8)
  deriving DecidableEq, Repr

namespace Token

def bytes : Token → List UInt8
  | lineComment body => Byte.slash :: Byte.slash :: body
  | blockComment body => Byte.slash :: Byte.star :: body
  | literal quote body => quote :: body
  | newline => [Byte.newline]
  | other b => [b]

/-- The slash that begins a comment is code like any other byte, and the rest of it is skipped. A
literal is skipped as a whole. -/
def classes : Token → List ByteClass
  | lineComment body => .code :: .skipped :: body.map (fun _ => .skipped)
  | blockComment body => .code :: .skipped :: body.map (fun _ => .skipped)
  | literal _ body => .skipped :: body.map (fun _ => .skipped)
  | newline => [.skipped]
  | other _ => [.code]

/-- The token that begins with the byte `b` before `rest`, and what follows it. -/
def next (b : UInt8) (rest : List UInt8) : Token × List UInt8 :=
  if b == Byte.slash && rest.head? == some Byte.slash then
    (cutAfter endsLine [] rest.tail).map lineComment id
  else if b == Byte.slash && rest.head? == some Byte.star then
    (cutAfter endsBlock [] rest.tail).map blockComment id
  else if b == Byte.apostrophe || b == Byte.quote then
    (cutAfter (endsLiteral b) [] rest).map (literal b) id
  else if b == Byte.newline then (newline, rest)
  else (other b, rest)

-- The five ways in which a token can begin.
@[elab_as_elim]
theorem next_cases {motive : UInt8 → List UInt8 → Token × List UInt8 → Prop}
    (lineComment : ∀ more, motive Byte.slash (Byte.slash :: more)
      ((cutAfter endsLine [] more).map Token.lineComment id))
    (blockComment : ∀ more, motive Byte.slash (Byte.star :: more)
      ((cutAfter endsBlock [] more).map Token.blockComment id))
    (literal : ∀ quote rest, quote = Byte.apostrophe ∨ quote = Byte.quote →
      motive quote rest ((cutAfter (endsLiteral quote) [] rest).map (Token.literal quote) id))
    (newline : ∀ rest, motive Byte.newline rest (Token.newline, rest))
    (other : ∀ b rest, b ≠ Byte.apostrophe → b ≠ Byte.quote → b ≠ Byte.newline →
      (b = Byte.slash → rest.head? ≠ some Byte.slash ∧ rest.head? ≠ some Byte.star) →
        motive b rest (Token.other b, rest))
    (b : UInt8) (rest : List UInt8) : motive b rest (next b rest) := by
  unfold next
  by_cases hline : b = Byte.slash ∧ rest.head? = some Byte.slash
  · obtain ⟨rfl, hhead⟩ := hline
    obtain ⟨more, rfl⟩ := List.head?_eq_some_iff.mp hhead
    exact lineComment more
  by_cases hblock : b = Byte.slash ∧ rest.head? = some Byte.star
  · obtain ⟨rfl, hhead⟩ := hblock
    obtain ⟨more, rfl⟩ := List.head?_eq_some_iff.mp hhead
    exact blockComment more
  rw [if_neg (by simpa using hline), if_neg (by simpa using hblock)]
  by_cases hquote : b = Byte.apostrophe ∨ b = Byte.quote
  · rw [if_pos (by simpa using hquote)]
    exact literal b rest hquote
  rw [if_neg (by simpa using hquote)]
  by_cases hnewline : b = Byte.newline
  · subst hnewline
    exact newline rest
  rw [if_neg (by simpa using hnewline)]
  rw [not_or] at hquote
  exact other b rest hquote.1 hquote.2 hnewline
    (fun hb => ⟨fun h => hline ⟨hb, h⟩, fun h => hblock ⟨hb, h⟩⟩)

theorem bytes_next_append (b : UInt8) (rest : List UInt8) :
    (next b rest).1.bytes ++ (next b rest).2 = b :: rest := by
  induction b, rest using next_cases with
  | lineComment more => exact congrArg (Byte.slash :: Byte.slash :: ·) (cutAfter_append _ _ _)
  | blockComment more => exact congrArg (Byte.slash :: Byte.star :: ·) (cutAfter_append _ _ _)
  | literal quote rest => exact congrArg (quote :: ·) (cutAfter_append _ _ _)
  | newline rest => rfl
  | other b rest => rfl

theorem length_next_le (b : UInt8) (rest : List UInt8) : (next b rest).2.length ≤ rest.length := by
  have hlen := congrArg List.length (bytes_next_append b rest)
  have hpos : 0 < (next b rest).1.bytes.length := by
    cases (next b rest).1 <;> simp [bytes]
  rw [List.length_append, List.length_cons] at hlen
  omega

end Token

/-- The tokens of a text that begins in the code. -/
def tokens : List UInt8 → List Token
  | [] => []
  | b :: rest =>
    have := Token.length_next_le b rest
    (Token.next b rest).1 :: tokens (Token.next b rest).2
termination_by text => text.length

/-! ## 3. The byte lexer through a token -/

namespace Lexer

variable {g : Grammar} {s : Lexer} {b : UInt8} {rest : List UInt8}

/-- The lexer stands in the code before `rest`, and no slash behind it opens a comment there. At the
end of the text it may stand anywhere. -/
def AtCode (s : Lexer) (rest : List UInt8) : Prop :=
  ∀ b, rest.head? = some b →
    s.region = .code ∧ (b = Byte.slash ∨ b = Byte.star → s.followsSlash = false)

theorem atCode_of_followsSlash (hr : s.region = .code) (hs : s.followsSlash = false)
    (rest : List UInt8) : s.AtCode rest :=
  fun _ _ => ⟨hr, fun _ => hs⟩

theorem rule_flat (hg : g = .c ∨ g = .cpp) (s : Lexer) (b : UInt8) : s.rule g b = s.flatRule b := by
  rcases hg with rfl | rfl <;> rfl

theorem flatRule_of_code (hr : s.region = .code) (hb : b ≠ Byte.newline) :
    s.flatRule b = s.fromCode b := by
  simp [flatRule, hr, hb]

theorem nestedRule_of_code (hr : s.region = .code) (hb : b ≠ Byte.newline) :
    s.nestedRule b = s.fromCode b := by
  simp [nestedRule, hr, hb]

theorem fromCode_of_plain (ha : b ≠ Byte.apostrophe) (hq : b ≠ Byte.quote)
    (hs : b = Byte.slash ∨ b = Byte.star → s.followsSlash = false) :
    s.fromCode b = (.code, .code) := by
  by_cases hopen : b = Byte.slash ∨ b = Byte.star
  · simp [fromCode, ha, hq, hs hopen]
  · rw [not_or] at hopen
    simp [fromCode, ha, hq, hopen.1, hopen.2]

/-- What makes `inside` a description of the lexer inside a token that ends as `ends` says: every
byte is skipped, and the lexer leaves with the byte that is the end and with no other. -/
structure Skips (g : Grammar) (ends : List UInt8 → UInt8 → Bool)
    (inside : List UInt8 → Lexer → Prop) : Prop where
  skipped : ∀ {seen s}, inside seen s → ∀ b, s.classify g b = .skipped
  stays : ∀ {seen s b}, inside seen s → ends seen b = false → inside (b :: seen) (s.advance g b)
  leaves : ∀ {seen s b}, inside seen s → ends seen b = true →
    (s.advance g b).region = .code ∧ (s.advance g b).followsSlash = false

-- Induction on the bytes to come; the bytes seen and the state change with every byte.
theorem Skips.run {ends : List UInt8 → UInt8 → Bool} {inside : List UInt8 → Lexer → Prop}
    (h : Skips g ends inside) (seen : List UInt8) (s : Lexer) (hs : inside seen s)
    (rest : List UInt8) :
    classesFrom g s (cutAfter ends seen rest).1 =
        (cutAfter ends seen rest).1.map (fun _ => .skipped) ∧
      AtCode ((cutAfter ends seen rest).1.foldl (advance g) s) (cutAfter ends seen rest).2 := by
  induction rest generalizing seen s with
  | nil => exact ⟨by simp [cutAfter], fun b hb => by cases hb⟩
  | cons b rest ih =>
    unfold cutAfter
    by_cases hb : ends seen b = true
    · rw [if_pos hb]
      obtain ⟨hregion, hslash⟩ := h.leaves hs hb
      refine ⟨?_, atCode_of_followsSlash hregion hslash rest⟩
      simp [h.skipped hs b]
    · rw [if_neg hb]
      obtain ⟨hclasses, hcode⟩ := ih _ _ (h.stays hs (by simpa using hb))
      refine ⟨?_, hcode⟩
      simp only [Prod.map_fst, classesFrom_cons, List.map_cons, hclasses, h.skipped hs b]

theorem skips_line (hg : g = .c ∨ g = .cpp) :
    Skips g endsLine (fun _ s => s.region = .lineComment) where
  skipped := by
    intro _ s hs b
    unfold classify
    rw [rule_flat hg, flatRule, hs]
    split <;> rfl
  stays := by
    intro _ s b hs hb
    rw [region_advance, rule_flat hg, flatRule, hs]
    simp_all [endsLine]
  leaves := by
    intro _ s b hs hb
    rw [endsLine, beq_iff_eq] at hb
    subst hb
    refine ⟨?_, rfl⟩
    rw [region_advance, rule_flat hg, flatRule, hs]
    rfl

/-- The lexer in a block comment opened by the star at the offset `star`, after the bytes `seen`. -/
structure InBlock (star : Nat) (seen : List UInt8) (s : Lexer) : Prop where
  region : s.region = .blockComment star []
  offset : s.offset = star + 1 + seen.length
  last : seen ≠ [] → s.last = seen.head?

-- Right after the opening star the offset keeps the star from being the closing one, and later the
-- byte before is one of those seen.
theorem InBlock.closesComment {star : Nat} {seen : List UInt8} (h : InBlock star seen s)
    (b : UInt8) : s.closesComment star b = endsBlock seen b := by
  unfold Lexer.closesComment endsBlock
  cases seen with
  | nil => simp [h.offset]
  | cons c seen => simp [h.offset, h.last]

theorem skips_block (hg : g = .c ∨ g = .cpp) (star : Nat) : Skips g endsBlock (InBlock star) where
  skipped := by
    intro _ s hs b
    unfold classify
    rw [rule_flat hg, flatRule, hs.region]
    split <;> rfl
  stays := by
    intro seen s b hs hb
    refine ⟨?_, ?_, fun _ => rfl⟩
    · rw [region_advance, rule_flat hg, flatRule, hs.region]
      simp only [hs.closesComment, hb]
      split <;> rfl
    · rw [offset_advance, hs.offset, List.length_cons]
      omega
  leaves := by
    intro seen s b hs hb
    have hends : s.endsComment b = true := by
      unfold endsComment
      rw [hs.region]
      exact (hs.closesComment b).trans hb
    have hslash : b = Byte.slash := by
      rw [endsBlock, Bool.and_eq_true, beq_iff_eq] at hb
      exact hb.1
    constructor
    · rw [region_advance, rule_flat hg, flatRule, hs.region]
      simp only [hs.closesComment, hb]
      rw [hslash]
      rfl
    · simp [followsSlash, Lexer.advance, hends]

/-- The region inside a literal with the given quote. -/
def literalRegion (quote : UInt8) : Region :=
  if quote == Byte.quote then .string else .char 0

theorem flatRule_of_literal {quote : UInt8} (hq : quote = Byte.apostrophe ∨ quote = Byte.quote)
    (hr : s.region = literalRegion quote) (b : UInt8) :
    s.flatRule b =
      (.skipped, if b == quote && !s.isEscaped then .code else literalRegion quote) := by
  have hquote : b = Byte.newline → (b == quote) = false := by
    intro hb
    rw [hb]
    rcases hq with rfl | rfl <;> rfl
  unfold flatRule
  rw [hr]
  by_cases hb : b = Byte.newline
  · rw [if_pos (by simpa using hb), hquote hb]
    rcases hq with rfl | rfl <;> rfl
  · rw [if_neg (by simpa using hb)]
    rcases hq with rfl | rfl <;> rfl

/-- The lexer in a literal after the bytes `seen`. The quote before them is no backslash, so they
tell as much about escapes as the two bytes that the lexer keeps. -/
structure InLiteral (quote : UInt8) (seen : List UInt8) (s : Lexer) : Prop where
  region : s.region = literalRegion quote
  escaped : s.isEscaped = escapedBy seen
  last : (s.last != some Byte.backslash) = (seen.head? != some Byte.backslash)

theorem skips_literal (hg : g = .c ∨ g = .cpp) {quote : UInt8}
    (hq : quote = Byte.apostrophe ∨ quote = Byte.quote) :
    Skips g (endsLiteral quote) (InLiteral quote) where
  skipped := by
    intro _ s hs b
    unfold classify
    rw [rule_flat hg, flatRule_of_literal hq hs.region]
  stays := by
    intro seen s b hs hb
    refine ⟨?_, ?_, rfl⟩
    · rw [endsLiteral, ← hs.escaped] at hb
      rw [region_advance, rule_flat hg, flatRule_of_literal hq hs.region, hb]
      rfl
    · rw [isEscaped_advance, hs.last]
      rfl
  leaves := by
    intro seen s b hs hb
    rw [endsLiteral, ← hs.escaped] at hb
    have hbq : b = quote := by
      rw [Bool.and_eq_true, beq_iff_eq] at hb
      exact hb.1
    constructor
    · rw [region_advance, rule_flat hg, flatRule_of_literal hq hs.region, hb]
      rfl
    · unfold followsSlash
      rw [last_advance, hbq]
      rcases hq with rfl | rfl <;> rfl

/-! ## 4. The byte lexer through a text -/

-- A slash in the code that no slash before it turns to a comment.
theorem advance_slash (hg : g = .c ∨ g = .cpp) (hc : s.ClosedBehind) (hr : s.region = .code)
    (hs : s.followsSlash = false) : s.classify g Byte.slash = .code ∧
      (s.advance g Byte.slash).region = .code ∧ (s.advance g Byte.slash).followsSlash = true := by
  have hrule : s.rule g Byte.slash = (.code, .code) := by
    rw [rule_flat hg, flatRule_of_code hr (by decide)]
    exact fromCode_of_plain (by decide) (by decide) (fun _ => hs)
  refine ⟨congrArg Prod.fst hrule, congrArg Prod.snd hrule, ?_⟩
  rw [followsSlash_advance hc, endsComment, hr]
  rfl

/-- The byte lexer reads a token as a whole: it gives the bytes their classes and stands in the code
after them. -/
theorem classesFrom_next (hg : g = .c ∨ g = .cpp) (hc : s.ClosedBehind)
    (h : s.AtCode (b :: rest)) :
    classesFrom g s (Token.next b rest).1.bytes = (Token.next b rest).1.classes ∧
      AtCode ((Token.next b rest).1.bytes.foldl (advance g) s) (Token.next b rest).2 := by
  obtain ⟨hregion, hslash⟩ := h b rfl
  induction b, rest using Token.next_cases with
  | lineComment more =>
    obtain ⟨hclass, hregion', hfollows⟩ := advance_slash hg hc hregion (hslash (.inl rfl))
    have hrule : (s.advance g Byte.slash).rule g Byte.slash = (.skipped, .lineComment) := by
      rw [rule_flat hg, flatRule_of_code hregion' (by decide), fromCode, hfollows]
      rfl
    obtain ⟨hbody, hcode⟩ := (skips_line hg).run []
      ((s.advance g Byte.slash).advance g Byte.slash) (congrArg Prod.snd hrule) more
    refine ⟨?_, hcode⟩
    simp only [Token.bytes, Token.classes, Prod.map_fst, classesFrom_cons, hclass, hbody]
    rw [classify, hrule]
  | blockComment more =>
    obtain ⟨hclass, hregion', hfollows⟩ := advance_slash hg hc hregion (hslash (.inl rfl))
    have hrule : (s.advance g Byte.slash).rule g Byte.star =
        (.skipped, .blockComment (s.offset + 1) []) := by
      rw [rule_flat hg, flatRule_of_code hregion' (by decide), fromCode, hfollows]
      rfl
    obtain ⟨hbody, hcode⟩ := (skips_block hg (s.offset + 1)).run []
      ((s.advance g Byte.slash).advance g Byte.star)
      ⟨congrArg Prod.snd hrule, rfl, fun hne => absurd rfl hne⟩ more
    refine ⟨?_, hcode⟩
    simp only [Token.bytes, Token.classes, Prod.map_fst, classesFrom_cons, hclass, hbody]
    rw [classify, hrule]
  | literal quote rest hq =>
    have hrule : s.rule g quote = (.skipped, literalRegion quote) := by
      rw [rule_flat hg]
      rcases hq with rfl | rfl
      · rw [flatRule_of_code hregion (by decide)]
        rfl
      · rw [flatRule_of_code hregion (by decide)]
        rfl
    have hescaped : (s.advance g quote).isEscaped = escapedBy [] := by
      rw [isEscaped_advance]
      rcases hq with rfl | rfl <;> rfl
    have hlast : ((s.advance g quote).last != some Byte.backslash) = true := by
      rcases hq with rfl | rfl <;> rfl
    obtain ⟨hbody, hcode⟩ := (skips_literal hg hq).run [] (s.advance g quote)
      ⟨congrArg Prod.snd hrule, hescaped, hlast⟩ rest
    refine ⟨?_, hcode⟩
    simp only [Token.bytes, Token.classes, Prod.map_fst, classesFrom_cons, hbody]
    rw [classify, hrule]
  | newline rest =>
    have hrule : s.rule g Byte.newline = (.skipped, .code) := by
      rw [rule_flat hg, flatRule, hregion]
      rfl
    refine ⟨?_, atCode_of_followsSlash (congrArg Prod.snd hrule) rfl rest⟩
    simp only [Token.bytes, Token.classes, classesFrom_cons, classesFrom_nil]
    rw [classify, hrule]
  | other b rest ha hq hn hnext =>
    have hrule : s.rule g b = (.code, .code) := by
      rw [rule_flat hg, flatRule_of_code hregion hn]
      exact fromCode_of_plain ha hq hslash
    refine ⟨?_, fun c hhead => ⟨congrArg Prod.snd hrule, fun hopen => ?_⟩⟩
    · simp only [Token.bytes, Token.classes, classesFrom_cons, classesFrom_nil]
      rw [classify, hrule]
    · -- A lone slash can open a comment, but neither a slash nor a star follows it.
      have hb : b ≠ Byte.slash := by
        intro heq
        obtain ⟨hs, ht⟩ := hnext heq
        rcases hopen with rfl | rfl
        · exact hs hhead
        · exact ht hhead
      show followsSlash (s.advance g b) = false
      simp [followsSlash, hb]

theorem classesFrom_eq_flatMap_tokens (hg : g = .c ∨ g = .cpp) (text : List UInt8)
    (hc : s.ClosedBehind) (h : s.AtCode text) :
    classesFrom g s text = (tokens text).flatMap Token.classes := by
  fun_induction tokens text generalizing s with
  | case1 => simp
  | case2 b rest _ ih =>
    obtain ⟨hclasses, hcode⟩ := classesFrom_next hg hc h
    have hsplit := classesFrom_append g s (Token.next b rest).1.bytes (Token.next b rest).2
    rw [Token.bytes_next_append, hclasses, ih (hc.foldl g _) hcode] at hsplit
    rw [hsplit, List.flatMap_cons]

end Lexer

theorem flatMap_bytes_tokens (text : List UInt8) : (tokens text).flatMap Token.bytes = text := by
  fun_induction tokens text with
  | case1 => rfl
  | case2 b rest _ ih => rw [List.flatMap_cons, ih, Token.bytes_next_append]

/-- **Tokens.** The tokens of a text make up the text, and the byte lexer of `c` and `cpp` gives
every byte the class that its token does. -/
theorem classes_eq_flatMap_tokens (text : List UInt8) :
    (tokens text).flatMap Token.bytes = text ∧
      Lexer.classes .c text = (tokens text).flatMap Token.classes ∧
      Lexer.classes .cpp text = (tokens text).flatMap Token.classes := by
  have hcode := Lexer.atCode_of_followsSlash (s := Lexer.initial) rfl rfl text
  refine ⟨flatMap_bytes_tokens text, ?_, ?_⟩
  · rw [Lexer.classes_eq_classesFrom]
    exact Lexer.classesFrom_eq_flatMap_tokens (.inl rfl) text Lexer.closedBehind_initial hcode
  · rw [Lexer.classes_eq_classesFrom]
    exact Lexer.classesFrom_eq_flatMap_tokens (.inr rfl) text Lexer.closedBehind_initial hcode

end Nesting
