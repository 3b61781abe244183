import Nesting.Proofs.Checked.Operations
import Nesting.Proofs.Lexer.NestedComment

/-!
# The lexer with checked operations

The lexer as it runs on words. It remembers no bytes but looks them up in the text by their offset,
keeps its flags apart, and counts the characters of every literal. This file shows that it never
faults, and that the bytes get the classes that the lexer on natural numbers gives them.
-/

namespace Nesting

namespace Checked

/-! ## 1. The checked lexer -/

inductive Literal where
  | char
  | string
  | byteEscape
  deriving DecidableEq, Repr

/-- The lexer between two bytes. -/
structure Lexer where
  lineComment : Bool
  /-- The stars of the open block comments, innermost first. -/
  stars : List Nat
  closedAt : Option Nat
  literal : Option Literal
  /-- How many characters of the literal were counted. -/
  length : Nat
  deriving DecidableEq, Repr

namespace Lexer

def initial : Lexer := ⟨false, [], none, none, 0⟩

def isEscaped (text : List UInt8) (i : Nat) : Except Fault Bool := do
  let last ← byteBefore text i 1
  if last = some Byte.backslash then
    let beforeLast ← byteBefore text i 2
    return beforeLast != some Byte.backslash
  else return false

def followsSlash (s : Lexer) (text : List UInt8) (i : Nat) : Except Fault Bool := do
  let slash ← follows text i Byte.slash
  if slash then
    let before ← sub i 1
    return s.closedAt != some before
  else return false

def closesComment (text : List UInt8) (i star : Nat) : Except Fault Bool := do
  let b ← get text i
  let last ← byteBefore text i 1
  let afterStar ← add star 1
  return b == Byte.slash && last == some Byte.star && i != afterStar

/-- Whether the byte at `i` is `b` and a slash before it makes the two open a comment. -/
def opensWith (s : Lexer) (b : UInt8) (text : List UInt8) (i : Nat) : Except Fault Bool := do
  let c ← get text i
  if c = b then s.followsSlash text i else return false

def openLiteral (s : Lexer) (literal : Literal) : ByteClass × Lexer :=
  (.skipped, { s with literal := some literal, length := 0 })

/-- A byte outside comments and literals that opens no comment. -/
def fromCode (s : Lexer) (b : UInt8) : ByteClass × Lexer :=
  if b = Byte.apostrophe then s.openLiteral .char
  else if b = Byte.quote then s.openLiteral .string
  else (.code, s)

/-- A byte of the innermost of the open block comments. -/
def inComment (s : Lexer) (text : List UInt8) (i star : Nat) (outer : List Nat) :
    Except Fault (ByteClass × Lexer) := do
  let closes ← closesComment text i star
  if closes then return (.skipped, { s with stars := outer, closedAt := some i })
  else return (.skipped, s)

/-- The rules for `c` and `cpp`. Every look-up is made, also where the byte at hand needs none. -/
def classifyFlat (s : Lexer) (text : List UInt8) (i : Nat) :
    Except Fault (ByteClass × Lexer) := do
  let b ← get text i
  let block ← s.opensWith Byte.star text i
  let line ← s.opensWith Byte.slash text i
  let escaped ← isEscaped text i
  if b = Byte.newline then return (.skipped, { s with lineComment := false })
  else if s.lineComment then return (.skipped, s)
  else match s.stars with
    | star :: outer => s.inComment text i star outer
    | [] =>
      match s.literal with
      | none =>
        if block then return (.skipped, { s with stars := [i] })
        else if line then return (.skipped, { s with lineComment := true })
        else return s.fromCode b
      | some literal =>
        if b = (if literal = .string then Byte.quote else Byte.apostrophe) ∧ escaped = false then
          return (.skipped, { s with literal := none })
        else return (.skipped, s)

/-- A byte of a literal that does not end it. A backslash that none precedes is not counted. -/
def countByte (s : Lexer) (b : UInt8) (last : Option UInt8) : Except Fault (ByteClass × Lexer) := do
  if b ≠ Byte.backslash ∨ last = some Byte.backslash then
    let length ← add s.length 1
    return (.skipped, { s with length := length })
  else return (.skipped, s)

def closeLiteral (s : Lexer) : ByteClass × Lexer :=
  (.code, { s with literal := none, length := 0 })

/-- A byte of a literal by the rules for `rust`. -/
def inLiteral (s : Lexer) (literal : Literal) (text : List UInt8) (i : Nat) :
    Except Fault (ByteClass × Lexer) := do
  let b ← get text i
  let last ← byteBefore text i 1
  let escaped ← isEscaped text i
  match literal with
  | .char =>
    if b = Byte.lowerX ∧ last = some Byte.backslash then
      return (.skipped, { s with literal := some .byteEscape })
    else if s.length = 1 ∨ (b = Byte.apostrophe ∧ escaped = false) then return s.closeLiteral
    else s.countByte b last
  | .string =>
    if b = Byte.quote ∧ escaped = false then return s.closeLiteral else s.countByte b last
  | .byteEscape =>
    if b = Byte.apostrophe ∨ Byte.isHexDigit b = false then return s.closeLiteral
    else s.countByte b last

/-- The rules for `rust`. -/
def classifyNested (s : Lexer) (text : List UInt8) (i : Nat) :
    Except Fault (ByteClass × Lexer) := do
  let b ← get text i
  let block ← s.opensWith Byte.star text i
  let line ← s.opensWith Byte.slash text i
  if b = Byte.newline then return (.skipped, { s with lineComment := false })
  else if s.lineComment then return (.skipped, s)
  else if s.literal = none ∧ block then return (.skipped, { s with stars := i :: s.stars })
  else match s.stars with
    | star :: outer => s.inComment text i star outer
    | [] =>
      match s.literal with
      | none =>
        if line then return (.skipped, { s with lineComment := true }) else return s.fromCode b
      | some literal => s.inLiteral literal text i

/-- The class of the byte at `i`, and the lexer after it. -/
def classify (g : Grammar) (s : Lexer) (text : List UInt8) (i : Nat) :
    Except Fault (ByteClass × Lexer) :=
  match g with
  | .generic => .ok (.code, s)
  | .c | .cpp => s.classifyFlat text i
  | .rust => s.classifyNested text i

/-! ## 2. Looking back into the text -/

/-- The lexer `s` remembers what the checked one finds in the text before `i`. -/
structure Sees (text : List UInt8) (i : Nat) (s : Nesting.Lexer) : Prop where
  offset : s.offset = i
  last : byteBefore text i 1 = .ok s.last
  beforeLast : byteBefore text i 2 = .ok s.beforeLast

theorem sees_initial (text : List UInt8) : Sees text 0 Nesting.Lexer.initial :=
  ⟨rfl, rfl, rfl⟩

section

variable {g : Grammar} {text : List UInt8} {i : Nat} {b : UInt8} {s : Nesting.Lexer} {w : Lexer}

theorem Sees.advance (h : Sees text i s) (hb : text[i]? = some b) (g : Grammar) :
    Sees text (i + 1) (s.advance g b) where
  offset := by rw [Nesting.Lexer.offset_advance, h.offset]
  last := byteBefore_succ hb
  beforeLast := by
    -- Two bytes before the next offset is one byte before this one.
    rw [show byteBefore text (i + 1) 2 = byteBefore text i 1 by
      unfold byteBefore
      rw [show i + 1 - 2 = i - 1 by omega]
      by_cases hi : 1 ≤ i
      · rw [if_pos hi, if_pos (by omega)]
      · rw [if_neg hi, if_neg (by omega)], h.last]
    rfl

theorem Sees.isEscaped (h : Sees text i s) : isEscaped text i = .ok s.isEscaped := by
  unfold Lexer.isEscaped Nesting.Lexer.isEscaped
  rw [h.last, h.beforeLast]
  by_cases hlast : s.last = some Byte.backslash
  · rw [hlast]
    rfl
  · have hne : (s.last == some Byte.backslash) = false := by simpa using hlast
    rw [hne]
    exact if_neg hlast

theorem Sees.followsSlash (h : Sees text i s) (hclosed : w.closedAt = s.closedAt) :
    w.followsSlash text i = .ok s.followsSlash := by
  unfold Lexer.followsSlash Nesting.Lexer.followsSlash
  rw [follows_eq_ok h.last, ok_bind, hclosed, h.offset]
  by_cases hslash : s.last = some Byte.slash
  · have hi : 1 ≤ i := one_le_of_byteBefore (h.last.trans (congrArg _ hslash))
    rw [hslash, sub_eq_ok hi]
    rfl
  · rw [beq_eq_false_iff_ne.mpr hslash]
    rfl

theorem Sees.closesComment (h : Sees text i s) (hb : text[i]? = some b) {star : Nat}
    (hstar : star + 1 < Word.limit) :
    closesComment text i star = .ok (s.closesComment star b) := by
  unfold Lexer.closesComment Nesting.Lexer.closesComment
  rw [get_eq_ok hb, h.last, add_eq_ok hstar, h.offset]
  rfl

theorem Sees.opensWith (h : Sees text i s) (hb : text[i]? = some b)
    (hclosed : w.closedAt = s.closedAt) (c : UInt8) :
    w.opensWith c text i = .ok (b == c && s.followsSlash) := by
  unfold Lexer.opensWith
  rw [get_eq_ok hb, h.followsSlash hclosed]
  show (if b = c then Except.ok s.followsSlash else Except.ok false) = _
  by_cases hbc : b = c
  · rw [if_pos hbc, beq_iff_eq.mpr hbc, Bool.true_and]
  · rw [if_neg hbc, beq_eq_false_iff_ne.mpr hbc, Bool.false_and]

/-! ## 3. The two lexers side by side -/

def literalOf : Region → Option Literal
  | .string => some .string
  | .char _ => some .char
  | .byteEscape => some .byteEscape
  | _ => none

/-- The checked lexer in a region, with a count. -/
def inRegion (region : Region) (closedAt : Option Nat) (length : Nat) : Lexer where
  lineComment := region == .lineComment
  stars := region.stars
  closedAt := closedAt
  literal := literalOf region
  length := length

/-- The regions that a grammar has. -/
def HasRegion : Grammar → Region → Prop
  | .generic, region => region = .code
  | .c, region | .cpp, region => region ≠ .byteEscape
  | .rust, _ => True

/-- The checked lexer `w` before the offset `i` stands where `s` does. Its count is that of the
character literal, if it is in one, and never exceeds the bytes read. -/
structure Mirrors (g : Grammar) (text : List UInt8) (i : Nat) (w : Lexer) (s : Nesting.Lexer) :
    Prop where
  sees : Sees text i s
  same : w = inRegion s.region s.closedAt w.length
  counts : ∀ body, s.region = .char body → w.length = body
  bounded : w.length ≤ i
  behind : ∀ star ∈ s.region.stars, star < i
  region : HasRegion g s.region

theorem Mirrors.exists_inRegion (h : Mirrors g text i w s) : ∃ n ≤ i,
    w = inRegion s.region s.closedAt n ∧ ∀ body, s.region = .char body → n = body :=
  ⟨w.length, h.bounded, h.same, h.counts⟩

theorem mirrors_initial (g : Grammar) (text : List UInt8) :
    Mirrors g text 0 initial Nesting.Lexer.initial where
  sees := sees_initial text
  same := rfl
  counts := by
    intro body hbody
    cases hbody
  bounded := Nat.le_refl 0
  behind := by
    intro star hstar
    cases hstar
  region := by
    cases g with
    | generic => rfl
    | c | cpp => exact Region.noConfusion
    | rust => trivial

/-! ## 4. The rules -/

/-- The checked lexer runs without a fault and arrives where the rule says. -/
def Reaches (x : Except Fault (ByteClass × Lexer)) (out : ByteClass × Region)
    (closedAt : Option Nat) (bound : Nat) : Prop :=
  ∃ n, x = .ok (out.1, inRegion out.2 closedAt n) ∧ (∀ body, out.2 = .char body → n = body) ∧
    n ≤ bound

variable {n star : Nat} {outer : List Nat} {region : Region} {closedAt : Option Nat}

theorem reaches_inComment (h : Sees text i s) (hb : text[i]? = some b)
    (hstar : star + 1 < Word.limit) (hn : n ≤ i) :
    Reaches ((inRegion (.blockComment star outer) closedAt n).inComment text i star outer)
      (.skipped, if s.closesComment star b then .inComments outer else .blockComment star outer)
      (if s.closesComment star b then some i else closedAt) (i + 1) := by
  unfold inComment
  rw [h.closesComment hb hstar]
  refine ⟨n, ?_, ?_, by omega⟩
  · by_cases hcloses : s.closesComment star b = true
    · rw [hcloses]
      cases outer <;> rfl
    · rw [Bool.not_eq_true] at hcloses
      rw [hcloses]
      rfl
  · intro body hbody
    revert hbody
    split
    · cases outer <;> exact Region.noConfusion
    · exact Region.noConfusion

theorem reaches_newline (hn : n ≤ i) (hcounts : ∀ body, region = .char body → n = body) :
    Reaches (.ok (.skipped, { inRegion region closedAt n with lineComment := false }))
      (.skipped, region.afterNewline) closedAt (i + 1) := by
  refine ⟨n, ?_, ?_, by omega⟩
  · cases region <;> rfl
  · intro body hbody
    apply hcounts body
    cases region with
    | lineComment => cases hbody
    | _ => exact hbody

-- A byte of the code, once it is known whether a slash before it opens a comment.
theorem reaches_fromCode (h : Sees text i s) (hn : n ≤ i) :
    Reaches
      (if (b == Byte.star && s.followsSlash) = true then
        .ok (.skipped, { inRegion .code closedAt n with stars := [i] })
      else if (b == Byte.slash && s.followsSlash) = true then
        .ok (.skipped, { inRegion .code closedAt n with lineComment := true })
      else .ok ((inRegion .code closedAt n).fromCode b)) (s.fromCode b) closedAt (i + 1) := by
  unfold Nesting.Lexer.fromCode
  by_cases hblock : (b == Byte.star && s.followsSlash) = true
  · rw [if_pos hblock, if_pos hblock, h.offset]
    exact ⟨n, rfl, fun _ => Region.noConfusion, by omega⟩
  rw [if_neg hblock, if_neg hblock]
  by_cases hline : (b == Byte.slash && s.followsSlash) = true
  · rw [if_pos hline, if_pos hline]
    exact ⟨n, rfl, fun _ => Region.noConfusion, by omega⟩
  rw [if_neg hline, if_neg hline]
  by_cases hapostrophe : b = Byte.apostrophe
  · subst hapostrophe
    exact ⟨0, rfl, fun _ hbody => by cases hbody; rfl, by omega⟩
  by_cases hquote : b = Byte.quote
  · subst hquote
    exact ⟨0, rfl, fun _ => Region.noConfusion, by omega⟩
  unfold fromCode
  rw [if_neg hapostrophe, if_neg hquote, if_neg (by simpa using hapostrophe),
    if_neg (by simpa using hquote)]
  exact ⟨n, rfl, fun _ => Region.noConfusion, by omega⟩

theorem reaches_same (hn : n ≤ i) (hcounts : ∀ body, region = .char body → n = body) :
    Reaches (.ok (.skipped, inRegion region closedAt n)) (.skipped, region) closedAt (i + 1) :=
  ⟨n, rfl, hcounts, by omega⟩

-- A literal of the flat grammars ends with its quote.
theorem reaches_flatLiteral {literal : Literal} {quote : UInt8} (hn : n ≤ i)
    (hcounts : ∀ body, region = .char body → n = body) (hliteral : literalOf region = some literal)
    (hquote : (if literal = .string then Byte.quote else Byte.apostrophe) = quote)
    (escaped : Bool) :
    Reaches
      (if b = (if literal = .string then Byte.quote else Byte.apostrophe) ∧ escaped = false then
        .ok (.skipped, { inRegion region closedAt n with literal := none })
      else .ok (.skipped, inRegion region closedAt n))
      (.skipped, if b == quote && !escaped then .code else region) closedAt (i + 1) := by
  rw [hquote]
  by_cases hends : b = quote ∧ escaped = false
  · rw [if_pos hends, if_pos (by simpa using hends)]
    refine ⟨n, ?_, fun _ => Region.noConfusion, by omega⟩
    cases region <;> first | rfl | cases hliteral
  · rw [if_neg hends, if_neg (by simpa using hends)]
    exact reaches_same hn hcounts

theorem Mirrors.reaches_flat (h : Mirrors g text i w s) (hg : g = .c ∨ g = .cpp)
    (hb : text[i]? = some b) (hi : i + 1 < Word.limit) :
    Reaches (w.classifyFlat text i) (s.flatRule b)
      (if s.endsComment b then some i else s.closedAt) (i + 1) := by
  obtain ⟨n, hn, rfl, hcounts⟩ := h.exists_inRegion
  have hsees := h.sees
  unfold classifyFlat
  rw [get_eq_ok hb, hsees.opensWith hb rfl, hsees.opensWith hb rfl, hsees.isEscaped]
  simp only [ok_bind, pure_eq_ok]
  unfold Nesting.Lexer.flatRule
  by_cases hnewline : b = Byte.newline
  · rw [if_pos hnewline, if_pos (by simpa using hnewline),
      Nesting.Lexer.endsComment_of_ne_slash s (by rw [hnewline]; decide)]
    exact reaches_newline hn hcounts
  have hne : ¬ (b == Byte.newline) = true := by simpa using hnewline
  rw [if_neg hnewline, if_neg hne]
  cases hr : s.region with
  | code =>
    rw [Nesting.Lexer.endsComment_of_stars (by rw [hr]; rfl)]
    exact reaches_fromCode hsees hn
  | lineComment =>
    rw [Nesting.Lexer.endsComment_of_stars (by rw [hr]; rfl)]
    exact reaches_same hn fun _ => Region.noConfusion
  | blockComment star outer =>
    have hstar := h.behind star (by rw [hr]; exact List.mem_cons_self ..)
    have hends : s.endsComment b = s.closesComment star b := by
      unfold Nesting.Lexer.endsComment
      rw [hr]
    rw [hends]
    exact reaches_inComment hsees hb (by omega) hn
  | string =>
    rw [Nesting.Lexer.endsComment_of_stars (by rw [hr]; rfl)]
    exact reaches_flatLiteral hn (fun _ => Region.noConfusion) rfl rfl _
  | char body =>
    rw [Nesting.Lexer.endsComment_of_stars (by rw [hr]; rfl)]
    rw [hr] at hcounts
    exact reaches_flatLiteral hn hcounts rfl rfl _
  | byteEscape =>
    have hregion := h.region
    rw [hr] at hregion
    rcases hg with rfl | rfl <;> exact absurd rfl hregion

theorem countByte_eq (hn : n + 1 < Word.limit) (last : Option UInt8) :
    (inRegion region closedAt n).countByte b last = .ok (.skipped, inRegion region closedAt
      (if b = Byte.backslash ∧ last ≠ some Byte.backslash then n else n + 1)) := by
  unfold countByte
  by_cases hb : b = Byte.backslash ∧ last ≠ some Byte.backslash
  · rw [if_pos hb, if_neg (by rw [not_or]; exact ⟨not_not_intro hb.1, hb.2⟩)]
    rfl
  · have hcounted : b ≠ Byte.backslash ∨ last = some Byte.backslash := by
      by_cases hback : b = Byte.backslash
      · exact .inr (Decidable.not_not.mp fun hlast => hb ⟨hback, hlast⟩)
      · exact .inl hback
    rw [if_neg hb, if_pos hcounted]
    show (do let length ← add n 1; _) = _
    rw [add_eq_ok hn]
    rfl

theorem reaches_countByte (hi : i + 1 < Word.limit) (hn : n ≤ i)
    (hregion : ∀ body, region ≠ .char body) (last : Option UInt8) :
    Reaches ((inRegion region closedAt n).countByte b last) (.skipped, region) closedAt
      (i + 1) := by
  rw [countByte_eq (by omega)]
  refine ⟨_, rfl, fun body hbody => absurd hbody (hregion body), ?_⟩
  split <;> omega

theorem reaches_closeLiteral (bound : Nat) {literal : Literal}
    (hliteral : literalOf region = some literal) :
    Reaches (.ok (inRegion region closedAt n).closeLiteral) (.code, .code) closedAt bound := by
  refine ⟨0, ?_, fun _ => Region.noConfusion, Nat.zero_le _⟩
  cases region <;> first | rfl | cases hliteral

theorem reaches_charRule (h : Sees text i s) (hb : text[i]? = some b) (hi : i + 1 < Word.limit)
    (hn : n ≤ i) : Reaches ((inRegion (.char n) closedAt n).inLiteral .char text i)
      (s.charRule n b) closedAt (i + 1) := by
  unfold inLiteral Nesting.Lexer.charRule
  rw [get_eq_ok hb, h.last, h.isEscaped]
  simp only [ok_bind, pure_eq_ok]
  by_cases hx : b = Byte.lowerX ∧ s.last = some Byte.backslash
  · rw [if_pos hx, if_pos (by simpa using hx)]
    exact ⟨n, rfl, fun _ => Region.noConfusion, by omega⟩
  have hx' : ¬ (b == Byte.lowerX && s.last == some Byte.backslash) = true := by simpa using hx
  rw [if_neg hx, if_neg hx']
  by_cases hfull : n = 1
  · rw [if_pos (by exact .inl hfull), if_pos (beq_iff_eq.mpr hfull)]
    exact reaches_closeLiteral _ rfl
  rw [if_neg (show ¬ (n == 1) = true by simpa using hfull)]
  by_cases hend : b = Byte.apostrophe ∧ s.isEscaped = false
  · rw [if_pos (by exact .inr hend), if_pos (by simpa using hend)]
    exact reaches_closeLiteral _ rfl
  have hend' : ¬ (b == Byte.apostrophe && !s.isEscaped) = true := by simpa using hend
  rw [if_neg hend', if_neg (by exact not_or.mpr ⟨hfull, hend⟩), countByte_eq (by omega)]
  by_cases hback : b = Byte.backslash ∧ s.last ≠ some Byte.backslash
  · rw [if_pos hback, if_pos (by simpa using hback)]
    exact ⟨n, rfl, fun _ hbody => Region.char.inj hbody, by omega⟩
  · have hback' : ¬ (b == Byte.backslash && s.last != some Byte.backslash) = true := by
      simpa using hback
    rw [if_neg hback, if_neg hback']
    exact ⟨n + 1, rfl, fun _ hbody => Region.char.inj hbody, by omega⟩

theorem reaches_stringRule (h : Sees text i s) (hb : text[i]? = some b) (hi : i + 1 < Word.limit)
    (hn : n ≤ i) : Reaches ((inRegion .string closedAt n).inLiteral .string text i)
      (if b == Byte.quote && !s.isEscaped then (.code, .code) else (.skipped, .string)) closedAt
      (i + 1) := by
  unfold inLiteral
  rw [get_eq_ok hb, h.last, h.isEscaped]
  simp only [ok_bind, pure_eq_ok]
  by_cases hend : b = Byte.quote ∧ s.isEscaped = false
  · rw [if_pos hend, if_pos (by simpa using hend)]
    exact reaches_closeLiteral _ rfl
  · rw [if_neg hend, if_neg (by simpa using hend)]
    exact reaches_countByte hi hn (fun _ => Region.noConfusion) _

theorem reaches_byteEscapeRule (h : Sees text i s) (hb : text[i]? = some b)
    (hi : i + 1 < Word.limit) (hn : n ≤ i) :
    Reaches ((inRegion .byteEscape closedAt n).inLiteral .byteEscape text i)
      (if b == Byte.apostrophe || !Byte.isHexDigit b then (.code, .code)
        else (.skipped, .byteEscape)) closedAt (i + 1) := by
  unfold inLiteral
  rw [get_eq_ok hb, h.last, h.isEscaped]
  simp only [ok_bind, pure_eq_ok]
  by_cases hend : b = Byte.apostrophe ∨ Byte.isHexDigit b = false
  · rw [if_pos hend, if_pos (by simpa using hend)]
    exact reaches_closeLiteral _ rfl
  · rw [if_neg hend, if_neg (by simpa using hend)]
    exact reaches_countByte hi hn (fun _ => Region.noConfusion) _

theorem Mirrors.reaches_nested (h : Mirrors g text i w s) (hb : text[i]? = some b)
    (hi : i + 1 < Word.limit) :
    Reaches (w.classifyNested text i) (s.nestedRule b)
      (if s.endsComment b then some i else s.closedAt) (i + 1) := by
  obtain ⟨n, hn, rfl, hcounts⟩ := h.exists_inRegion
  have hsees := h.sees
  unfold classifyNested
  rw [get_eq_ok hb, hsees.opensWith hb rfl, hsees.opensWith hb rfl]
  simp only [ok_bind, pure_eq_ok]
  unfold Nesting.Lexer.nestedRule
  by_cases hnewline : b = Byte.newline
  · rw [if_pos hnewline, if_pos (by simpa using hnewline),
      Nesting.Lexer.endsComment_of_ne_slash s (by rw [hnewline]; decide)]
    exact reaches_newline hn hcounts
  have hne : ¬ (b == Byte.newline) = true := by simpa using hnewline
  rw [if_neg hnewline, if_neg hne]
  cases hr : s.region with
  | code =>
    rw [Nesting.Lexer.endsComment_of_stars (by rw [hr]; rfl)]
    -- No literal is open, so the star is looked at first, as by the flat rules.
    show Reaches (if (none : Option Literal) = none ∧ _ then _ else _) _ _ _
    simp only [true_and]
    exact reaches_fromCode hsees hn
  | lineComment =>
    rw [Nesting.Lexer.endsComment_of_stars (by rw [hr]; rfl)]
    exact reaches_same hn fun _ => Region.noConfusion
  | blockComment star outer =>
    have hstar := h.behind star (by rw [hr]; exact List.mem_cons_self ..)
    have hends : s.endsComment b = s.closesComment star b := by
      unfold Nesting.Lexer.endsComment
      rw [hr]
    show Reaches (if (none : Option Literal) = none ∧ (b == Byte.star && s.followsSlash) = true then
        .ok (.skipped, inRegion (.blockComment i (star :: outer)) s.closedAt n)
      else (inRegion (.blockComment star outer) s.closedAt n).inComment text i star outer)
      (.skipped, if (b == Byte.star && s.followsSlash) = true then _ else _) _ _
    simp only [true_and]
    by_cases hblock : (b == Byte.star && s.followsSlash) = true
    · have hslash : b ≠ Byte.slash := by
        rw [Bool.and_eq_true, beq_iff_eq] at hblock
        rw [hblock.1]
        decide
      rw [Nesting.Lexer.endsComment_of_ne_slash s hslash, if_pos hblock, if_pos hblock,
        hsees.offset]
      exact ⟨n, rfl, fun _ => Region.noConfusion, by omega⟩
    · rw [hends, if_neg hblock, if_neg hblock]
      exact reaches_inComment hsees hb (by omega) hn
  | string =>
    rw [Nesting.Lexer.endsComment_of_stars (by rw [hr]; rfl)]
    exact reaches_stringRule hsees hb hi hn
  | char body =>
    rw [Nesting.Lexer.endsComment_of_stars (by rw [hr]; rfl)]
    rw [hcounts body hr] at hn ⊢
    exact reaches_charRule hsees hb hi hn
  | byteEscape =>
    rw [Nesting.Lexer.endsComment_of_stars (by rw [hr]; rfl)]
    exact reaches_byteEscapeRule hsees hb hi hn

/-! ## 5. One byte -/

theorem HasRegion.code {region : Region} (h : HasRegion g region) :
    g = .generic → region = .code := by
  rintro rfl
  exact h

theorem HasRegion.rule (h : HasRegion g s.region) (b : UInt8) : HasRegion g (s.rule g b).2 := by
  have hmoves : s.Moves g b (s.rule g b) := Nesting.Lexer.moves_rule h.code
  cases g with
  | generic => exact h
  | c | cpp =>
    intro hescape
    rcases hmoves.of_byteEscape hescape with hg | hr
    · cases hg
    · exact h hr
  | rust => trivial

theorem Mirrors.reaches (h : Mirrors g text i w s) (hb : text[i]? = some b)
    (hi : i + 1 < Word.limit) :
    Reaches (w.classify g text i) (s.rule g b)
      (if s.endsComment b then some i else s.closedAt) (i + 1) := by
  cases g with
  | generic =>
    have hr : s.region = .code := h.region
    rw [Nesting.Lexer.endsComment_of_stars (by rw [hr]; rfl), h.same]
    exact ⟨w.length, rfl, h.counts, Nat.le_succ_of_le h.bounded⟩
  | c => exact h.reaches_flat (.inl rfl) hb hi
  | cpp => exact h.reaches_flat (.inr rfl) hb hi
  | rust => exact h.reaches_nested hb hi

/-- **One byte.** The checked lexer gives a byte the class that the lexer gives it, without a
fault, and both go on side by side. -/
theorem Mirrors.classify (h : Mirrors g text i w s) (hb : text[i]? = some b)
    (hi : i + 1 < Word.limit) : ∃ w', w.classify g text i = .ok (s.classify g b, w') ∧
      Mirrors g text (i + 1) w' (s.advance g b) := by
  rcases h.reaches hb hi with ⟨n, hok, hcounts, hbounded⟩
  refine ⟨_, hok, h.sees.advance hb g, ?_, hcounts, hbounded, ?_, h.region.rule b⟩
  · unfold Nesting.Lexer.advance
    rw [h.sees.offset]
    rfl
  · intro star hstar
    rcases (Nesting.Lexer.moves_rule h.region.code).mem_stars hstar with rfl | hold
    · rw [h.sees.offset]
      omega
    · have hlt := h.behind star hold
      omega

end

end Lexer

end Checked

end Nesting
