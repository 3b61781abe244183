import Nesting.Proofs.Lexer.Token

/-!
# Character literals

In `rust` an apostrophe opens a literal or a lifetime, and the lexer does not look ahead to tell which.
It gives a literal one byte for its character, or a backslash and one byte, or a byte escape, and
whatever comes then ends it. So the literals that are written in this way are skipped as a whole. A
character of several bytes and an escape with braces take more: their rest is code, and the quote that
should end the literal opens another.
-/

namespace Nesting

namespace Byte

abbrev lowerU : UInt8 := 0x75
abbrev rightBrace : UInt8 := 0x7d

/-- The bytes that may stand after the backslash of an escape of two bytes: `n`, `r`, `t`, `0`, a
backslash and the two quotes. -/
def escapes : List UInt8 := [0x6e, 0x72, 0x74, 0x30, backslash, apostrophe, quote]

end Byte

/-! ## 1. The literals -/

/-- A character literal, by the way its character is written. -/
inductive CharLiteral where
  | scalar (c : Char) (written : c ∉ ['\'', '\\', '\n', '\r', '\t'])
  | escape (b : UInt8) (known : b ∈ Byte.escapes)
  | byte (high low : UInt8) (hex : Byte.isHexDigit high ∧ Byte.isHexDigit low)
  | unicode (digits : List UInt8) (some : 1 ≤ digits.length ∧ digits.length ≤ 6)
      (hex : ∀ d ∈ digits, Byte.isHexDigit d)

namespace CharLiteral

/-- What stands between the quotes. -/
def body : CharLiteral → List UInt8
  | scalar c _ => String.utf8EncodeChar c
  | escape b _ => [Byte.backslash, b]
  | byte high low _ => [Byte.backslash, Byte.lowerX, high, low]
  | unicode digits _ _ =>
    [Byte.backslash, Byte.lowerU, Byte.leftBrace] ++ digits ++ [Byte.rightBrace]

/-- The literal up to its last quote. -/
def opened (l : CharLiteral) : List UInt8 := Byte.apostrophe :: l.body

def bytes (l : CharLiteral) : List UInt8 := l.opened ++ [Byte.apostrophe]

/-- The character is a single byte, or an escape without braces. -/
def IsShort : CharLiteral → Prop
  | scalar c _ => c.toNat < 128
  | escape .. | byte .. => True
  | unicode .. => False

/-- The part of the body that the lexer takes for the character. -/
def taken : CharLiteral → List UInt8
  | scalar c _ => (String.utf8EncodeChar c).take 1
  | escape b _ => [Byte.backslash, b]
  | byte high low _ => [Byte.backslash, Byte.lowerX, high, low]
  | unicode .. => [Byte.backslash, Byte.lowerU]

/-- The part of the body after it. -/
def left : CharLiteral → List UInt8
  | scalar c _ => (String.utf8EncodeChar c).drop 1
  | escape .. | byte .. => []
  | unicode digits _ _ => Byte.leftBrace :: digits ++ [Byte.rightBrace]

theorem taken_append_left (l : CharLiteral) : l.taken ++ l.left = l.body := by
  cases l with
  | scalar c _ => exact List.take_append_drop 1 _
  | _ => rfl

end CharLiteral

/-! ## 2. The bytes of a character -/

theorem utf8EncodeChar_of_ascii {c : Char} (h : c.toNat < 128) :
    String.utf8EncodeChar c = [UInt8.ofNat c.toNat] := by
  have hle : c.val.toNat ≤ 127 := Nat.le_of_lt_succ h
  unfold String.utf8EncodeChar
  simp only [hle, if_true]
  rfl

theorem utf8EncodeChar_of_not_ascii {c : Char} (h : ¬ c.toNat < 128) :
    2 ≤ (String.utf8EncodeChar c).length ∧ ∀ b ∈ String.utf8EncodeChar c, 128 ≤ b.toNat := by
  have hlt : ¬ c.val.toNat ≤ 127 := fun hle => h (Nat.lt_succ_of_le hle)
  have hhigh : ∀ n, 128 ≤ n → n < 256 → 128 ≤ (UInt8.ofNat n).toNat := by
    intro n hlow hn
    rw [UInt8.toNat_ofNat_of_lt' hn]
    exact hlow
  unfold String.utf8EncodeChar
  simp only [hlt, if_false]
  split
  · simp only [List.forall_mem_cons, List.not_mem_nil, false_imp_iff, implies_true, and_true]
    refine ⟨by simp, hhigh _ ?_ ?_, hhigh _ ?_ ?_⟩ <;> omega
  · split
    · simp only [List.forall_mem_cons, List.not_mem_nil, false_imp_iff, implies_true, and_true]
      refine ⟨by simp, hhigh _ ?_ ?_, hhigh _ ?_ ?_, hhigh _ ?_ ?_⟩ <;> omega
    · simp only [List.forall_mem_cons, List.not_mem_nil, false_imp_iff, implies_true, and_true]
      refine ⟨by simp, hhigh _ ?_ ?_, hhigh _ ?_ ?_, hhigh _ ?_ ?_, hhigh _ ?_ ?_⟩ <;> omega

/-- A byte that means nothing to the lexer, be it in the code or after the character of a literal. -/
def Inert (b : UInt8) : Prop :=
  b ∉ [Byte.newline, Byte.apostrophe, Byte.quote, Byte.slash, Byte.star, Byte.lowerX]

theorem inert_of_le {b : UInt8} (h : 128 ≤ b.toNat) : Inert b := by
  have hlow : ∀ x ∈ [Byte.newline, Byte.apostrophe, Byte.quote, Byte.slash, Byte.star, Byte.lowerX],
      x.toNat < 128 := by decide +kernel
  intro hb
  have hlt := hlow b hb
  omega

theorem isHexDigit_of_le {b : UInt8} (h : 128 ≤ b.toNat) : Byte.isHexDigit b = false := by
  rw [Bool.eq_false_iff, Ne, Byte.isHexDigit_iff]
  simp only [Char.reduceToNat]
  omega

theorem inert_of_isHexDigit {b : UInt8} (h : Byte.isHexDigit b = true) : Inert b := by
  have hother : ∀ x ∈ [Byte.newline, Byte.apostrophe, Byte.quote, Byte.slash, Byte.star,
      Byte.lowerX], Byte.isHexDigit x = false := by decide +kernel
  intro hb
  rw [hother b hb] at h
  cases h

namespace CharLiteral

-- The one byte of a character, or the first of several, is neither the quote nor a backslash.
theorem taken_scalar {c : Char} (written : c ∉ ['\'', '\\', '\n', '\r', '\t']) :
    ∃ b, (scalar c written).taken = [b] ∧ b ≠ Byte.newline ∧ b ≠ Byte.apostrophe ∧
      b ≠ Byte.backslash := by
  by_cases hc : c.toNat < 128
  · have hne : ∀ d : Char, d.toNat < 128 → c ≠ d → UInt8.ofNat c.toNat ≠ UInt8.ofNat d.toNat := by
      intro d hd hcd heq
      have hnat := congrArg UInt8.toNat heq
      rw [UInt8.toNat_ofNat_of_lt' (Nat.lt_trans hc (by decide)),
        UInt8.toNat_ofNat_of_lt' (Nat.lt_trans hd (by decide))] at hnat
      exact hcd (Char.toNat_inj.mp hnat)
    simp only [List.mem_cons, not_or] at written
    refine ⟨UInt8.ofNat c.toNat, by rw [taken, utf8EncodeChar_of_ascii hc]; rfl, ?_⟩
    exact ⟨hne '\n' (by decide) written.2.2.1, hne '\'' (by decide) written.1,
      hne '\\' (by decide) written.2.1⟩
  · obtain ⟨hlen, hhigh⟩ := utf8EncodeChar_of_not_ascii hc
    show ∃ b, (String.utf8EncodeChar c).take 1 = [b] ∧ _
    cases hbytes : String.utf8EncodeChar c with
    | nil =>
      rw [hbytes] at hlen
      cases hlen
    | cons b more =>
      rw [hbytes, List.forall_mem_cons] at hhigh
      have hne : ∀ d : UInt8, d.toNat < 128 → b ≠ d := by
        intro d hd heq
        rw [heq] at hhigh
        omega
      exact ⟨b, rfl, hne _ (by decide), hne _ (by decide), hne _ (by decide)⟩

theorem inert_of_mem_left (l : CharLiteral) : ∀ b ∈ l.left, Inert b := by
  intro b hb
  cases l with
  | scalar c _ =>
    by_cases hc : c.toNat < 128
    · rw [left, utf8EncodeChar_of_ascii hc] at hb
      cases hb
    · exact inert_of_le ((utf8EncodeChar_of_not_ascii hc).2 b (List.mem_of_mem_drop hb))
  | escape => cases hb
  | byte => cases hb
  | unicode digits _ hex =>
    simp only [left, List.cons_append, List.mem_cons, List.mem_append, List.not_mem_nil,
      or_false] at hb
    rcases hb with rfl | hb | rfl
    · unfold Inert
      decide
    · exact inert_of_isHexDigit (hex b hb)
    · unfold Inert
      decide

theorem isHexDigit_of_left_eq {l : CharLiteral} {b : UInt8} {more : List UInt8}
    (h : l.left = b :: more) : Byte.isHexDigit b = false := by
  cases l with
  | scalar c written =>
    by_cases hc : c.toNat < 128
    · rw [left, utf8EncodeChar_of_ascii hc] at h
      cases h
    · apply isHexDigit_of_le
      apply (utf8EncodeChar_of_not_ascii hc).2 b
      apply List.mem_of_mem_drop
      show b ∈ (scalar c written).left
      rw [h]
      exact List.mem_cons_self ..
  | escape => cases h
  | byte => cases h
  | unicode =>
    cases h
    decide

theorem left_eq_nil_iff (l : CharLiteral) : l.left = [] ↔ l.IsShort := by
  cases l with
  | scalar c _ =>
    by_cases hc : c.toNat < 128
    · simp [left, IsShort, utf8EncodeChar_of_ascii hc, hc]
    · have hlen := (utf8EncodeChar_of_not_ascii hc).1
      simp only [left, IsShort, List.drop_eq_nil_iff, hc, iff_false]
      omega
  | escape => simp [left, IsShort]
  | byte => simp [left, IsShort]
  | unicode => simp [left, IsShort]

end CharLiteral

/-! ## 3. The lexer through a literal -/

namespace Lexer

variable {s : Lexer} {b : UInt8} {text : List UInt8}

/-- The character of the literal was read, and the byte to come ends it. -/
def IsFull (s : Lexer) : Prop :=
  s.region = .char 1 ∨ s.region = .byteEscape

/-- The lexer skips the whole text and then waits for the end of a literal. -/
def Fills (s : Lexer) (text : List UInt8) : Prop :=
  (∀ k ∈ classesFrom .rust s text, k = .skipped) ∧ (text.foldl (advance .rust) s).IsFull

theorem Fills.cons (hb : s.classify .rust b = .skipped) (h : (s.advance .rust b).Fills text) :
    s.Fills (b :: text) := by
  refine ⟨?_, h.2⟩
  rw [classesFrom_cons, List.forall_mem_cons]
  exact ⟨hb, h.1⟩

theorem IsFull.fills (h : s.IsFull) : s.Fills [] := by
  refine ⟨?_, h⟩
  rw [classesFrom_nil]
  exact List.forall_mem_nil _

theorem rule_rust_of_char {body : Nat} (hr : s.region = .char body) (hb : b ≠ Byte.newline) :
    s.rule .rust b = s.charRule body b := by
  show s.nestedRule b = _
  simp [nestedRule, hr, hb]

theorem charRule_of_one {body : Nat} (hx : b = Byte.lowerX → s.last ≠ some Byte.backslash)
    (hbody : body ≠ 1) (hend : b = Byte.apostrophe → s.isEscaped = true)
    (hback : b = Byte.backslash → s.last = some Byte.backslash) :
    s.charRule body b = (.skipped, .char (body + 1)) := by
  unfold charRule
  rw [if_neg (by simpa using hx), if_neg (by simpa using hbody), if_neg (by simpa using hend),
    if_neg (by simpa using hback)]

theorem charRule_of_full (hx : b = Byte.lowerX → s.last ≠ some Byte.backslash) :
    s.charRule 1 b = (.code, .code) := by
  unfold charRule
  rw [if_neg (by simpa using hx)]
  rfl

theorem charRule_backslash (hlast : s.last ≠ some Byte.backslash) :
    s.charRule 0 Byte.backslash = (.skipped, .char 0) := by
  have hfirst : (s.last != some Byte.backslash) = true := by simpa using hlast
  unfold charRule
  rw [hfirst]
  rfl

theorem charRule_lowerX (hlast : s.last = some Byte.backslash) (body : Nat) :
    s.charRule body Byte.lowerX = (.skipped, .byteEscape) := by
  unfold charRule
  rw [hlast]
  rfl

-- A single byte is a character, and so is a byte after a backslash.
theorem fills_one (hr : s.region = .char 0) (hb : b ≠ Byte.newline)
    (hx : b = Byte.lowerX → s.last ≠ some Byte.backslash)
    (hend : b = Byte.apostrophe → s.isEscaped = true)
    (hback : b = Byte.backslash → s.last = some Byte.backslash) : s.Fills [b] := by
  have hrule : s.rule .rust b = (.skipped, .char 1) := by
    rw [rule_rust_of_char hr hb]
    exact charRule_of_one hx (by decide) hend hback
  exact .cons (congrArg Prod.fst hrule) (IsFull.fills (.inl (congrArg Prod.snd hrule)))

-- The backslash of an escape is no character of its own.
theorem fills_backslash (hr : s.region = .char 0) (hlast : s.last ≠ some Byte.backslash)
    (h : (s.advance .rust Byte.backslash).region = .char 0 →
      (s.advance .rust Byte.backslash).isEscaped = true →
        (s.advance .rust Byte.backslash).Fills text) : s.Fills (Byte.backslash :: text) := by
  have hrule : s.rule .rust Byte.backslash = (.skipped, .char 0) := by
    rw [rule_rust_of_char hr (by decide)]
    exact charRule_backslash hlast
  apply Fills.cons (congrArg Prod.fst hrule)
  apply h (congrArg Prod.snd hrule)
  rw [isEscaped_advance]
  simpa using hlast

theorem fills_digits (hr : s.region = .byteEscape) (hex : ∀ d ∈ text, Byte.isHexDigit d = true) :
    s.Fills text := by
  induction text generalizing s with
  | nil => exact IsFull.fills (.inr hr)
  | cons d text ih =>
    rw [List.forall_mem_cons] at hex
    have hinert := inert_of_isHexDigit hex.1
    simp only [Inert, List.mem_cons, not_or] at hinert
    have hrule : s.rule .rust d = (.skipped, .byteEscape) := by
      show s.nestedRule d = _
      simp [nestedRule, hr, hinert.1, hinert.2.1, hex.1]
    exact .cons (congrArg Prod.fst hrule) (ih (congrArg Prod.snd hrule) hex.2)

theorem fills_lowerX (hr : s.region = .char 0) (hlast : s.last = some Byte.backslash)
    (hex : ∀ d ∈ text, Byte.isHexDigit d = true) : s.Fills (Byte.lowerX :: text) := by
  have hrule : s.rule .rust Byte.lowerX = (.skipped, .byteEscape) := by
    rw [rule_rust_of_char hr (by decide)]
    exact charRule_lowerX hlast 0
  exact .cons (congrArg Prod.fst hrule) (fills_digits (congrArg Prod.snd hrule) hex)

/-- The lexer skips the part that it takes for the character, whatever the literal. -/
theorem fills_taken (hr : s.region = .char 0) (hlast : s.last = some Byte.apostrophe)
    (l : CharLiteral) : s.Fills l.taken := by
  have hfirst : s.last ≠ some Byte.backslash := by
    rw [hlast]
    decide
  cases l with
  | scalar c written =>
    obtain ⟨b, hb, hn, ha, hback⟩ := CharLiteral.taken_scalar written
    rw [hb]
    exact fills_one hr hn (fun _ => hfirst) (fun heq => absurd heq ha) (fun heq => absurd heq hback)
  | escape b known =>
    apply fills_backslash hr hfirst
    intro hr' hescaped
    have hknown : b ≠ Byte.newline ∧ b ≠ Byte.lowerX := by
      have hall : ∀ x ∈ Byte.escapes, x ≠ Byte.newline ∧ x ≠ Byte.lowerX := by decide +kernel
      exact hall b known
    exact fills_one hr' hknown.1 (fun hx => absurd hx hknown.2) (fun _ => hescaped) (fun _ => rfl)
  | byte high low hex =>
    apply fills_backslash hr hfirst
    intro hr' _
    apply fills_lowerX hr' rfl
    simpa using hex
  | unicode digits _ _ =>
    apply fills_backslash hr hfirst
    intro hr' hescaped
    exact fills_one hr' (by decide) (fun hx => absurd hx (by decide)) (fun _ => hescaped)
      (fun _ => rfl)

/-! ## 4. The end of a literal -/

theorem IsFull.rule (h : s.IsFull) (hn : b ≠ Byte.newline) (hx : b ≠ Byte.lowerX)
    (hex : Byte.isHexDigit b = false) : s.rule .rust b = (.code, .code) := by
  rcases h with hr | hr
  · rw [rule_rust_of_char hr hn]
    exact charRule_of_full fun heq => absurd heq hx
  · show s.nestedRule b = _
    simp [nestedRule, hr, hn, hex]

theorem rule_of_inert (hr : s.region = .code) (hb : Inert b) : s.rule .rust b = (.code, .code) := by
  simp only [Inert, List.mem_cons, not_or] at hb
  obtain ⟨hn, ha, hq, hslash, hstar, -⟩ := hb
  show s.nestedRule b = _
  rw [nestedRule_of_code hr hn]
  apply fromCode_of_plain ha hq
  rintro (heq | heq)
  · exact absurd heq hslash
  · exact absurd heq hstar

theorem region_foldl_of_inert (hr : s.region = .code) (hinert : ∀ b ∈ text, Inert b) :
    (text.foldl (advance .rust) s).region = .code := by
  induction text generalizing s with
  | nil => exact hr
  | cons b text ih =>
    rw [List.forall_mem_cons] at hinert
    exact ih (congrArg Prod.snd (rule_of_inert hr hinert.1)) hinert.2

-- The bytes after the character are code, and so is the lexer after them.
theorem IsFull.left (h : s.IsFull) (l : CharLiteral) (hleft : l.left ≠ []) :
    .code ∈ classesFrom .rust s l.left ∧ (l.left.foldl (advance .rust) s).region = .code := by
  have hinert := l.inert_of_mem_left
  cases hl : l.left with
  | nil => exact absurd hl hleft
  | cons b more =>
    rw [hl, List.forall_mem_cons] at hinert
    have hb := hinert.1
    simp only [Inert, List.mem_cons, not_or] at hb
    have hrule := h.rule hb.1 hb.2.2.2.2.2.1 (CharLiteral.isHexDigit_of_left_eq hl)
    rw [classesFrom_cons, List.foldl_cons]
    refine ⟨?_, region_foldl_of_inert (congrArg Prod.snd hrule) hinert.2⟩
    rw [classify, hrule]
    exact List.mem_cons_self ..

end Lexer

/-! ## 5. Literals in a text -/

section

variable (pre : List UInt8) (l : CharLiteral) (post : List UInt8)

/-- The class of a byte of the literal before its last quote, in a text around it. -/
def literalClass? (k : Nat) : Option ByteClass :=
  (Lexer.classes .rust (pre ++ l.bytes ++ post))[pre.length + k]?

/-- All of the literal before its last quote is skipped, and after that quote the lexer is in no
literal. -/
def SkipsLiteral : Prop :=
  (∀ k < l.opened.length, literalClass? pre l post k = some .skipped) ∧
    (Lexer.run .rust (pre ++ l.bytes)).region.isLiteral = false

/-- Part of the literal before its last quote is code, and that quote opens another literal. -/
def BreaksLiteral : Prop :=
  (∃ k < l.opened.length, literalClass? pre l post k = some .code) ∧
    (Lexer.run .rust (pre ++ l.bytes)).region = .char 0

end

theorem literalClass?_eq (pre : List UInt8) (l : CharLiteral) (post : List UInt8) {k : Nat}
    (hk : k < l.opened.length) : literalClass? pre l post k =
      (Lexer.classesFrom .rust (Lexer.run .rust pre) l.opened)[k]? := by
  have htext : pre ++ l.bytes ++ post = pre ++ (l.opened ++ (Byte.apostrophe :: post)) := by
    simp [CharLiteral.bytes]
  unfold literalClass?
  rw [htext, Lexer.classes_eq_classesFrom, Lexer.classesFrom_append,
    List.getElem?_append_right (by simp), Lexer.length_classesFrom, Nat.add_sub_cancel_left,
    Lexer.classesFrom_append, List.getElem?_append_left (by simpa using hk)]
  rfl

theorem run_bytes (pre : List UInt8) (l : CharLiteral) :
    Lexer.run .rust (pre ++ l.bytes) =
      (l.opened.foldl (Lexer.advance .rust) (Lexer.run .rust pre)).advance .rust Byte.apostrophe := by
  rw [Lexer.run_append, CharLiteral.bytes, List.foldl_append]
  rfl

/-- The lexer through the literal up to its last quote, by the two parts of the body. -/
theorem opened_of_code (l : CharLiteral) {s : Lexer} (hr : s.region = .code) :
    (l.IsShort → (∀ k ∈ Lexer.classesFrom .rust s l.opened, k = .skipped) ∧
      (l.opened.foldl (Lexer.advance .rust) s).IsFull) ∧
    (¬ l.IsShort → .code ∈ Lexer.classesFrom .rust s l.opened ∧
      (l.opened.foldl (Lexer.advance .rust) s).region = .code) := by
  have hrule : s.rule .rust Byte.apostrophe = (.skipped, .char 0) := by
    show s.nestedRule Byte.apostrophe = _
    rw [Lexer.nestedRule_of_code hr (by decide)]
    rfl
  have hfills : (s.advance .rust Byte.apostrophe).Fills l.taken :=
    Lexer.fills_taken (congrArg Prod.snd hrule) rfl l
  rw [← l.left_eq_nil_iff, CharLiteral.opened, ← l.taken_append_left, Lexer.classesFrom_cons,
    List.foldl_cons, Lexer.classesFrom_append, List.foldl_append]
  constructor
  · intro hleft
    rw [hleft, Lexer.classesFrom_nil, List.append_nil, List.forall_mem_cons]
    exact ⟨⟨congrArg Prod.fst hrule, hfills.1⟩, hfills.2⟩
  · intro hleft
    obtain ⟨hmem, hregion⟩ := hfills.2.left l hleft
    exact ⟨List.mem_cons_of_mem _ (List.mem_append_right _ hmem), hregion⟩

theorem skipsLiteral_of_isShort {l : CharLiteral} (hl : l.IsShort) {pre : List UInt8}
    (hcode : (Lexer.run .rust pre).region = .code) (post : List UInt8) :
    SkipsLiteral pre l post := by
  obtain ⟨hskipped, hfull⟩ := (opened_of_code l hcode).1 hl
  constructor
  · intro k hk
    rw [literalClass?_eq pre l post hk, List.getElem?_eq_getElem (by simpa using hk),
      hskipped _ (List.getElem_mem _)]
  · rw [run_bytes, Lexer.region_advance, hfull.rule (by decide) (by decide) (by decide)]
    rfl

theorem breaksLiteral_of_not_isShort {l : CharLiteral} (hl : ¬ l.IsShort) {pre : List UInt8}
    (hcode : (Lexer.run .rust pre).region = .code) (post : List UInt8) :
    BreaksLiteral pre l post := by
  obtain ⟨hmem, hregion⟩ := (opened_of_code l hcode).2 hl
  constructor
  · obtain ⟨k, hk, hkind⟩ := List.mem_iff_getElem.mp hmem
    rw [Lexer.length_classesFrom] at hk
    refine ⟨k, hk, ?_⟩
    rw [literalClass?_eq pre l post hk, ← hkind]
    exact List.getElem?_eq_getElem _
  · rw [run_bytes, Lexer.region_advance]
    show (Lexer.nestedRule _ Byte.apostrophe).2 = _
    rw [Lexer.nestedRule_of_code hregion (by decide)]
    rfl

theorem BreaksLiteral.not_skipsLiteral {pre post : List UInt8} {l : CharLiteral}
    (h : BreaksLiteral pre l post) : ¬ SkipsLiteral pre l post := by
  intro hskips
  have hliteral := hskips.2
  rw [h.2] at hliteral
  cases hliteral

/-- **Character literals.** In the code, a character literal is skipped up to its last quote and left
with it exactly if its character is a single byte or an escape without braces. Otherwise part of the
character is code, and the last quote opens another literal. -/
theorem charLiteral_skipped_iff_short (l : CharLiteral) (pre post : List UInt8)
    (hcode : (Lexer.run .rust pre).region = .code) :
    (SkipsLiteral pre l post ↔ l.IsShort) ∧ (BreaksLiteral pre l post ↔ ¬ l.IsShort) := by
  by_cases hl : l.IsShort
  · have hskips := skipsLiteral_of_isShort hl hcode post
    exact ⟨iff_of_true hskips hl, iff_of_false (fun h => h.not_skipsLiteral hskips) (fun h => h hl)⟩
  · have hbreaks := breaksLiteral_of_not_isShort hl hcode post
    exact ⟨iff_of_false hbreaks.not_skipsLiteral hl, iff_of_true hbreaks hl⟩

/-- A quoted apostrophe between brackets. -/
theorem charLiteral_skipped_apostrophe :
    (Lexer.run .rust [0x28]).region = .code ∧
      SkipsLiteral [0x28] (.escape Byte.apostrophe (by decide)) [0x29] :=
  ⟨by decide, (charLiteral_skipped_iff_short _ [0x28] [0x29] (by decide)).1.mpr trivial⟩

/-- A character of two bytes, and an escape with braces. -/
theorem charLiteral_not_skipped :
    ¬ SkipsLiteral [0x28] (.scalar 'é' (by decide)) [0x29] ∧
      ¬ SkipsLiteral [0x28] (.unicode [0x34, 0x31] (by decide) (by decide +kernel)) [0x29] := by
  refine ⟨fun h => ?_, fun h => ?_⟩
  · exact absurd h.2 (by decide)
  · exact absurd h.2 (by decide)

end Nesting
