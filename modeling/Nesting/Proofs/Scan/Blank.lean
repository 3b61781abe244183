import Nesting.Proofs.Lexer.Token
import Nesting.Proofs.Scan.Prefix

/-!
# Texts with comments and literals blanked out

A scan sees the code of a text and the places of its lines, so comments and literals can be blanked
out without changing it. The blanked text is all code for the grammars with flat comments: no quote
is left, and a slash that is left stood in the code, where the slash or star that could have made it
a comment is gone with the comment.
-/

namespace Nesting

abbrev Byte.space : UInt8 := 0x20

/-! ## 1. Blanked texts without a grammar -/

namespace Cell

/-- The byte of a cell, or a blank if the cell is skipped. Line ends stay. -/
def blanked (x : Cell) : UInt8 :=
  if x.kind = .skipped ∧ x.byte ≠ Byte.newline then Byte.space else x.byte

/-- The cell in the blanked text, where everything counts as code. -/
def cleared (x : Cell) : Cell :=
  ⟨x.blanked, x.position, .code⟩

theorem blanked_of_code {x : Cell} (hx : x.kind = .code) : x.blanked = x.byte := by
  simp [blanked, hx]

theorem blanked_of_newline {x : Cell} (hx : x.byte = Byte.newline) : x.blanked = x.byte := by
  simp [blanked, hx]

theorem blanked_of_skipped {x : Cell} (hx : x.kind = .skipped) (hb : x.byte ≠ Byte.newline) :
    x.blanked = Byte.space := by
  simp [blanked, hx, hb]

-- Blanks and line ends are no brackets, so only the brackets of the code are left.
theorem site?_cleared (counts : Position → Bool) (x : Cell) :
    x.cleared.site? counts = x.site? counts := by
  cases hkind : x.kind with
  | code =>
    have hsame : x.cleared = x := by
      unfold cleared
      rw [blanked_of_code hkind, ← hkind]
    rw [hsame]
  | skipped =>
    have hread : Bracket.ofByte? x.blanked = none := by
      by_cases hb : x.byte = Byte.newline
      · rw [blanked_of_newline hb, hb]
        decide
      · rw [blanked_of_skipped hkind hb]
        decide
    have hnone : x.site? counts = none := by
      unfold site?
      rw [hkind]
    rw [hnone]
    unfold site? cleared
    rw [hread]

end Cell

/-- The text with everything blanked out that is skipped, but for the ends of lines. -/
def blank (g : Grammar) (text : List UInt8) : List UInt8 :=
  (cells g text).map Cell.blanked

theorem Position.advance_blanked (p : Position) (x : Cell) :
    p.advance x.blanked = p.advance x.byte := by
  by_cases hb : x.byte = Byte.newline
  · rw [Cell.blanked_of_newline hb]
  · cases hkind : x.kind with
    | code => rw [Cell.blanked_of_code hkind]
    | skipped =>
      have hspace : Byte.space ≠ Byte.newline := by decide
      rw [Cell.blanked_of_skipped hkind hb]
      simp only [advance, hb, hspace, if_false]

theorem Reader.cells_generic_blank (g : Grammar) (text : List UInt8) (r r' : Reader)
    (hplace : r'.position = r.position) :
    r'.cells .generic ((r.cells g text).map Cell.blanked) = (r.cells g text).map Cell.cleared := by
  induction text generalizing r r' with
  | nil => simp
  | cons b text ih =>
    have hnext : (r'.advance .generic (r.cell g b).blanked).position = (r.advance g b).position := by
      change r'.position.advance (r.cell g b).blanked = r.position.advance b
      rw [hplace, Position.advance_blanked]
      rfl
    have hcell : r'.cell .generic (r.cell g b).blanked = (r.cell g b).cleared := by
      change Cell.mk _ r'.position .code = _
      rw [hplace]
      rfl
    rw [cells_cons, List.map_cons, List.map_cons, cells_cons, ih _ _ hnext, hcell]

theorem cells_generic_blank (g : Grammar) (text : List UInt8) :
    cells .generic (blank g text) = (cells g text).map Cell.cleared :=
  Reader.cells_generic_blank g text .initial .initial rfl

theorem scan_generic_blank (g : Grammar) (text : List UInt8) :
    scan .generic false (blank g text) = scan g false text := by
  rw [scan_eq_pairUp_filterMap, scan_eq_pairUp_filterMap, cells_generic_blank, List.filterMap_map]
  congr 1
  apply List.filterMap_congr
  intro x _
  exact Cell.site?_cleared _ x

/-! ## 2. Blanked texts with flat comments -/

namespace Lexer

variable {g : Grammar} {s t : Lexer} {b : UInt8}

theorem fromCode_eq_code_iff : (s.fromCode b).1 = .code ↔ b ≠ Byte.apostrophe ∧ b ≠ Byte.quote ∧
    (b = Byte.slash ∨ b = Byte.star → s.followsSlash = false) := by
  constructor
  · intro h
    refine ⟨?_, ?_, fun hopen => ?_⟩
    · rintro rfl
      cases h
    · rintro rfl
      cases h
    · cases hfollows : s.followsSlash with
      | false => rfl
      | true =>
        unfold fromCode at h
        rw [hfollows] at h
        rcases hopen with rfl | rfl <;> cases h
  · rintro ⟨ha, hq, hs⟩
    rw [fromCode_of_plain ha hq hs]

-- With flat comments a byte is code only outside comments and literals.
theorem code_of_classify (hg : g = .c ∨ g = .cpp) (h : s.classify g b = .code) :
    s.region = .code ∧ b ≠ Byte.newline ∧ (s.fromCode b).1 = .code := by
  unfold classify at h
  rw [rule_flat hg] at h
  have hb : b ≠ Byte.newline := by
    rintro rfl
    cases h
  have hregion : s.region = .code := by
    unfold flatRule at h
    rw [if_neg (by simpa using hb)] at h
    cases hr : s.region with
    | code => rfl
    | lineComment | blockComment | string | char | byteEscape =>
      rw [hr] at h
      cases h
  rw [flatRule_of_code hregion hb] at h
  exact ⟨hregion, hb, h⟩

/-- The lexer `t` of the blanked text stands in the code, and the lexer `s` of the text has every
slash that `t` could open a comment with. -/
structure Clears (s t : Lexer) : Prop where
  region : t.region = .code
  closed : s.ClosedBehind
  closed' : t.ClosedBehind
  slash : t.followsSlash = true → s.region = .code ∧ s.followsSlash = true

theorem clears_initial : Clears initial initial where
  region := rfl
  closed := closedBehind_initial
  closed' := closedBehind_initial
  slash := fun h => by cases h

theorem followsSlash_advance_of_code (ht : t.ClosedBehind) (hr : t.region = .code) (g : Grammar)
    (b : UInt8) : (t.advance g b).followsSlash = (b == Byte.slash) := by
  have hends : t.endsComment b = false := endsComment_of_stars (by rw [hr]; rfl)
  rw [followsSlash_advance ht, hends, Bool.not_false, Bool.and_true]

namespace Clears

-- A byte that is no slash leaves the lexer of the blanked text nothing to open a comment with.
theorem advance_of_ne_slash (h : Clears s t) {b' : UInt8} (hb' : b' ≠ Byte.slash)
    (hregion : (t.advance g b').region = .code) (b : UInt8) :
    Clears (s.advance g b) (t.advance g b') where
  region := hregion
  closed := h.closed.advance g b
  closed' := h.closed'.advance g b'
  slash := by
    intro hslash
    rw [followsSlash_advance_of_code h.closed' h.region, beq_iff_eq] at hslash
    exact absurd hslash hb'

theorem rule_of_plain (hg : g = .c ∨ g = .cpp) (h : Clears s t) (hb : b ≠ Byte.newline)
    (ha : b ≠ Byte.apostrophe) (hq : b ≠ Byte.quote)
    (hs : b = Byte.slash ∨ b = Byte.star → t.followsSlash = false) :
    t.rule g b = (.code, .code) := by
  rw [rule_flat hg, flatRule_of_code h.region hb, fromCode_of_plain ha hq hs]

theorem advance_code (hg : g = .c ∨ g = .cpp) (h : Clears s t) (hb : s.classify g b = .code) :
    t.classify g b = .code ∧ Clears (s.advance g b) (t.advance g b) := by
  obtain ⟨hregion, hnewline, hcode⟩ := code_of_classify hg hb
  obtain ⟨ha, hq, hs⟩ := fromCode_eq_code_iff.mp hcode
  have hs' : b = Byte.slash ∨ b = Byte.star → t.followsSlash = false := by
    intro hopen
    cases hfollows : t.followsSlash with
    | false => rfl
    | true =>
      have hboth := (h.slash hfollows).2
      rw [hs hopen] at hboth
      cases hboth
  have hrule := h.rule_of_plain hg hnewline ha hq hs'
  refine ⟨congrArg Prod.fst hrule, congrArg Prod.snd hrule, h.closed.advance g b,
    h.closed'.advance g b, fun hslash => ⟨?_, ?_⟩⟩
  · rw [region_advance, rule_flat hg, flatRule_of_code hregion hnewline,
      fromCode_of_plain ha hq hs]
  · rw [followsSlash_advance_of_code h.closed' h.region] at hslash
    rw [followsSlash_advance_of_code h.closed hregion]
    exact hslash

theorem advance_space (hg : g = .c ∨ g = .cpp) (h : Clears s t) (b : UInt8) :
    t.classify g Byte.space = .code ∧ Clears (s.advance g b) (t.advance g Byte.space) := by
  have hrule := h.rule_of_plain hg (b := Byte.space) (by decide) (by decide) (by decide)
    (fun hopen => absurd hopen (by decide))
  exact ⟨congrArg Prod.fst hrule,
    h.advance_of_ne_slash (by decide) (congrArg Prod.snd hrule) b⟩

theorem advance_newline (hg : g = .c ∨ g = .cpp) (h : Clears s t) :
    Clears (s.advance g Byte.newline) (t.advance g Byte.newline) := by
  apply h.advance_of_ne_slash (by decide)
  rw [region_advance, rule_flat hg, flatRule, h.region]
  rfl

end Clears

end Lexer

namespace Reader

variable {g : Grammar} {r r' : Reader}

/-- One byte of the text and its place holder in the blanked text keep the lexers related, and the
place holder is code unless it ends a line. -/
theorem clears_advance (hg : g = .c ∨ g = .cpp) (h : Lexer.Clears r.lexer r'.lexer) (b : UInt8) :
    Lexer.Clears (r.advance g b).lexer (r'.advance g (r.cell g b).blanked).lexer ∧
      ((r.cell g b).blanked ≠ Byte.newline →
        r'.lexer.classify g (r.cell g b).blanked = .code) := by
  by_cases hb : b = Byte.newline
  · have hsame : (r.cell g b).blanked = Byte.newline := (Cell.blanked_of_newline hb).trans hb
    rw [hsame]
    subst hb
    exact ⟨h.advance_newline hg, fun hne => absurd rfl hne⟩
  · cases hkind : (r.cell g b).kind with
    | code =>
      have hsame : (r.cell g b).blanked = b := Cell.blanked_of_code hkind
      obtain ⟨hclass, hnext⟩ := h.advance_code hg hkind
      rw [hsame]
      exact ⟨hnext, fun _ => hclass⟩
    | skipped =>
      obtain ⟨hclass, hnext⟩ := h.advance_space hg b
      rw [Cell.blanked_of_skipped hkind hb]
      exact ⟨hnext, fun _ => hclass⟩

theorem kind_of_mem_cells_blank (hg : g = .c ∨ g = .cpp) (h : Lexer.Clears r.lexer r'.lexer)
    (text : List UInt8) :
    ∀ x ∈ r'.cells g ((r.cells g text).map Cell.blanked), x.byte ≠ Byte.newline → x.kind = .code := by
  induction text generalizing r r' with
  | nil => simp
  | cons b text ih =>
    obtain ⟨hnext, hclass⟩ := clears_advance hg h b
    rw [cells_cons, List.map_cons, cells_cons, List.forall_mem_cons]
    exact ⟨hclass, ih hnext⟩

end Reader

theorem kind_of_mem_cells_blank {g : Grammar} (hg : g = .c ∨ g = .cpp) (text : List UInt8) :
    ∀ x ∈ cells g (blank g text), x.byte ≠ Byte.newline → x.kind = .code :=
  Reader.kind_of_mem_cells_blank hg Lexer.clears_initial text

theorem map_byte_cells (g : Grammar) (text : List UInt8) : (cells g text).map Cell.byte = text := by
  apply List.ext_getElem?
  intro i
  rw [List.getElem?_map, getElem?_cells, Option.map_map]
  exact Option.map_id'

-- In a blanked text nothing but line ends is skipped, and these stay.
theorem blank_blank {g : Grammar} (hg : g = .c ∨ g = .cpp) (text : List UInt8) :
    blank g (blank g text) = blank g text := by
  have hkeep : (cells g (blank g text)).map Cell.blanked =
      (cells g (blank g text)).map Cell.byte := by
    apply List.map_congr_left
    intro x hx
    by_cases hb : x.byte = Byte.newline
    · exact Cell.blanked_of_newline hb
    · exact Cell.blanked_of_code (kind_of_mem_cells_blank hg text x hx hb)
  rw [map_byte_cells] at hkeep
  exact hkeep

/-- **Blanking.** A scan without angle brackets gives the pairs of the blanked text in which every
byte is code. For `c` and `cpp` the blanked text has no comments and no literals left, so blanking it
again changes nothing, and neither does blanking a text before it is scanned. -/
theorem scan_of_blank (g : Grammar) (text : List UInt8) :
    scan g false text = scan .generic false (blank g text) ∧
      (g = .c ∨ g = .cpp →
        (∀ x ∈ cells g (blank g text), x.byte ≠ Byte.newline → x.kind = .code) ∧
          blank g (blank g text) = blank g text ∧
          scan g false (blank g text) = scan g false text) := by
  refine ⟨(scan_generic_blank g text).symm, fun hg => ?_⟩
  refine ⟨kind_of_mem_cells_blank hg text, blank_blank hg text, ?_⟩
  rw [← scan_generic_blank g (blank g text), blank_blank hg, scan_generic_blank]

/-- Brackets around a literal with a bracket and an escaped quote in it, a comment closed before a
star, and a comment to the end of its line. -/
def quotedText : List UInt8 :=
  [0x28, 0x22, 0x29, 0x5c, 0x22, 0x22, 0x2f, 0x2a, 0x5b, 0x2a, 0x2f, 0x2a, 0x29, 0x2f, 0x2f, 0x7b,
    0x0a, 0x5d]

theorem scan_blank_quotedText :
    blank .c quotedText =
        [0x28, 0x20, 0x20, 0x20, 0x20, 0x20, 0x2f, 0x20, 0x20, 0x20, 0x20, 0x2a, 0x29, 0x2f, 0x20,
          0x20, 0x0a, 0x5d] ∧
      blank .c (blank .c quotedText) = blank .c quotedText ∧
      scan .c false (blank .c quotedText) = [⟨⟨'(', ⟨1, 1⟩, 0⟩, ⟨')', ⟨1, 13⟩, 0⟩⟩] := by
  obtain ⟨-, hflat⟩ := scan_of_blank .c quotedText
  obtain ⟨-, hagain, hscan⟩ := hflat (Or.inl rfl)
  refine ⟨by decide +kernel, hagain, hscan.trans ?_⟩
  decide +kernel

end Nesting
