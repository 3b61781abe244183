import Nesting.Proofs.Lexer.Memory
import Nesting.Proofs.Position.Offset

/-!
# The lexer further down a text

A lexer that stands outside comments and literals at the start of a line goes on as one that starts
there. The two differ in their offsets and in the bytes they could look back at, so they are related
by what the rules ask about these: the offsets differ by a constant, and the answers are the same.
-/

namespace Nesting

/-! ## 1. Places further down -/

/-- The text ends where a line starts: it is empty, or its last byte ends a line. -/
def EndsLine (text : List UInt8) : Prop :=
  text = [] ∨ text.getLast? = some Byte.newline

namespace Position

/-- The same column `k` lines further down. -/
def below (k : Nat) (p : Position) : Position :=
  ⟨p.line + k, p.column⟩

theorem below_inj {k : Nat} {p q : Position} : p.below k = q.below k ↔ p = q := by
  simp only [below, eq_iff]
  omega

theorem advance_below (k : Nat) (p : Position) (b : UInt8) :
    (p.below k).advance b = (p.advance b).below k := by
  unfold advance
  split
  · exact congrArg (Position.mk · 1) (Nat.add_right_comm p.line k 1)
  · rfl

/-- After whole lines comes the first column, and one line more for every newline. -/
theorem after_of_endsLine {text : List UInt8} (h : EndsLine text) :
    after text = start.below (text.count Byte.newline) := by
  have hlast : lastLine text = [] := by
    rcases h with rfl | h
    · rfl
    · obtain ⟨before, rfl⟩ := List.getLast?_eq_some_iff.mp h
      rw [lastLine_concat, if_pos rfl]
  rw [after_eq, hlast]
  rfl

end Position

/-! ## 2. Regions further on -/

namespace Region

/-- The region with the offsets of its stars moved on by `k`. -/
def shift (k : Nat) : Region → Region
  | .blockComment star outer => .blockComment (star + k) (outer.map (· + k))
  | region => region

theorem shift_inComments (k : Nat) (stars : List Nat) :
    (inComments stars).shift k = inComments (stars.map (· + k)) := by
  cases stars <;> rfl

theorem shift_afterNewline (k : Nat) (region : Region) :
    region.afterNewline.shift k = (region.shift k).afterNewline := by
  cases region <;> rfl

end Region

/-! ## 3. Lexers further on -/

namespace Lexer

/-- The lexer `s` has read `k` bytes more than `t`, and the rules see no other difference. -/
structure Ahead (k : Nat) (s t : Lexer) : Prop where
  region : s.region = t.region.shift k
  offset : s.offset = t.offset + k
  closed : s.ClosedBehind
  closed' : t.ClosedBehind
  follows : s.followsSlash = t.followsSlash
  escaped : s.isEscaped = t.isEscaped
  star : (s.last == some Byte.star) = (t.last == some Byte.star)
  backslash : (s.last == some Byte.backslash) = (t.last == some Byte.backslash)

namespace Ahead

variable {k : Nat} {s t : Lexer}

theorem closesComment (h : Ahead k s t) (star : Nat) (b : UInt8) :
    s.closesComment (star + k) b = t.closesComment star b := by
  have hoffset : (s.offset != star + k + 1) = (t.offset != star + 1) := by
    rw [h.offset, Bool.eq_iff_iff, bne_iff_ne, bne_iff_ne]
    omega
  unfold Lexer.closesComment
  rw [h.star, hoffset]

theorem endsComment (h : Ahead k s t) (b : UInt8) : s.endsComment b = t.endsComment b := by
  unfold Lexer.endsComment
  rw [h.region]
  cases t.region with
  | blockComment star outer => exact h.closesComment star b
  | _ => rfl

theorem fromCode (h : Ahead k s t) (b : UInt8) :
    s.fromCode b = (t.fromCode b).map id (Region.shift k) := by
  unfold Lexer.fromCode
  rw [h.follows, h.offset]
  split
  · rfl
  · split
    · rfl
    · split
      · rfl
      · split <;> rfl

theorem charRule (h : Ahead k s t) (body : Nat) (b : UInt8) :
    s.charRule body b = (t.charRule body b).map id (Region.shift k) := by
  have hne : (s.last != some Byte.backslash) = (t.last != some Byte.backslash) :=
    congrArg not h.backslash
  unfold Lexer.charRule
  rw [h.backslash, h.escaped, hne]
  split
  · rfl
  · split
    · rfl
    · split
      · rfl
      · split <;> rfl

theorem flatRule (h : Ahead k s t) (b : UInt8) :
    s.flatRule b = (t.flatRule b).map id (Region.shift k) := by
  unfold Lexer.flatRule
  rw [h.region]
  split
  · rw [← Region.shift_afterNewline]
    rfl
  · cases t.region with
    | code => exact h.fromCode b
    | lineComment => rfl
    | blockComment star outer =>
      simp only [Region.shift, h.closesComment, ← Region.shift_inComments]
      split <;> rfl
    | string =>
      simp only [Region.shift, h.escaped]
      split <;> rfl
    | char body =>
      simp only [Region.shift, h.escaped]
      split <;> rfl
    | byteEscape => rfl

theorem nestedRule (h : Ahead k s t) (b : UInt8) :
    s.nestedRule b = (t.nestedRule b).map id (Region.shift k) := by
  unfold Lexer.nestedRule
  rw [h.region]
  split
  · rw [← Region.shift_afterNewline]
    rfl
  · cases t.region with
    | code => exact h.fromCode b
    | lineComment => rfl
    | blockComment star outer =>
      simp only [Region.shift, h.closesComment, h.follows, h.offset, ← Region.shift_inComments]
      split
      · rfl
      · split <;> rfl
    | string =>
      simp only [Region.shift, h.escaped]
      split <;> rfl
    | char body => exact h.charRule body b
    | byteEscape =>
      simp only [Region.shift]
      split <;> rfl

theorem rule (h : Ahead k s t) (g : Grammar) (b : UInt8) :
    s.rule g b = (t.rule g b).map id (Region.shift k) := by
  cases g with
  | generic =>
    show (ByteClass.code, s.region) = (ByteClass.code, t.region.shift k)
    rw [h.region]
  | c => exact h.flatRule b
  | cpp => exact h.flatRule b
  | rust => exact h.nestedRule b

theorem classify (h : Ahead k s t) (g : Grammar) (b : UInt8) :
    s.classify g b = t.classify g b := by
  unfold Lexer.classify
  rw [h.rule g b]
  rfl

/-- One byte leaves the two lexers as far apart as they were. -/
theorem advance (h : Ahead k s t) (g : Grammar) (b : UInt8) :
    Ahead k (s.advance g b) (t.advance g b) where
  region := by
    rw [region_advance, region_advance, h.rule g b]
    rfl
  offset := by
    rw [offset_advance, offset_advance, h.offset]
    omega
  closed := h.closed.advance g b
  closed' := h.closed'.advance g b
  follows := by rw [followsSlash_advance h.closed, followsSlash_advance h.closed', h.endsComment]
  escaped := by
    have hne : (s.last != some Byte.backslash) = (t.last != some Byte.backslash) :=
      congrArg not h.backslash
    rw [isEscaped_advance, isEscaped_advance, hne]
  star := rfl
  backslash := rfl

end Ahead

theorem last_run (g : Grammar) (text : List UInt8) : (run g text).last = text.getLast? := by
  rcases List.eq_nil_or_concat text with rfl | ⟨before, b, rfl⟩
  · rfl
  · rw [List.concat_eq_append, run_append, List.getLast?_concat]
    rfl

/-- **Line starts.** At the start of a line outside comments and literals, the lexer goes on as it
would from the start of the text. -/
theorem ahead_initial (g : Grammar) {text : List UInt8} (hline : EndsLine text)
    (hcode : (run g text).region = .code) : Ahead text.length (run g text) initial := by
  have hlast : ∀ b, b ≠ Byte.newline → ((run g text).last == some b) = false := by
    intro b hb
    rw [last_run, beq_eq_false_iff_ne]
    rcases hline with rfl | hline
    · simp
    · rw [hline]
      simpa using hb.symm
  exact {
    region := hcode
    offset := by rw [offset_run]; exact (Nat.zero_add _).symm
    closed := closedBehind_initial.foldl g text
    closed' := closedBehind_initial
    follows := by unfold followsSlash; rw [hlast Byte.slash (by decide)]; rfl
    escaped := by unfold isEscaped; rw [hlast Byte.backslash (by decide)]; rfl
    star := hlast Byte.star (by decide)
    backslash := hlast Byte.backslash (by decide) }

end Lexer

/-! ## 4. Cells further down -/

def Cell.below (k : Nat) (x : Cell) : Cell :=
  { x with position := x.position.below k }

-- Two readers as far apart as their lexers and places read the same cells at different lines.
theorem Reader.cells_of_ahead {g : Grammar} {k lines : Nat} {r r' : Reader}
    (hlexer : Lexer.Ahead k r.lexer r'.lexer) (hplace : r.position = r'.position.below lines)
    (text : List UInt8) : r.cells g text = (r'.cells g text).map (Cell.below lines) := by
  induction text generalizing r r' with
  | nil => rw [cells_nil, cells_nil, List.map_nil]
  | cons b text ih =>
    have hcell : r.cell g b = (r'.cell g b).below lines := by
      unfold cell
      rw [hlexer.classify g b, hplace]
      rfl
    have hnext : (r.advance g b).position = (r'.advance g b).position.below lines := by
      show r.position.advance b = (r'.position.advance b).below lines
      rw [hplace, Position.advance_below]
    rw [cells_cons, cells_cons, List.map_cons, hcell, ih (hlexer.advance g b) hnext]

end Nesting
