import Nesting.Proofs.Lexer.Shift
import Nesting.Proofs.Scan.Prefix

/-!
# Scanning from a line break

A text can be scanned in two parts if it is cut at a line break where nothing is left open: no
comment or literal, no delimiter, and no angle bracket. What follows is then scanned as a text of
its own, and its pairs are moved down by the lines before it. Everything with a place has its own
`below`, which moves it down, and each step of the collector and of the matcher commutes with it.
-/

namespace Nesting

/-! ## 1. Marks further down -/

namespace AngleMark

def below (k : Nat) (m : AngleMark) : AngleMark :=
  { m with position := m.position.below k }

theorem waiting_map_below (k : Nat) (marks : List AngleMark) :
    waiting (marks.map (below k)) = (waiting marks).map (below k) := by
  induction marks with
  | nil => rfl
  | cons m older ih =>
    have hbelow : (m.below k).side = m.side := rfl
    cases hside : m.side with
    | opening =>
      rw [List.map_cons, waiting_opening (hbelow.trans hside), waiting_opening hside, ih,
        List.map_cons]
    | closing =>
      rw [List.map_cons, waiting_closing (hbelow.trans hside), waiting_closing hside, ih,
        List.map_tail]

theorem answered_map_below (k closers : Nat) (marks : List AngleMark) :
    answered closers (marks.map (below k)) = (answered closers marks).map (below k) := by
  induction marks generalizing closers with
  | nil => rfl
  | cons m older ih =>
    have hbelow : (m.below k).side = m.side := rfl
    cases hside : m.side with
    | closing => simp only [List.map_cons, answered, hbelow, hside, ih]
    | opening =>
      cases closers with
      | zero => simp only [List.map_cons, answered, hbelow, hside, ih]
      | succ n => simp only [List.map_cons, answered, hbelow, hside, ih]

end AngleMark

namespace Collector

def below (k : Nat) (c : Collector) : Collector :=
  { c with marks := c.marks.map (AngleMark.below k) }

theorem settle_below (k : Nat) (c : Collector) : (c.below k).settle = c.settle.below k := by
  rw [settle_eq, settle_eq]
  simp only [below, AngleMark.waiting_map_below, AngleMark.answered_map_below, List.length_map]

theorem step_below (boundaries : List UInt8) (k : Nat) (c : Collector) (x : Cell) :
    (c.below k).step boundaries (x.below k) = (c.step boundaries x).below k := by
  apply step_comm (f := below k) (x := x) (y := x.below k) boundaries rfl (settle_below k c)
  · intro c
    rfl
  · intro c side
    cases side <;> rfl
  · intro c last
    rfl

theorem foldl_step_below (boundaries : List UInt8) (k : Nat) (c : Collector) (xs : List Cell) :
    (xs.map (Cell.below k)).foldl (step boundaries) (c.below k) =
      (xs.foldl (step boundaries) c).below k := by
  rw [List.foldl_map]
  exact List.foldl_hom (below k) (step_below boundaries k)

-- Where nothing waits no closer is marked, so the byte before the first cell does not matter.
theorem step_of_last (g : Grammar) (last last' : Option UInt8) (x : Cell) :
    step g.boundaries ⟨[], 0, last⟩ x = step g.boundaries ⟨[], 0, last'⟩ x := by
  have hsame : (Collector.mk [] 0 last).side? x = (Collector.mk [] 0 last').side? x := by
    unfold side?
    simp only [Nat.lt_irrefl, false_and, if_false]
  by_cases hx : x.byte ∈ g.boundaries
  · rw [step_of_boundary hx, step_of_boundary hx, settle_eq, settle_eq]
  · cases hside : (Collector.mk [] 0 last').side? x with
    | none =>
      rw [step_of_side?_eq_none hx (hsame.trans hside), step_of_side?_eq_none hx hside]
    | some side =>
      rw [step_of_side?_eq_some hx (hsame.trans hside), step_of_side?_eq_some hx hside]
      cases side <;> rfl

theorem marks_foldl_step_of_last (g : Grammar) (last : Option UInt8) (xs : List Cell) :
    (xs.foldl (step g.boundaries) ⟨[], 0, last⟩).marks =
      (xs.foldl (step g.boundaries) initial).marks := by
  cases xs with
  | nil => rfl
  | cons x xs =>
    rw [List.foldl_cons, List.foldl_cons, step_of_last g last none]
    rfl

end Collector

/-! ## 2. Pairs further down -/

def Site.below (k : Nat) (x : Site) : Site :=
  { x with position := x.position.below k }

def Delimiter.below (k : Nat) (d : Delimiter) : Delimiter :=
  { d with position := d.position.below k }

/-- The pair `k` lines further down, at the same columns and as deep. -/
def Pair.below (k : Nat) (p : Pair) : Pair :=
  ⟨p.opener.below k, p.closer.below k⟩

namespace Pending

def below (k : Nat) (s : Pending) : Pending :=
  ⟨s.openers.map (Delimiter.below k)⟩

theorem depth_below (k : Nat) (s : Pending) : (s.below k).depth = s.depth :=
  List.length_map _

theorem find?_below (k : Nat) (s : Pending) (c : Char) :
    (s.below k).find? c = (s.find? c).map (Prod.map (Delimiter.below k) (below k)) := by
  have hskip : (s.below k).openers.dropWhile (fun d => d.character != c) =
      (s.openers.dropWhile (fun d => d.character != c)).map (Delimiter.below k) :=
    List.dropWhile_map ..
  unfold find?
  rw [hskip]
  cases s.openers.dropWhile (fun d => d.character != c) with
  | nil => rfl
  | cons d rest => rfl

theorem close?_below (k : Nat) (s : Pending) (d : Delimiter) :
    (s.below k).close? (d.below k) = (s.close? d).map (Prod.map (Pair.below k) (below k)) := by
  have hcharacter : (d.below k).character = d.character := rfl
  unfold close?
  simp only [hcharacter, find?_below]
  cases Bracket.opener? d.character with
  | none => rfl
  | some wanted =>
    cases hfind : s.find? wanted with
    | none => simp [hfind]
    | some found => simp [hfind, Pair.below, Delimiter.below]

end Pending

namespace Matching

def below (k : Nat) (s : Matching) : Matching :=
  ⟨s.pending.below k, s.found.map (Pair.below k)⟩

theorem step_below (k : Nat) (s : Matching) (x : Site) :
    (s.below k).step (x.below k) = (s.step x).below k := by
  have hpending : (s.below k).pending = s.pending.below k := rfl
  have hside : (x.below k).side = x.side := rfl
  have hdelimiter : (x.below k).delimiter s.pending.depth =
    (x.delimiter s.pending.depth).below k := rfl
  unfold step
  simp only [hpending, hside, Pending.depth_below, hdelimiter, Pending.close?_below]
  cases x.side with
  | opening => rfl
  | closing => cases s.pending.close? (x.delimiter s.pending.depth) <;> rfl

theorem foldl_step_below (k : Nat) (s : Matching) (xs : List Site) :
    (xs.map (Site.below k)).foldl step (s.below k) = (xs.foldl step s).below k := by
  rw [List.foldl_map]
  exact List.foldl_hom (below k) (step_below k)

end Matching

theorem pairUp_map_below (k : Nat) (xs : List Site) :
    pairUp (xs.map (Site.below k)) = (pairUp xs).map (Pair.below k) := by
  have hrun : Matching.run (xs.map (Site.below k)) = (Matching.run xs).below k :=
    Matching.foldl_step_below k .initial xs
  unfold pairUp
  rw [hrun, List.map_reverse]
  rfl

/-! ## 3. A clean break -/

/-- The end of a text at which it can be cut: the start of a line where no comment, no literal and
no delimiter is open, and no angle bracket if these are resolved. -/
structure CleanBreak (g : Grammar) (resolve : Bool) (text : List UInt8) : Prop where
  line : EndsLine text
  comment : (Lexer.run g text).region.isComment = false
  literal : (Lexer.run g text).region.isLiteral = false
  pending : (Matching.run (sites (scanMarks g resolve text) (cells g text))).pending = .empty
  angles : resolve = true → g.supportsAngles = true →
    (angleMarks g text).countP (fun m => decide (m.side = .opening)) =
      (angleMarks g text).countP (fun m => decide (m.side = .closing))

theorem position_mem_of_mem_scanMarks {g : Grammar} {resolve : Bool} {text : List UInt8}
    {m : AngleMark} (hm : m ∈ scanMarks g resolve text) :
    ∃ x ∈ cells g text, x.position = m.position := by
  have hmarks : m ∈ angleMarks g text := by
    unfold scanMarks at hm
    split at hm
    · exact hm
    · exact absurd hm List.not_mem_nil
  exact List.mem_map.mp
    ((map_position_angleMarks_sublist g text).subset (List.mem_map_of_mem hmarks))

namespace CleanBreak

variable {g : Grammar} {resolve : Bool} {first : List UInt8}

theorem region (h : CleanBreak g resolve first) : (Lexer.run g first).region = .code := by
  have hcomment := h.comment
  have hliteral := h.literal
  generalize (Lexer.run g first).region = region at hcomment hliteral ⊢
  cases region with
  | code => rfl
  | lineComment | blockComment => cases hcomment
  | string | char | byteEscape => cases hliteral

theorem cellsAfter_eq (h : CleanBreak g resolve first) (second : List UInt8) :
    cellsAfter g first second = (cells g second).map (Cell.below (first.count Byte.newline)) := by
  unfold cellsAfter cells
  rw [Reader.foldl_advance]
  exact Reader.cells_of_ahead (Lexer.ahead_initial g h.line h.region)
    (Position.after_of_endsLine h.line) second

theorem waiting_eq_nil (h : CleanBreak g true first) (hg : g.supportsAngles = true) :
    AngleMark.waiting (Collector.run g first).marks = [] := by
  have hcount := (Collector.sound_run g first).fits.countP_opening
  have hangles := h.angles rfl hg
  rw [angleMarks_eq_reverse_run hg, List.countP_reverse, List.countP_reverse] at hangles
  rw [← List.length_eq_zero_iff]
  omega

theorem angleMarks_append (h : CleanBreak g true first) (hg : g.supportsAngles = true)
    (second : List UInt8) : angleMarks g (first ++ second) = angleMarks g first ++
      (angleMarks g second).map (AngleMark.below (first.count Byte.newline)) := by
  have hbelow := Collector.foldl_step_below g.boundaries (first.count Byte.newline) .initial
    (cells g second)
  -- Behind the marks of the first part the collector is a new one that saw a byte before.
  rw [Nesting.angleMarks_append hg (h.waiting_eq_nil hg) second,
    Collector.marks_foldl_step_of_last, h.cellsAfter_eq second,
    angleMarks_eq_reverse_run hg second, List.map_reverse]
  exact congrArg (fun c : Collector => angleMarks g first ++ c.marks.reverse) hbelow

theorem scanMarks_append (h : CleanBreak g resolve first) (second : List UInt8) :
    scanMarks g resolve (first ++ second) = scanMarks g resolve first ++
      (scanMarks g resolve second).map (AngleMark.below (first.count Byte.newline)) := by
  cases resolve with
  | false => rfl
  | true =>
    by_cases hg : g.supportsAngles = true
    · exact h.angleMarks_append hg second
    · simp [scanMarks, angleMarks, hg]

-- The second part starts where the first one ends.
theorem le_below_position (h : CleanBreak g resolve first) {second : List UInt8} {x : Cell}
    (hx : x ∈ cells g second) :
    placeAt first first.length ≤ x.position.below (first.count Byte.newline) := by
  have hbelow : x.below (first.count Byte.newline) ∈ cellsAfter g first second := by
    rw [h.cellsAfter_eq second]
    exact List.mem_map_of_mem hx
  exact le_position_of_mem_cellsAfter hbelow

theorem marksExtend (h : CleanBreak g resolve first) (second : List UInt8) :
    MarksExtend g resolve first second := by
  refine ⟨_, h.scanMarks_append second, fun m hm => ?_⟩
  obtain ⟨m', hm', rfl⟩ := List.mem_map.mp hm
  obtain ⟨x, hx, hpos⟩ := position_mem_of_mem_scanMarks hm'
  show _ ≤ m'.position.below (first.count Byte.newline)
  rw [← hpos]
  exact h.le_below_position hx

-- The marks of the first part lie before every place of the second.
theorem scanCounts_below (h : CleanBreak g resolve first) {second : List UInt8} {x : Cell}
    (hx : x ∈ cells g second) :
    scanCounts g resolve (first ++ second) (x.position.below (first.count Byte.newline)) =
      scanCounts g resolve second x.position := by
  have hnone : (scanMarks g resolve first).any (fun m =>
      decide (m.position = x.position.below (first.count Byte.newline))) = false := by
    rw [List.any_eq_false]
    intro m hm heq
    rw [decide_eq_true_eq] at heq
    obtain ⟨y, hy, hpos⟩ := position_mem_of_mem_scanMarks hm
    have hlt := position_lt_of_mem_cells hy
    rw [hpos, heq] at hlt
    exact Position.not_lt.mpr (h.le_below_position hx) hlt
  unfold scanCounts
  rw [h.scanMarks_append second, List.any_append, hnone, Bool.false_or, List.any_map]
  congr 1
  funext m
  rw [Function.comp_apply, decide_eq_decide]
  exact Position.below_inj

theorem sitesAfter_eq (h : CleanBreak g resolve first) (second : List UInt8) :
    sitesAfter g resolve first second =
      ((cells g second).filterMap (Cell.site? (scanCounts g resolve second))).map
        (Site.below (first.count Byte.newline)) := by
  unfold sitesAfter
  rw [h.cellsAfter_eq second, List.filterMap_map, List.map_filterMap]
  apply List.filterMap_congr
  intro x hx
  have hcounts := h.scanCounts_below hx
  simp only [Function.comp_apply, Cell.site?, Cell.below, hcounts]
  cases x.kind with
  | skipped => rfl
  | code =>
    cases Bracket.ofByte? x.byte with
    | none => rfl
    | some found =>
      simp only
      split <;> rfl

end CleanBreak

/-- **Line breaks.** A text whose first part ends with a clean break has the pairs of its first part
and then those of its second part, the latter as many lines further down as the first part has
newlines. -/
theorem scan_append_of_cleanBreak {g : Grammar} {resolve : Bool} {first : List UInt8}
    (h : CleanBreak g resolve first) (second : List UInt8) :
    scan g resolve (first ++ second) = scan g resolve first ++
      (scan g resolve second).map (Pair.below (first.count Byte.newline)) := by
  have hpending := h.pending
  rw [sites_scanMarks] at hpending
  -- With nothing pending the matcher is at its start, only further down.
  rw [(h.marksExtend second).scan_append, hpending, h.sitesAfter_eq second,
    scan_eq_pairUp_filterMap g resolve second, ← pairUp_map_below]
  rfl

/-- A lifetime in angle brackets, and on the next line comments with brackets in them. -/
def commentedLines : List UInt8 :=
  [0x66, 0x3c, 0x27, 0x61, 0x3e, 0x5b, 0x2a, 0x70, 0x5d, 0x3b, 0x0a, 0x2f, 0x2a, 0x20, 0x28,
    0x7b, 0x20, 0x2a, 0x2f, 0x20, 0x2f, 0x2f, 0x20, 0x3c, 0x0a]

/-- A division, and angle brackets around a literal with a bracket in it. -/
def quotedLine : List UInt8 :=
  [0x28, 0x61, 0x2f, 0x62, 0x29, 0x3c, 0x5b, 0x27, 0x28, 0x27, 0x2c, 0x20, 0x63, 0x5d, 0x3e]

theorem scan_commentedLines_append :
    CleanBreak .rust true commentedLines ∧
      (scan .rust true (commentedLines ++ quotedLine)).map Pair.text =
        ["<1.2->1.5@0", "[1.6-]1.9@0", "(3.1-)3.5@0", "[3.7-]3.14@1", "<3.6->3.15@0"] := by
  have h : CleanBreak .rust true commentedLines := {
    line := Or.inr (by decide)
    comment := by decide +kernel
    literal := by decide +kernel
    pending := by decide +kernel
    angles := fun _ _ => by decide +kernel }
  refine ⟨h, ?_⟩
  rw [scan_append_of_cleanBreak h]
  decide +kernel

end Nesting
