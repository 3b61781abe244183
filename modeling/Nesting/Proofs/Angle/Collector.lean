import Nesting.Proofs.Angle.Trim

/-!
# The run of the collector

The collector counts the openers that wait instead of looking them up, and never marks a closer
unless the count allows it. `Sound` says that the count is right, and every cell keeps it so. Marks
among which nothing waits are never touched again, so a run goes on behind them as if they were not
there.
-/

namespace Nesting

/-- Whether the byte at an offset ends a statement, be it code or not. -/
def endsStatement (g : Grammar) (text : List UInt8) (i : Nat) : Bool :=
  text[i]?.any (fun b => decide (b ∈ g.boundaries))

theorem lt_length_of_endsStatement {g : Grammar} {text : List UInt8} {i : Nat}
    (h : endsStatement g text i = true) : i < text.length := by
  by_contra hge
  rw [endsStatement, List.getElem?_eq_none (by omega)] at h
  cases h

namespace Collector

open AngleMark

variable {c : Collector} {x : Cell} {base : List AngleMark}

/-! ## 1. One cell -/

-- Statement ends are no angle brackets.
theorem side?_of_boundary {g : Grammar} (hx : x.byte ∈ g.boundaries) : c.side? x = none := by
  have hangle : ∀ side, Bracket.ofByte? x.byte ≠ some (.angle, side) := by
    intro side
    generalize x.byte = b at hx
    cases g <;> simp only [Grammar.boundaries, List.mem_cons, List.not_mem_nil, or_false] at hx
    · rcases hx with rfl | rfl <;> cases side <;> decide
    · rcases hx with rfl | rfl <;> cases side <;> decide
    · rcases hx with rfl | rfl | rfl | rfl <;> cases side <;> decide
  unfold side?
  split
  · rename_i hb
    exact absurd hb (hangle _)
  · rename_i hb
    exact absurd hb (hangle _)
  · rfl

theorem settle_eq (c : Collector) :
    c.settle = ⟨answered 0 c.marks, c.unclosed - (waiting c.marks).length, c.last⟩ := by
  unfold settle
  rw [AngleMark.settle_eq]

theorem step_of_boundary {g : Grammar} (hx : x.byte ∈ g.boundaries) :
    c.step g.boundaries x = { c.settle with last := some x.byte } := by
  unfold step
  simp only [if_pos hx, side?_of_boundary hx]

theorem step_of_side?_eq_none {boundaries : List UInt8} (hx : x.byte ∉ boundaries)
    (hside : c.side? x = none) : c.step boundaries x = { c with last := some x.byte } := by
  unfold step
  simp only [if_neg hx, hside]

theorem step_of_side?_eq_some {boundaries : List UInt8} {side : Side} (hx : x.byte ∉ boundaries)
    (hside : c.side? x = some side) :
    c.step boundaries x = { c.record x.position side with last := some x.byte } := by
  unfold step
  simp only [if_neg hx, hside]

-- A change to the marks that a settling and a record carry along is carried along by the step.
theorem step_comm {f : Collector → Collector} {y : Cell} (boundaries : List UInt8)
    (hbyte : y.byte = x.byte) (hsettle : (f c).settle = f c.settle)
    (hside : ∀ c, (f c).side? y = c.side? x)
    (hrecord : ∀ c side, (f c).record y.position side = f (c.record x.position side))
    (hlast : ∀ c last, { f c with last := last } = f { c with last := last }) :
    (f c).step boundaries y = f (c.step boundaries x) := by
  have hsettled : (if x.byte ∈ boundaries then (f c).settle else f c) =
      f (if x.byte ∈ boundaries then c.settle else c) := by
    split
    · exact hsettle
    · rfl
  unfold step
  rw [hbyte, hsettled]
  -- What follows looks at the count and the last byte only.
  generalize (if x.byte ∈ boundaries then c.settle else c) = settled
  simp only [hside]
  cases settled.side? x with
  | none => exact hlast settled (some x.byte)
  | some side =>
    show { (f settled).record y.position side with last := some x.byte } = _
    rw [hrecord]
    exact hlast _ (some x.byte)

/-! ## 2. The count of open marks -/

/-- Every marked closer answers an opener, and the count is that of the openers that wait. -/
structure Sound (c : Collector) : Prop where
  fits : Fits c.marks
  unclosed : c.unclosed = (waiting c.marks).length

theorem sound_initial : Sound initial := ⟨trivial, rfl⟩

theorem Sound.waiting_settle (h : Sound c) :
    waiting c.settle.marks = [] ∧ c.settle.unclosed = 0 := by
  rw [settle_eq]
  constructor
  · exact waiting_answered 0 c.marks
  · show c.unclosed - (waiting c.marks).length = 0
    rw [h.unclosed]
    omega

theorem Sound.settle (h : Sound c) : Sound c.settle := by
  obtain ⟨hwaiting, hunclosed⟩ := h.waiting_settle
  refine ⟨?_, by rw [hwaiting, hunclosed]; rfl⟩
  rw [settle_eq]
  exact h.fits.answered 0

-- A closer is marked only where the count says that an opener waits.
theorem unclosed_pos_of_side? (hside : c.side? x = some .closing) : 0 < c.unclosed := by
  unfold side? at hside
  split at hside
  · cases hside
  · split at hside
    · rename_i hcan
      exact hcan.1
    · cases hside
  · cases hside

theorem Sound.record {side : Side} (h : Sound c) (hside : c.side? x = some side)
    (position : Position) : Sound (c.record position side) := by
  cases side with
  | opening =>
    refine ⟨⟨h.fits, fun hclosing => by cases hclosing⟩, ?_⟩
    exact congrArg (· + 1) h.unclosed
  | closing =>
    have hpos := unclosed_pos_of_side? hside
    refine ⟨⟨h.fits, fun _ hnil => ?_⟩, ?_⟩
    · rw [h.unclosed, hnil] at hpos
      exact Nat.lt_irrefl 0 hpos
    · show c.unclosed - 1 = (waiting c.marks).tail.length
      rw [h.unclosed, List.length_tail]

theorem Sound.step (h : Sound c) (g : Grammar) (x : Cell) : Sound (c.step g.boundaries x) := by
  by_cases hx : x.byte ∈ g.boundaries
  · rw [step_of_boundary hx]
    exact ⟨h.settle.fits, h.settle.unclosed⟩
  · cases hside : c.side? x with
    | none =>
      rw [step_of_side?_eq_none hx hside]
      exact ⟨h.fits, h.unclosed⟩
    | some side =>
      have hrecord := h.record hside x.position
      rw [step_of_side?_eq_some hx hside]
      exact ⟨hrecord.fits, hrecord.unclosed⟩

/-- After any cells the count is right. -/
theorem Sound.foldl (h : Sound c) (g : Grammar) (xs : List Cell) :
    Sound (xs.foldl (Collector.step g.boundaries) c) := by
  induction xs generalizing c with
  | nil => exact h
  | cons x xs ih => exact ih (h.step g x)

/-! ## 3. Marks behind -/

/-- The collector with older marks behind its own. -/
def behind (c : Collector) (base : List AngleMark) : Collector :=
  { c with marks := c.marks ++ base }

theorem settle_behind (hbase : waiting base = []) (c : Collector) :
    (c.behind base).settle = c.settle.behind base := by
  rw [settle_eq, settle_eq]
  simp only [behind, waiting_append hbase, answered_append hbase]

theorem step_behind (hbase : waiting base = []) (boundaries : List UInt8) (c : Collector)
    (x : Cell) : (c.behind base).step boundaries x = (c.step boundaries x).behind base := by
  apply step_comm (f := (behind · base)) boundaries rfl (settle_behind hbase c)
  · intro c
    rfl
  · intro c side
    cases side <;> rfl
  · intro c last
    rfl

/-- Behind marks among which nothing waits, a run makes the same marks as without them. -/
theorem foldl_step_behind (hbase : waiting base = []) (boundaries : List UInt8) (c : Collector)
    (xs : List Cell) : xs.foldl (step boundaries) (c.behind base) =
      (xs.foldl (step boundaries) c).behind base :=
  List.foldl_hom (behind · base) (step_behind hbase boundaries)

-- Where nothing waits, a sound collector is one that starts anew behind its marks.
theorem Sound.eq_behind (h : Sound c) (hw : waiting c.marks = []) :
    c = (Collector.mk [] 0 c.last).behind c.marks := by
  have hunclosed := h.unclosed
  rw [hw] at hunclosed
  obtain ⟨marks, unclosed, last⟩ := c
  subst hunclosed
  rfl

-- The end of a statement leaves a collector that starts anew behind marks that nothing touches.
theorem Sound.step_of_boundary {g : Grammar} (h : Sound c) (hx : x.byte ∈ g.boundaries) :
    c.step g.boundaries x = (Collector.mk [] 0 (some x.byte)).behind (answered 0 c.marks) := by
  have hunclosed := h.waiting_settle.2
  rw [Collector.step_of_boundary hx]
  rw [settle_eq] at hunclosed ⊢
  simp only [behind, List.nil_append, Collector.mk.injEq, true_and, and_true]
  exact hunclosed

/-! ## 4. The run over a text -/

/-- The collector after all of a text. -/
def run (g : Grammar) (text : List UInt8) : Collector :=
  (cells g text).foldl (step g.boundaries) initial

theorem sound_run (g : Grammar) (text : List UInt8) : Sound (run g text) :=
  sound_initial.foldl g (cells g text)

theorem run_append (g : Grammar) (text more : List UInt8) :
    run g (text ++ more) = ((text.foldl (Reader.advance g) .initial).cells g more).foldl
      (step g.boundaries) (run g text) := by
  unfold run cells
  rw [Reader.cells_append, List.foldl_append]

theorem waiting_run_of_endsStatement {g : Grammar} {text : List UInt8} {n : Nat}
    (hn : endsStatement g text n = true) : waiting (run g (text.take (n + 1))).marks = [] := by
  rw [endsStatement, Option.any_eq_true] at hn
  obtain ⟨b, hb, hmem⟩ := hn
  rw [decide_eq_true_eq] at hmem
  obtain ⟨hlt, hget⟩ := List.getElem?_eq_some_iff.mp hb
  rw [List.take_succ_eq_append_getElem hlt, hget, run_append, Reader.cells_cons, Reader.cells_nil,
    List.foldl_cons, List.foldl_nil, (sound_run g _).step_of_boundary hmem]
  exact waiting_answered 0 _

end Collector

theorem angleMarks_eq_reverse_run {g : Grammar} (hg : g.supportsAngles = true) (text : List UInt8) :
    angleMarks g text = (Collector.run g text).marks.reverse := by
  unfold angleMarks
  rw [if_pos hg]
  rfl

end Nesting
