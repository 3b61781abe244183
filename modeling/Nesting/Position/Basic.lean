import Nesting.Byte
import Nesting.Word

/-!
# Positions

A place in the text by line and column, both counted from one. Columns count bytes. Positions are
ordered by line first and column second, which is the order of the bytes they stand for.
-/

namespace Nesting

/-- A place in the text. -/
structure Position where
  line : Nat
  column : Nat
  deriving DecidableEq, Repr

namespace Position

/-- The place of the first byte. -/
def start : Position := ⟨1, 1⟩

/-! ## 1. Order -/

/-- An earlier line, or an earlier column of the same line. -/
protected def lt (p q : Position) : Prop :=
  p.line < q.line ∨ (p.line = q.line ∧ p.column < q.column)

/-- An earlier line, or a column of the same line that is not later. -/
protected def le (p q : Position) : Prop :=
  p.line < q.line ∨ (p.line = q.line ∧ p.column ≤ q.column)

instance : LT Position := ⟨Position.lt⟩
instance : LE Position := ⟨Position.le⟩

theorem lt_iff {p q : Position} :
    p < q ↔ p.line < q.line ∨ (p.line = q.line ∧ p.column < q.column) := Iff.rfl

theorem le_iff {p q : Position} :
    p ≤ q ↔ p.line < q.line ∨ (p.line = q.line ∧ p.column ≤ q.column) := Iff.rfl

instance (p q : Position) : Decidable (p < q) := decidable_of_iff _ lt_iff.symm
instance (p q : Position) : Decidable (p ≤ q) := decidable_of_iff _ le_iff.symm

/-- Which of two positions comes first. -/
instance : Ord Position where
  compare p q := if p < q then .lt else if p = q then .eq else .gt

theorem eq_iff {p q : Position} : p = q ↔ p.line = q.line ∧ p.column = q.column := by
  cases p; cases q; simp

@[simp] protected theorem lt_irrefl (p : Position) : ¬ p < p := by
  rw [lt_iff]; omega

@[simp] protected theorem le_refl (p : Position) : p ≤ p := by
  rw [le_iff]; omega

protected theorem lt_trans {p q r : Position} : p < q → q < r → p < r := by
  simp only [lt_iff]; omega

protected theorem le_trans {p q r : Position} : p ≤ q → q ≤ r → p ≤ r := by
  simp only [le_iff]; omega

protected theorem le_antisymm {p q : Position} : p ≤ q → q ≤ p → p = q := by
  simp only [le_iff, eq_iff]; omega

protected theorem not_lt {p q : Position} : ¬ p < q ↔ q ≤ p := by
  simp only [lt_iff, le_iff]; omega

protected theorem not_le {p q : Position} : ¬ p ≤ q ↔ q < p := by
  simp only [lt_iff, le_iff]; omega

protected theorem le_total (p q : Position) : p ≤ q ∨ q ≤ p := by
  simp only [le_iff]; omega

protected theorem le_iff_lt_or_eq {p q : Position} : p ≤ q ↔ p < q ∨ p = q := by
  simp only [lt_iff, le_iff, eq_iff]; omega

/-- Positions from first to last. -/
def sort (points : List Position) : List Position :=
  points.mergeSort (fun p q => decide (p ≤ q))

/-! ## 2. Reading on -/

/-- The place of the byte that follows `b`: column one of the next line after a newline, the next
column after any other byte. -/
def advance (p : Position) (b : UInt8) : Position :=
  if b = Byte.newline then ⟨p.line + 1, 1⟩ else ⟨p.line, p.column + 1⟩

/-- The place reached from the start after all of `text`. -/
def after (text : List UInt8) : Position :=
  text.foldl advance start

/-- Reading on never goes back. -/
theorem lt_advance (p : Position) (b : UInt8) : p < p.advance b := by
  unfold advance
  split <;> simp [lt_iff]

/-- `advance` on words: an error when the line or the column would not fit a word. -/
def advanceWord (p : Position) (b : UInt8) : Except Error Position := do
  if b = Byte.newline then
    return ⟨← Word.add p.line 1, 1⟩
  else
    return ⟨p.line, ← Word.add p.column 1⟩

theorem advanceWord_eq_ok {p : Position} (hline : p.line + 1 < Word.limit)
    (hcolumn : p.column + 1 < Word.limit) (b : UInt8) : p.advanceWord b = .ok (p.advance b) := by
  unfold advanceWord advance
  rw [Word.add_eq_ok_iff.mpr ⟨rfl, hline⟩, Word.add_eq_ok_iff.mpr ⟨rfl, hcolumn⟩]
  by_cases hb : b = Byte.newline
  · rw [if_pos hb, if_pos hb]
    rfl
  · rw [if_neg hb, if_neg hb]
    rfl

/-- The places passed on the way through `text` from `p`, both ends included. -/
def trail (p : Position) : List UInt8 → Except Error (List Position)
  | [] => .ok [p]
  | b :: text => do
    let q ← p.advanceWord b
    return p :: (← trail q text)

end Position

end Nesting
