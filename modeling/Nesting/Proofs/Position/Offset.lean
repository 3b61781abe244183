import Mathlib.Data.List.DropRight
import Mathlib.Data.Set.Function
import Nesting.Proofs.Place

/-!
# Places and offsets

While a text is read the column starts again at every newline, so neither the line nor the column of
a place tells how far the text has been read. Both together do: the places of a text are the columns
of its lines in reading order, each passed once, and they are told apart and compared as the offsets
they belong to.
-/

namespace Nesting

/-! ## 1. The line and the column of an offset -/

/-- The bytes after the last newline, all of them if there is none. -/
def lastLine (text : List UInt8) : List UInt8 :=
  text.rtakeWhile (· != Byte.newline)

theorem lastLine_concat (text : List UInt8) (b : UInt8) :
    lastLine (text ++ [b]) = if b = Byte.newline then [] else lastLine text ++ [b] := by
  unfold lastLine
  rw [List.rtakeWhile_concat]
  by_cases hb : b = Byte.newline
  · rw [if_neg (by simp [hb]), if_pos hb]
  · rw [if_pos (by simp [hb]), if_neg hb]

/-- The line counts the newlines of what was read, and the column what was read since the last. -/
theorem Position.after_eq (text : List UInt8) :
    after text = ⟨1 + text.count Byte.newline, 1 + (lastLine text).length⟩ := by
  induction text using List.reverseRecOn with
  | nil => rfl
  | append_singleton text b ih =>
    have hstep : after (text ++ [b]) = (after text).advance b := List.foldl_concat ..
    rw [hstep, ih, lastLine_concat, List.count_append, advance]
    by_cases hb : b = Byte.newline
    · rw [if_pos hb, if_pos hb, hb, List.count_singleton_self]
      rfl
    · rw [if_neg hb, if_neg hb, List.count_singleton, if_neg (by simpa using hb),
        List.length_append]
      rfl

/-- Which of two places comes first is which of their offsets does. -/
theorem compare_placeAt {text : List UInt8} {m n : Nat} (hm : m ≤ text.length)
    (hn : n ≤ text.length) : compare (placeAt text m) (placeAt text n) = compare m n := by
  change (if placeAt text m < placeAt text n then Ordering.lt
    else if placeAt text m = placeAt text n then .eq else .gt) = _
  rcases Nat.lt_trichotomy m n with hlt | rfl | hgt
  · rw [if_pos (placeAt_lt_placeAt hlt hn), Nat.compare_eq_lt.mpr hlt]
  · rw [if_neg (Position.lt_irrefl _), if_pos rfl, Nat.compare_eq_eq.mpr rfl]
  · have hnlt : ¬ placeAt text m < placeAt text n := by
      rw [placeAt_lt_placeAt_iff hm hn]
      omega
    have hne : placeAt text m ≠ placeAt text n := by
      rw [Ne, placeAt_inj hm hn]
      omega
    rw [if_neg hnlt, if_neg hne, Nat.compare_eq_gt.mpr hgt]

/-! ## 2. The places of a text -/

/-- The places of `n` columns of a line, the first of them `column`. -/
def columnsOf (line column n : Nat) : List Position :=
  (List.range' column n).map (Position.mk line)

/-- The places of a text in reading order. A line has one for each of its bytes and one more, which
is that of its newline or the end of the text. -/
def grid (text : List UInt8) : List Position :=
  ((text.splitOn Byte.newline).zipIdx 1).flatMap fun (line, number) =>
    columnsOf number 1 (line.length + 1)

-- From any place, which may be in the middle of a line. Induction on the text: a newline begins the
-- next line, and another byte adds a column to the first.
theorem Position.scanl_advance_eq {text first : List UInt8} {rest : List (List UInt8)}
    (h : text.splitOn Byte.newline = first :: rest) (line column : Nat) :
    text.scanl advance ⟨line, column⟩ = columnsOf line column (first.length + 1) ++
      (rest.zipIdx (line + 1)).flatMap fun (line, number) =>
        columnsOf number 1 (line.length + 1) := by
  induction text generalizing first rest line column with
  | nil =>
    rw [List.splitOn_nil] at h
    cases h
    rfl
  | cons b text ih =>
    rw [List.splitOn_cons_eq_if_modifyHead] at h
    cases hlines : text.splitOn Byte.newline with
    | nil => exact absurd hlines (List.splitOn_ne_nil _ _)
    | cons next others =>
      rw [hlines] at h
      rw [List.scanl_cons, advance]
      by_cases hb : b = Byte.newline
      · rw [if_pos (by simpa using hb)] at h
        cases h
        rw [if_pos hb, ih hlines]
        rfl
      · rw [if_neg (by simpa using hb)] at h
        cases h
        rw [if_neg hb, ih hlines]
        rfl

theorem Position.scanl_advance_start (text : List UInt8) :
    text.scanl advance start = grid text := by
  unfold grid
  cases hlines : text.splitOn Byte.newline with
  | nil => exact absurd hlines (List.splitOn_ne_nil _ _)
  | cons first rest => exact scanl_advance_eq hlines 1 1

/-- The place of an offset is the one with that number in the grid. -/
theorem getElem?_grid (text : List UInt8) (n : Nat) :
    (grid text)[n]? = if n ≤ text.length then some (placeAt text n) else none := by
  rw [← Position.scanl_advance_start, List.getElem?_scanl]
  rfl

theorem mem_grid_iff {text : List UInt8} {p : Position} :
    p ∈ grid text ↔ ∃ n ≤ text.length, placeAt text n = p := by
  rw [List.mem_iff_getElem?]
  simp only [getElem?_grid, ite_eq_iff, Option.some.injEq, reduceCtorEq, and_false, or_false]

/-- Every column of every line is the place of exactly one offset. -/
theorem bijOn_placeAt (text : List UInt8) :
    Set.BijOn (placeAt text) {n | n ≤ text.length} {p | p ∈ grid text} := by
  refine ⟨fun n hn => mem_grid_iff.mpr ⟨n, hn, rfl⟩, fun m hm n hn h => ?_, fun p hp => ?_⟩
  · exact (placeAt_inj hm hn).mp h
  · exact mem_grid_iff.mp hp

/-! ## 3. The places that a reader passes -/

/-- The cells of a text stand at its places in order. -/
theorem map_position_cells (g : Grammar) (text : List UInt8) :
    (cells g text).map Cell.position = (List.range text.length).map (placeAt text) := by
  apply List.ext_getElem?
  intro n
  rw [List.getElem?_map, List.getElem?_map, getElem?_cells, Option.map_map]
  by_cases hn : n < text.length
  · rw [List.getElem?_range hn, List.getElem?_eq_getElem hn]
    rfl
  · rw [List.getElem?_eq_none (by omega), List.getElem?_eq_none (by simpa using hn)]
    rfl

/-- No step of the way overflows if the whole length can be added to the line and the column. -/
theorem Position.trail_eq_ok {text : List UInt8} {p : Position}
    (hline : p.line + text.length < Word.limit) (hcolumn : p.column + text.length < Word.limit) :
    p.trail text = .ok (text.scanl advance p) := by
  induction text generalizing p with
  | nil => rfl
  | cons b text ih =>
    rw [List.length_cons] at hline hcolumn
    have hrest : (p.advance b).trail text = .ok (text.scanl advance (p.advance b)) := by
      unfold advance
      split
      · exact ih (show p.line + 1 + text.length < _ by omega) (show 1 + text.length < _ by omega)
      · exact ih (show p.line + text.length < _ by omega)
          (show p.column + 1 + text.length < _ by omega)
    rw [trail, advanceWord_eq_ok (by omega) (by omega), List.scanl_cons]
    show (do return p :: (← (p.advance b).trail text)) = _
    rw [hrest]
    rfl

/-! ## 4. Comparing places -/

/-- **Offsets.** After `n` bytes the line is one more than the newlines among them, and the column
one more than the bytes since the last of these. A later offset has a later place, so two offsets
never share one, and places compare as their offsets do. The offsets of a text, its end included, go
one to one with the columns of its lines. These are the places of the cells that both passes read,
and those that words count if the text fits into memory. -/
theorem places_order_as_offsets (text : List UInt8) :
    (∀ n, placeAt text n =
      ⟨1 + (text.take n).count Byte.newline, 1 + (lastLine (text.take n)).length⟩) ∧
    (∀ m n, m < n → n ≤ text.length → placeAt text m < placeAt text n) ∧
    (∀ m n, m ≤ text.length → n ≤ text.length →
      (placeAt text m = placeAt text n ↔ m = n) ∧ (placeAt text m < placeAt text n ↔ m < n) ∧
      (placeAt text m ≤ placeAt text n ↔ m ≤ n) ∧
      compare (placeAt text m) (placeAt text n) = compare m n) ∧
    Set.BijOn (placeAt text) {n | n ≤ text.length} {p | p ∈ grid text} ∧
    (∀ g, (cells g text).map Cell.position = (List.range text.length).map (placeAt text)) ∧
    (text.length + 1 < Word.limit → Position.start.trail text = .ok (grid text)) := by
  refine ⟨fun n => Position.after_eq (text.take n), fun m n hmn hn => placeAt_lt_placeAt hmn hn,
    fun m n hm hn => ?_, bijOn_placeAt text, fun g => map_position_cells g text, fun htext => ?_⟩
  · have hle : placeAt text m ≤ placeAt text n ↔ m ≤ n := by
      rw [← Position.not_lt, placeAt_lt_placeAt_iff hn hm, Nat.not_lt]
    exact ⟨placeAt_inj hm hn, placeAt_lt_placeAt_iff hm hn, hle, compare_placeAt hm hn⟩
  · have hone : 1 + text.length < Word.limit := by omega
    rw [Position.trail_eq_ok hone hone, Position.scanl_advance_start]

/-- A character of two bytes before a bracket, an empty line, and a line that has no end. -/
def unevenLines : List UInt8 :=
  [0xc3, 0xa9, 0x28, 0x0a, 0x0a, 0x62, 0x29]

theorem places_order_unevenLines :
    unevenLines.length + 1 < Word.limit ∧
      Position.start.trail unevenLines =
        .ok [⟨1, 1⟩, ⟨1, 2⟩, ⟨1, 3⟩, ⟨1, 4⟩, ⟨2, 1⟩, ⟨3, 1⟩, ⟨3, 2⟩, ⟨3, 3⟩] ∧
      (placeAt unevenLines 3 = ⟨1, 4⟩ ∧ placeAt unevenLines 5 = ⟨3, 1⟩) ∧
      placeAt unevenLines 3 < placeAt unevenLines 5 ∧
      compare (placeAt unevenLines 5) (placeAt unevenLines 3) = .gt := by
  obtain ⟨hplace, hlt, hsame, -, -, htrail⟩ := places_order_as_offsets unevenLines
  have hlength : unevenLines.length + 1 < Word.limit := by decide
  refine ⟨hlength, htrail hlength, ⟨hplace 3, hplace 5⟩, hlt 3 5 (by decide) (by decide), ?_⟩
  exact (hsame 5 3 (by decide) (by decide)).2.2.2

end Nesting
