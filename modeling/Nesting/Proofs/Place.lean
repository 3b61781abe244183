import Nesting.Lexer.Cell

/-!
# Places of offsets

Statements about a whole text speak about the offsets of its bytes, while cells, marks and pairs
carry places. This file connects the two: the place of every offset, the cell found there, and the
fact that the order of places is the order of offsets.
-/

namespace Nesting

/-- The place of the byte at an offset. -/
def placeAt (text : List UInt8) (i : Nat) : Position :=
  Position.after (text.take i)

/-! ## 1. The order of places -/

theorem placeAt_succ {text : List UInt8} {i : Nat} (hi : i < text.length) :
    placeAt text (i + 1) = (placeAt text i).advance text[i] := by
  unfold placeAt Position.after
  rw [List.take_succ_eq_append_getElem hi, List.foldl_append, List.foldl_cons, List.foldl_nil]

-- A later offset has a later place.
theorem placeAt_lt_placeAt {text : List UInt8} {i j : Nat} (hij : i < j) (hj : j ≤ text.length) :
    placeAt text i < placeAt text j := by
  induction j with
  | zero => omega
  | succ j ih =>
    have hstep : placeAt text j < placeAt text (j + 1) := by
      rw [placeAt_succ hj]
      exact Position.lt_advance _ _
    by_cases hi : i = j
    · rw [hi]
      exact hstep
    · exact Position.lt_trans (ih (by omega) (by omega)) hstep

theorem placeAt_lt_placeAt_iff {text : List UInt8} {i j : Nat} (hi : i ≤ text.length)
    (hj : j ≤ text.length) : placeAt text i < placeAt text j ↔ i < j := by
  refine ⟨fun h => ?_, fun h => placeAt_lt_placeAt h hj⟩
  rcases Nat.lt_trichotomy i j with hlt | heq | hgt
  · exact hlt
  · rw [heq] at h
    exact absurd h (Position.lt_irrefl _)
  · exact absurd (Position.lt_trans h (placeAt_lt_placeAt hgt hi)) (Position.lt_irrefl _)

theorem placeAt_inj {text : List UInt8} {i j : Nat} (hi : i ≤ text.length)
    (hj : j ≤ text.length) : placeAt text i = placeAt text j ↔ i = j := by
  refine ⟨fun h => ?_, fun h => by rw [h]⟩
  rcases Nat.lt_trichotomy i j with hlt | heq | hgt
  · have hp := placeAt_lt_placeAt hlt hj
    rw [h] at hp
    exact absurd hp (Position.lt_irrefl _)
  · exact heq
  · have hp := placeAt_lt_placeAt hgt hi
    rw [h] at hp
    exact absurd hp (Position.lt_irrefl _)

/-! ## 2. The cell of an offset -/

-- What a machine that reads `l` gives out at an offset depends on the elements before it and on the
-- element there.
theorem getElem?_zipWith_scanl {σ α β : Type} (out : σ → α → β) (step : σ → α → σ) (s : σ)
    (l : List α) (i : Nat) :
    (List.zipWith out (l.scanl step s) l)[i]? = l[i]?.map (out ((l.take i).foldl step s)) := by
  rw [List.getElem?_zipWith, List.getElem?_scanl]
  by_cases hi : i < l.length
  · rw [if_pos (Nat.le_of_lt hi), List.getElem?_eq_getElem hi, Option.map_some]
  · rw [List.getElem?_eq_none (Nat.le_of_not_lt hi), Option.map_none]
    cases (if i ≤ l.length then some ((l.take i).foldl step s) else none) <;> rfl

theorem getElem?_classes (g : Grammar) (text : List UInt8) (i : Nat) :
    (Lexer.classes g text)[i]? = text[i]?.map ((Lexer.run g (text.take i)).classify g) :=
  getElem?_zipWith_scanl _ _ _ _ _

theorem Reader.foldl_advance (g : Grammar) (r : Reader) (text : List UInt8) :
    text.foldl (advance g) r =
      ⟨text.foldl (Lexer.advance g) r.lexer, text.foldl Position.advance r.position⟩ := by
  induction text generalizing r with
  | nil => rfl
  | cons b text ih => simp only [List.foldl_cons, ih, advance]

/-- The cell of an offset has the byte found there, its place and its class. -/
theorem getElem?_cells (g : Grammar) (text : List UInt8) (i : Nat) :
    (cells g text)[i]? = text[i]?.map
      (fun b => ⟨b, placeAt text i, (Lexer.run g (text.take i)).classify g b⟩) := by
  unfold cells Reader.cells
  rw [getElem?_zipWith_scanl, Reader.foldl_advance]
  rfl

theorem getElem?_classes_eq_map_kind (g : Grammar) (text : List UInt8) (i : Nat) :
    (Lexer.classes g text)[i]? = (cells g text)[i]?.map Cell.kind := by
  rw [getElem?_classes, getElem?_cells, Option.map_map]
  rfl

theorem exists_getElem?_cells (g : Grammar) {text : List UInt8} {i : Nat} (hi : i < text.length) :
    ∃ x, (cells g text)[i]? = some x := by
  rw [getElem?_cells, List.getElem?_eq_getElem hi]
  exact ⟨_, rfl⟩

theorem byte_position_of_getElem?_cells {g : Grammar} {text : List UInt8} {i : Nat} {x : Cell}
    (hx : (cells g text)[i]? = some x) : text[i]? = some x.byte ∧ x.position = placeAt text i := by
  rw [getElem?_cells] at hx
  rcases Option.map_eq_some_iff.mp hx with ⟨b, hb, rfl⟩
  exact ⟨hb, rfl⟩

-- The places of the cells increase.
theorem pairwise_position_cells (g : Grammar) (text : List UInt8) :
    (cells g text).Pairwise (fun x y => x.position < y.position) := by
  rw [List.pairwise_iff_getElem]
  intro i j hi hj hij
  rw [length_cells] at hi hj
  have hx := getElem?_cells g text i
  have hy := getElem?_cells g text j
  rw [List.getElem?_eq_getElem (by simpa using hi), List.getElem?_eq_getElem hi] at hx
  rw [List.getElem?_eq_getElem (by simpa using hj), List.getElem?_eq_getElem hj] at hy
  simp only [Option.map_some, Option.some.injEq] at hx hy
  rw [hx, hy]
  exact placeAt_lt_placeAt hij (Nat.le_of_lt hj)

end Nesting
