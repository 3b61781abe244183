import Nesting.Pairing.Site
import Nesting.Proofs.Place

/-!
# The delimiters of a text

Which bytes of a text act as delimiters, said for each offset on its own: the byte is code, it is
a bracket, and it is an angle bracket only where angle brackets count. For a list of marks they
count where the list speaks for the place, and `sites_eq_map_entries` shows that using the marks up
one by one while the text is read finds the same delimiters.
-/

namespace Nesting

/-! ## 1. Brackets by offset -/

/-- Which offsets act as brackets, and as which. -/
abbrev Bracketing := Nat → Option (Bracket × Side)

/-- The delimiters of a text whose angle brackets count at some places and not at others. -/
def delimiters (g : Grammar) (counts : Position → Bool) (text : List UInt8) : Bracketing := fun i =>
  match (Lexer.classes g text)[i]?, text[i]?.bind Bracket.ofByte? with
  | some .code, some (k, side) =>
    if k.isPlain || counts (placeAt text i) then some (k, side) else none
  | _, _ => none

theorem bind_ofByte?_eq_some_iff {b : Option UInt8} {k : Bracket} {side : Side} :
    b.bind Bracket.ofByte? = some (k, side) ↔ b = some (k.byte side) := by
  simp only [Option.bind_eq_some_iff, Bracket.ofByte?_eq_some_iff, exists_eq_right]

/-- A delimiter is the byte of a bracket in the code, of an angle bracket only where these count. -/
theorem delimiters_eq_some_iff {g : Grammar} {counts : Position → Bool} {text : List UInt8}
    {i : Nat} {k : Bracket} {side : Side} :
    delimiters g counts text i = some (k, side) ↔
      (Lexer.classes g text)[i]? = some .code ∧ text[i]? = some (k.byte side) ∧
        (k.isPlain = true ∨ counts (placeAt text i) = true) := by
  rw [← bind_ofByte?_eq_some_iff]
  unfold delimiters
  split
  · rename_i k' side' hclass hbyte
    rw [hclass, hbyte]
    by_cases hc : (k'.isPlain || counts (placeAt text i)) = true
    · rw [if_pos hc]
      rw [Bool.or_eq_true] at hc
      refine ⟨fun h => ?_, fun h => h.2.1⟩
      cases h
      exact ⟨rfl, rfl, hc⟩
    · rw [if_neg hc]
      rw [Bool.or_eq_true] at hc
      refine ⟨fun h => (by cases h), fun h => ?_⟩
      rcases h with ⟨-, hkind, hcounts⟩
      cases hkind
      exact absurd hcounts hc
  · rename_i hnot
    exact ⟨fun h => (by cases h), fun h => absurd h.2.1 (hnot k side h.1)⟩

namespace Bracketing

/-- The brackets among the first `n` offsets, in order. -/
def entries (t : Bracketing) (n : Nat) : List (Nat × Bracket × Side) :=
  (List.range n).filterMap (fun i => (t i).map (fun b => (i, b)))

theorem entries_succ (t : Bracketing) (n : Nat) :
    t.entries (n + 1) = t.entries n ++ ((t n).map (fun b => (n, b))).toList := by
  unfold entries
  rw [List.range_succ, List.filterMap_append, List.filterMap_cons, List.filterMap_nil]
  cases t n <;> rfl

theorem mem_entries {t : Bracketing} {n i : Nat} {b : Bracket × Side} :
    (i, b) ∈ t.entries n ↔ i < n ∧ t i = some b := by
  unfold entries
  rw [List.mem_filterMap]
  refine ⟨fun h => ?_, fun h => ⟨i, List.mem_range.mpr h.1, by rw [h.2, Option.map_some]⟩⟩
  rcases h with ⟨j, hj, hb⟩
  rcases Option.map_eq_some_iff.mp hb with ⟨b', hb', heq⟩
  cases heq
  exact ⟨List.mem_range.mp hj, hb'⟩

theorem pairwise_entries (t : Bracketing) (n : Nat) :
    (t.entries n).Pairwise (fun e e' => e.1 < e'.1) := by
  unfold entries
  rw [List.pairwise_filterMap]
  refine List.pairwise_lt_range.imp fun {i j} hij e he e' he' => ?_
  rcases Option.map_eq_some_iff.mp he with ⟨b, -, rfl⟩
  rcases Option.map_eq_some_iff.mp he' with ⟨b', -, rfl⟩
  exact hij

/-- The brackets are bytes of the text. -/
def Reads (t : Bracketing) (text : List UInt8) : Prop :=
  ∀ ⦃i k side⦄, t i = some (k, side) → text[i]? = some (k.byte side)

end Bracketing

theorem reads_delimiters (g : Grammar) (counts : Position → Bool) (text : List UInt8) :
    (delimiters g counts text).Reads text :=
  fun _ _ _ h => (delimiters_eq_some_iff.mp h).2.1

/-- The site of a bracket of the text. -/
def siteOf (text : List UInt8) (e : Nat × Bracket × Side) : Site :=
  ⟨e.2.1, e.2.2, placeAt text e.1⟩

/-! ## 2. Marks that speak for a place -/

namespace AngleMark

/-- Whether a list of marks, in any order, speaks for a place: the first of them that does not lie
before the place is for it. -/
def speaksFor (marks : List AngleMark) (place : Position) : Bool :=
  (marks.find? (fun m => decide (place ≤ m.position))).any (fun m => decide (m.position = place))

theorem speaksFor_eq_any_head? (marks : List AngleMark) (place : Position) :
    speaksFor marks place = (marks.dropWhile (fun m => decide (m.position < place))).head?.any
      (fun m => decide (m.position = place)) := by
  unfold speaksFor
  congr 1
  induction marks with
  | nil => rfl
  | cons m marks ih =>
    by_cases hm : m.position < place
    · have hle : ¬ place ≤ m.position := fun h => Position.not_lt.mpr h hm
      rw [List.find?_cons_of_neg (by simpa using hle),
        List.dropWhile_cons_of_pos (by simpa using hm), ih]
    · have hle : place ≤ m.position := Position.not_lt.mp hm
      rw [List.find?_cons_of_pos (by simpa using hle),
        List.dropWhile_cons_of_neg (by simpa using hm), List.head?_cons]

-- Marks that were skipped on the way to a place are skipped on the way to a later one.
theorem dropWhile_dropWhile_of_lt {p q : Position} (hpq : p < q) (marks : List AngleMark) :
    (marks.dropWhile (fun m => decide (m.position < p))).dropWhile
        (fun m => decide (m.position < q)) =
      marks.dropWhile (fun m => decide (m.position < q)) := by
  induction marks with
  | nil => rfl
  | cons m marks ih =>
    by_cases hm : m.position < p
    · have hq : m.position < q := Position.lt_trans hm hpq
      rw [List.dropWhile_cons_of_pos (by simpa using hm), ih,
        List.dropWhile_cons_of_pos (by simpa using hq)]
    · rw [List.dropWhile_cons_of_neg (by simpa using hm)]

end AngleMark

/-! ## 3. Using up the marks -/

/-- The site that a cell is when angle brackets count as given. -/
def Cell.site? (counts : Position → Bool) (x : Cell) : Option Site :=
  match x.kind, Bracket.ofByte? x.byte with
  | .code, some (k, side) =>
    if k.isPlain || counts x.position then some ⟨k, side, x.position⟩ else none
  | _, _ => none

namespace SiteFinder

theorem take_found (f : SiteFinder) (x : Site) :
    (f.take x).found =
      if x.bracket.isPlain || f.marks.head?.any (fun m => decide (m.position = x.position)) then
        x :: f.found
      else f.found := by
  unfold take
  cases hplain : x.bracket.isPlain with
  | true => rfl
  | false =>
    cases hmarks : f.marks with
    | nil => rfl
    | cons m rest =>
      by_cases hm : m.position = x.position <;> simp [hm]

-- A cell is found if the marks left speak for it.
theorem step_found (f : SiteFinder) (x : Cell) :
    (f.step x).found = (x.site? (AngleMark.speaksFor f.marks)).toList ++ f.found := by
  unfold step Cell.site?
  cases x.kind with
  | skipped => rfl
  | code =>
    cases Bracket.ofByte? x.byte with
    | none => rfl
    | some b =>
      rcases b with ⟨k, side⟩
      simp only [take_found, AngleMark.speaksFor_eq_any_head?, skipTo]
      split <;> rfl

-- What a cell uses up lies before every later place.
theorem dropWhile_step_marks (f : SiteFinder) (x : Cell) {p : Position} (hp : x.position < p) :
    (f.step x).marks.dropWhile (fun m => decide (m.position < p)) =
      f.marks.dropWhile (fun m => decide (m.position < p)) := by
  have hskip := AngleMark.dropWhile_dropWhile_of_lt hp f.marks
  unfold step
  cases x.kind with
  | skipped => rfl
  | code =>
    cases Bracket.ofByte? x.byte with
    | none => exact hskip
    | some b =>
      rcases b with ⟨k, side⟩
      simp only [take, skipTo]
      cases hplain : k.isPlain with
      | true => exact hskip
      | false =>
        cases hmarks : f.marks.dropWhile (fun m => decide (m.position < x.position)) with
        | nil =>
          rw [← hskip, hmarks]
          rfl
        | cons m rest =>
          rw [← hskip, hmarks]
          by_cases hm : m.position = x.position
          · have hlt : m.position < p := hm ▸ hp
            rw [List.dropWhile_cons_of_pos (by simpa using hlt)]
            simp [hm]
          · simp [hm]

-- The invariant is that for every cell to come the marks left are as good as all the marks. The
-- cells found are then those that all the marks together speak for.
theorem foldl_step_found {marks : List AngleMark} (xs : List Cell) (f : SiteFinder)
    (hxs : xs.Pairwise (fun x y => x.position < y.position))
    (hf : ∀ x ∈ xs, f.marks.dropWhile (fun m => decide (m.position < x.position)) =
      marks.dropWhile (fun m => decide (m.position < x.position))) :
    (xs.foldl step f).found =
      (xs.filterMap (Cell.site? (AngleMark.speaksFor marks))).reverse ++ f.found := by
  induction xs generalizing f with
  | nil => rfl
  | cons x xs ih =>
    rcases List.pairwise_cons.mp hxs with ⟨hx, hxs⟩
    have hspeak : x.site? (AngleMark.speaksFor f.marks) = x.site? (AngleMark.speaksFor marks) := by
      unfold Cell.site?
      rw [AngleMark.speaksFor_eq_any_head?, AngleMark.speaksFor_eq_any_head?,
        hf x List.mem_cons_self]
    rw [List.foldl_cons, ih (f.step x) hxs, step_found, hspeak, List.filterMap_cons]
    · cases x.site? (AngleMark.speaksFor marks) <;> simp
    · intro y hy
      rw [dropWhile_step_marks f x (hx y hy)]
      exact hf y (List.mem_cons_of_mem x hy)

end SiteFinder

/-! ## 4. The sites of a text -/

theorem filterMap_eq_filterMap_range {α β : Type} (f : α → Option β) (l : List α) :
    l.filterMap f = (List.range l.length).filterMap (fun i => l[i]?.bind f) := by
  induction l with
  | nil => rfl
  | cons a l ih =>
    rw [List.length_cons, List.range_succ_eq_map, List.filterMap_cons, List.filterMap_cons,
      List.filterMap_map, ih]
    rfl

theorem site?_of_getElem?_cells (g : Grammar) (counts : Position → Bool) (text : List UInt8)
    (i : Nat) :
    (cells g text)[i]?.bind (Cell.site? counts) =
      (delimiters g counts text i).map (fun b => siteOf text (i, b)) := by
  unfold delimiters
  rw [getElem?_cells, getElem?_classes]
  cases text[i]? with
  | none => rfl
  | some b =>
    simp only [Option.map_some, Option.bind_some, Cell.site?]
    cases (Lexer.run g (text.take i)).classify g b with
    | skipped => rfl
    | code =>
      cases Bracket.ofByte? b with
      | none => rfl
      | some k =>
        simp only
        split <;> rfl

-- Every cell is judged by its own place, whatever the cells before it used up.
theorem sites_eq_filterMap (g : Grammar) (marks : List AngleMark) (text : List UInt8) :
    sites marks (cells g text) =
      (cells g text).filterMap (Cell.site? (AngleMark.speaksFor marks)) := by
  unfold sites
  rw [SiteFinder.foldl_step_found (cells g text) ⟨marks, []⟩ (pairwise_position_cells g text)
    (fun _ _ => rfl), List.append_nil, List.reverse_reverse]

/-- **Marks.** Reading a text and using the marks up on the way finds the brackets that the marks
speak for, each judged by its own place. -/
theorem sites_eq_map_entries (g : Grammar) (marks : List AngleMark) (text : List UInt8) :
    sites marks (cells g text) =
      ((delimiters g (AngleMark.speaksFor marks) text).entries text.length).map (siteOf text) := by
  rw [sites_eq_filterMap, filterMap_eq_filterMap_range, length_cells, Bracketing.entries,
    List.map_filterMap]
  simp only [site?_of_getElem?_cells, Option.map_map, Function.comp_def]

end Nesting
