import Nesting.Proofs.Delimiters
import Nesting.Scan

/-!
# The order of the marks

Marks are made in the order of the text and only ever deleted, so the marks of a text come in the
order of their places. A list in this order speaks for exactly the places of its marks, which says
what the delimiters of a scan are.
-/

namespace Nesting

/-! ## 1. Deletions keep the order -/

namespace AngleMark

theorem sublist_of_dropUnclosed? {closers : Nat} {marks rest : List AngleMark}
    (h : dropUnclosed? closers marks = some rest) : rest.Sublist marks := by
  induction marks generalizing closers rest with
  | nil => simp [dropUnclosed?] at h
  | cons m older ih =>
    unfold dropUnclosed? at h
    -- The newest mark stays, unless it is an opener with no closer left to answer it.
    split at h
    · rcases Option.map_eq_some_iff.mp h with ⟨r, hr, rfl⟩
      exact (ih hr).cons_cons m
    · split at h
      · rw [Option.some.injEq] at h
        rw [← h]
        exact List.sublist_cons_self m older
      · rcases Option.map_eq_some_iff.mp h with ⟨r, hr, rfl⟩
        exact (ih hr).cons_cons m

theorem settle_sublist (newest : List AngleMark) : (settle newest).1.Sublist newest := by
  fun_induction settle newest with
  | case1 newest _ => exact List.Sublist.refl newest
  | case2 newest rest found _ ih => exact ih.trans (sublist_of_dropUnclosed? found)

end AngleMark

/-- The mark that a cell deserves on its own: an angle bracket of the code. -/
def Cell.mark? (x : Cell) : Option AngleMark :=
  match x.kind, Bracket.ofByte? x.byte with
  | .code, some (.angle, side) => some ⟨side, x.position⟩
  | _, _ => none

theorem Cell.mark?_eq_some_iff {x : Cell} {m : AngleMark} :
    x.mark? = some m ↔
      x.kind = .code ∧ Bracket.ofByte? x.byte = some (.angle, m.side) ∧ m.position = x.position := by
  unfold mark?
  split
  · rename_i side hkind hbyte
    rw [hkind, hbyte]
    obtain ⟨side', position⟩ := m
    simp [eq_comm]
  · rename_i hnot
    exact ⟨fun h => (by cases h), fun h => absurd h.2.1 (hnot m.side h.1)⟩

theorem Cell.map_position_filterMap_mark?_sublist (xs : List Cell) :
    ((xs.filterMap mark?).map AngleMark.position).Sublist (xs.map position) := by
  induction xs with
  | nil => exact List.Sublist.refl _
  | cons x xs ih =>
    rw [List.filterMap_cons, List.map_cons]
    cases hmark : x.mark? with
    | none => exact ih.cons x.position
    | some m =>
      rw [← (Cell.mark?_eq_some_iff.mp hmark).2.2]
      exact ih.cons_cons m.position

namespace Collector

theorem settle_marks_sublist (c : Collector) : c.settle.marks.Sublist c.marks :=
  AngleMark.settle_sublist c.marks

theorem mark?_of_side? {c : Collector} {x : Cell} {side : Side} (h : c.side? x = some side) :
    x.mark? = some ⟨side, x.position⟩ := by
  unfold side? at h
  unfold Cell.mark?
  split at h
  · rename_i hkind hbyte
    cases h
    rw [hkind, hbyte]
  · rename_i hkind hbyte
    split at h
    · cases h
      rw [hkind, hbyte]
    · cases h
  · cases h

-- A cell adds no mark but its own.
theorem step_marks_sublist (boundaries : List UInt8) (c : Collector) (x : Cell) :
    (c.step boundaries x).marks.Sublist (x.mark?.toList ++ c.marks) := by
  have hsettled : (if x.byte ∈ boundaries then c.settle else c).marks.Sublist c.marks := by
    split
    · exact c.settle_marks_sublist
    · exact List.Sublist.refl _
  unfold step
  -- Whether the cell settles the marks first does not matter from here on.
  generalize (if x.byte ∈ boundaries then c.settle else c) = settled at hsettled ⊢
  simp only
  cases hside : settled.side? x with
  | none => exact hsettled.trans (List.sublist_append_right _ _)
  | some side =>
    rw [mark?_of_side? hside]
    cases side with
    | opening => exact hsettled.cons_cons _
    | closing => exact hsettled.cons_cons _

theorem foldl_step_marks_sublist (boundaries : List UInt8) (xs : List Cell) (c : Collector) :
    (xs.foldl (step boundaries) c).marks.Sublist ((xs.filterMap Cell.mark?).reverse ++ c.marks) := by
  induction xs generalizing c with
  | nil => exact List.Sublist.refl _
  | cons x xs ih =>
    have hrev : ((x :: xs).filterMap Cell.mark?).reverse =
        (xs.filterMap Cell.mark?).reverse ++ x.mark?.toList := by
      rw [List.filterMap_cons]
      cases x.mark? with
      | none => exact (List.append_nil _).symm
      | some m => exact List.reverse_cons
    rw [List.foldl_cons, hrev, List.append_assoc]
    exact (ih _).trans ((step_marks_sublist boundaries c x).append_left _)

end Collector

/-! ## 2. The marks of a text -/

theorem angleMarks_sublist (g : Grammar) (text : List UInt8) :
    (angleMarks g text).Sublist ((cells g text).filterMap Cell.mark?) := by
  unfold angleMarks
  split
  · have h := Collector.foldl_step_marks_sublist g.boundaries (cells g text) .initial
    rw [Collector.initial, List.append_nil] at h
    rw [← List.reverse_sublist, List.reverse_reverse]
    exact h
  · exact List.nil_sublist _

theorem map_position_angleMarks_sublist (g : Grammar) (text : List UInt8) :
    ((angleMarks g text).map AngleMark.position).Sublist ((cells g text).map Cell.position) :=
  ((angleMarks_sublist g text).map _).trans (Cell.map_position_filterMap_mark?_sublist _)

theorem pairwise_position_angleMarks (g : Grammar) (text : List UInt8) :
    (angleMarks g text).Pairwise (fun m m' => m.position < m'.position) := by
  have hcells := pairwise_position_cells g text
  rw [← List.pairwise_map (f := Cell.position) (R := (· < ·))] at hcells
  rw [← List.pairwise_map (f := AngleMark.position) (R := (· < ·))]
  exact hcells.sublist (map_position_angleMarks_sublist g text)

/-! ## 3. Marks in order -/

-- A list in the order of places speaks for the places of its marks and for no others.
theorem AngleMark.speaksFor_eq_any {marks : List AngleMark}
    (h : marks.Pairwise (fun m m' => m.position ≤ m'.position)) (p : Position) :
    speaksFor marks p = marks.any (fun m => decide (m.position = p)) := by
  induction marks with
  | nil => rfl
  | cons m marks ih =>
    rcases List.pairwise_cons.mp h with ⟨hm, hmarks⟩
    unfold speaksFor at ih ⊢
    by_cases hle : p ≤ m.position
    · rw [List.find?_cons_of_pos (by simpa using hle), List.any_cons, Option.any_some]
      by_cases heq : m.position = p
      · simp [heq]
      · have hlt : p < m.position := by
          rcases Position.le_iff_lt_or_eq.mp hle with hlt | heq'
          · exact hlt
          · exact absurd heq'.symm heq
        -- All later marks lie beyond the first one, which lies beyond `p`.
        have hnone : marks.any (fun m' => decide (m'.position = p)) = false := by
          rw [List.any_eq_false]
          intro m' hm' hp
          rw [decide_eq_true_eq] at hp
          have hback := hm m' hm'
          rw [hp] at hback
          exact Position.not_lt.mpr hback hlt
        rw [hnone, Bool.or_false]
    · have hne : m.position ≠ p := by
        intro heq
        rw [heq] at hle
        exact hle (Position.le_refl _)
      rw [List.find?_cons_of_neg (by simpa using hle), List.any_cons, ih hmarks]
      simp [hne]

/-! ## 4. The delimiters of a scan -/

/-- The delimiters of a scan: the plain brackets of the code and, when angle brackets are resolved,
the angle brackets with a mark. -/
def scanDelimiters (g : Grammar) (resolve : Bool) (text : List UInt8) : Bracketing :=
  delimiters g (fun p => (scanMarks g resolve text).any (fun m => decide (m.position = p))) text

theorem reads_scanDelimiters (g : Grammar) (resolve : Bool) (text : List UInt8) :
    (scanDelimiters g resolve text).Reads text :=
  reads_delimiters g _ text

theorem speaksFor_scanMarks (g : Grammar) (resolve : Bool) (text : List UInt8) :
    AngleMark.speaksFor (scanMarks g resolve text) =
      fun p => (scanMarks g resolve text).any (fun m => decide (m.position = p)) := by
  funext p
  apply AngleMark.speaksFor_eq_any
  unfold scanMarks
  split
  · refine (pairwise_position_angleMarks g text).imp fun h => ?_
    exact Position.le_iff_lt_or_eq.mpr (Or.inl h)
  · exact List.Pairwise.nil

theorem scan_eq_pairUp_entries (g : Grammar) (resolve : Bool) (text : List UInt8) :
    scan g resolve text =
      pairUp (((scanDelimiters g resolve text).entries text.length).map (siteOf text)) := by
  unfold scan matchDelimiters scanDelimiters
  rw [sites_eq_map_entries, speaksFor_scanMarks]

end Nesting
