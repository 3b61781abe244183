import Nesting.Proofs.Angle.Order

/-!
# Using marks up

The marks that a text is matched with may come from anywhere: in any order, doubled, behind skipped
text, where there is no angle bracket, with the wrong side. They are used up from the front, so a mark
that lies too far ahead stands in the way of all marks after it. Which angle brackets are delimiters
is a question about the places of the marks alone, and for marks in order it is whether the place is
among them.
-/

namespace Nesting

/-! ## 1. Places of marks -/

namespace AngleMark

variable {marks : List AngleMark}

theorem speaksFor_iff {p : Position} :
    speaksFor marks p = true ↔
      (marks.map position).find? (fun q => decide (p ≤ q)) = some p := by
  unfold speaksFor
  rw [List.find?_map, Option.map_eq_some_iff, Option.any_eq_true]
  simp only [decide_eq_true_eq]
  rfl

theorem speaksFor_congr {marks' : List AngleMark}
    (h : marks'.map position = marks.map position) : speaksFor marks' = speaksFor marks := by
  funext p
  rw [Bool.eq_iff_iff, speaksFor_iff, speaksFor_iff, h]

theorem speaksFor_eq_decide_mem (h : marks.Pairwise (fun m m' => m.position ≤ m'.position)) :
    speaksFor marks = fun p => decide (p ∈ marks.map position) := by
  funext p
  rw [speaksFor_eq_any h, Bool.eq_iff_iff, List.any_eq_true, decide_eq_true_eq, List.mem_map]
  simp only [decide_eq_true_eq]

end AngleMark

/-! ## 2. Delimiters by place -/

theorem mem_sites_iff {g : Grammar} {marks : List AngleMark} {text : List UInt8} {x : Site} :
    x ∈ sites marks (cells g text) ↔
      ∃ i, (Lexer.classes g text)[i]? = some .code ∧
        text[i]? = some (x.bracket.byte x.side) ∧ x.position = placeAt text i ∧
        (x.bracket.isPlain = true ∨ AngleMark.speaksFor marks x.position = true) := by
  rw [sites_eq_map_entries, List.mem_map]
  constructor
  · rintro ⟨⟨i, k, side⟩, hentry, rfl⟩
    obtain ⟨hclass, hbyte, hcounts⟩ := delimiters_eq_some_iff.mp (Bracketing.mem_entries.mp hentry).2
    exact ⟨i, hclass, hbyte, rfl, hcounts⟩
  · rintro ⟨i, hclass, hbyte, hplace, hcounts⟩
    obtain ⟨k, side, p⟩ := x
    have hi : i < text.length := (List.getElem?_eq_some_iff.mp hbyte).1
    cases hplace
    exact ⟨(i, k, side),
      Bracketing.mem_entries.mpr ⟨hi, delimiters_eq_some_iff.mpr ⟨hclass, hbyte, hcounts⟩⟩, rfl⟩

/-- The pairs of a text whose angle brackets are delimiters at the places that count. -/
def pairsWhere (g : Grammar) (counts : Position → Bool) (text : List UInt8) : List Pair :=
  pairUp (((delimiters g counts text).entries text.length).map (siteOf text))

theorem matchDelimiters_eq_pairsWhere (g : Grammar) (marks : List AngleMark) (text : List UInt8) :
    matchDelimiters g marks text = pairsWhere g (AngleMark.speaksFor marks) text := by
  unfold matchDelimiters pairsWhere
  rw [sites_eq_map_entries]

/-- **Any list of marks.** An angle bracket of the code at the place `p` is a delimiter if and only
if `p` is the first place from `p` on in the list of marks. Marks with the same places give the same
pairs, whatever their sides. Marks in order make delimiters of the angle brackets at their places, and
give the pairs that the set of these places gives. -/
theorem marks_count_by_place (g : Grammar) (marks : List AngleMark) (text : List UInt8) :
    (∀ x, x ∈ sites marks (cells g text) ↔
      ∃ i, (Lexer.classes g text)[i]? = some .code ∧
        text[i]? = some (x.bracket.byte x.side) ∧ x.position = placeAt text i ∧
        (x.bracket.isPlain = true ∨
          (marks.map AngleMark.position).find? (fun q => decide (x.position ≤ q)) =
            some x.position)) ∧
    (∀ marks', marks'.map AngleMark.position = marks.map AngleMark.position →
      sites marks' (cells g text) = sites marks (cells g text) ∧
        matchDelimiters g marks' text = matchDelimiters g marks text) ∧
    (marks.Pairwise (fun m m' => m.position ≤ m'.position) →
      (∀ p, (marks.map AngleMark.position).find? (fun q => decide (p ≤ q)) = some p ↔
        p ∈ marks.map AngleMark.position) ∧
      matchDelimiters g marks text =
        pairsWhere g (fun p => decide (p ∈ marks.map AngleMark.position)) text) := by
  refine ⟨fun x => ?_, fun marks' hplaces => ?_, fun hsorted => ⟨fun p => ?_, ?_⟩⟩
  · rw [mem_sites_iff, AngleMark.speaksFor_iff]
  · have hsites : sites marks' (cells g text) = sites marks (cells g text) := by
      rw [sites_eq_filterMap, sites_eq_filterMap, AngleMark.speaksFor_congr hplaces]
    exact ⟨hsites, congrArg pairUp hsites⟩
  · rw [← AngleMark.speaksFor_iff, AngleMark.speaksFor_eq_decide_mem hsorted, decide_eq_true_eq]
  · rw [matchDelimiters_eq_pairsWhere, AngleMark.speaksFor_eq_decide_mem hsorted]

/-- Angle brackets around round ones around angle brackets, and a closer in a comment. -/
def crowdedText : List UInt8 :=
  [0x3c, 0x28, 0x3c, 0x3e, 0x29, 0x3e, 0x2f, 0x2a, 0x3e, 0x2a, 0x2f]

/-- Marks in order for the outer brackets, all but one of them with the wrong side, and one for a
round bracket and one for the comment. -/
def crowdedMarks : List AngleMark :=
  [⟨.closing, ⟨1, 1⟩⟩, ⟨.opening, ⟨1, 1⟩⟩, ⟨.opening, ⟨1, 2⟩⟩, ⟨.opening, ⟨1, 6⟩⟩,
    ⟨.closing, ⟨1, 9⟩⟩]

-- From the last to the first, the mark in the comment stands in the way of the others.
theorem marks_count_crowdedMarks :
    crowdedMarks.Pairwise (fun m m' => m.position ≤ m'.position) ∧
      (matchDelimiters .cpp crowdedMarks crowdedText).map Pair.text =
        ["(1.2-)1.5@1", "<1.1->1.6@0"] ∧
      ⟨.angle, .opening, ⟨1, 1⟩⟩ ∉ sites crowdedMarks.reverse (cells .cpp crowdedText) := by
  have hsorted : crowdedMarks.Pairwise (fun m m' => m.position ≤ m'.position) := by decide
  refine ⟨hsorted, ?_, ?_⟩
  · rw [((marks_count_by_place .cpp crowdedMarks crowdedText).2.2 hsorted).2]
    decide +kernel
  · rw [(marks_count_by_place .cpp crowdedMarks.reverse crowdedText).1]
    rintro ⟨i, -, -, -, hcounts⟩
    revert hcounts
    decide

end Nesting
