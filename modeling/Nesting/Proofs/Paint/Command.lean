import Nesting.Paint.Command
import Nesting.Proofs.Position.Text

/-!
# Commands that cannot be confused

A command writes its ranges one after another, with blanks, commas, points and bars between their
parts. A face may itself hold any of these but the blank, and still the ranges can be told from the
command: numbers end at the first character that is no digit, and a face at the next blank.
-/

namespace Nesting

/-! ## 1. Where a part ends -/

section

variable {x y rest rest' : List Char} {c d : Char}

-- A run of characters of one class ends at the first character of the other.
theorem append_cons_inj_of_forall {p : Char → Bool} (hx : ∀ e ∈ x, p e = true)
    (hy : ∀ e ∈ y, p e = true) (hc : ¬ p c = true) (hd : ¬ p d = true)
    (h : x ++ c :: rest = y ++ d :: rest') : x = y ∧ rest = rest' := by
  have hrun : x = y := by
    have htake := congrArg (List.takeWhile p) h
    rw [List.takeWhile_append_of_pos hx, List.takeWhile_append_of_pos hy,
      List.takeWhile_cons_of_neg hc, List.takeWhile_cons_of_neg hd] at htake
    exact List.append_cancel_right htake
  rw [hrun] at h
  have htail := List.append_cancel_left h
  exact ⟨hrun, (List.cons.inj htail).2⟩

theorem repr_append_inj {a b : Nat} (hc : ¬ IsDecimal c)
    (h : (Nat.repr a).toList ++ c :: rest = (Nat.repr b).toList ++ c :: rest') :
    a = b ∧ rest = rest' := by
  have hstop : ¬ c.isDigit = true := mt isDigit_iff_isDecimal.mp hc
  obtain ⟨hdigits, hrest⟩ := append_cons_inj_of_forall (isNumeral_repr a).isDigit
    (isNumeral_repr b).isDigit hstop hstop h
  refine ⟨?_, hrest⟩
  rw [← (isNumeral_repr a).value, hdigits, (isNumeral_repr b).value]

theorem Position.text_append_inj {p q : Position} (hc : ¬ IsDecimal c)
    (h : p.text.toList ++ c :: rest = q.text.toList ++ c :: rest') : p = q ∧ rest = rest' := by
  rw [p.toList_text, q.toList_text, List.append_assoc, List.append_assoc] at h
  obtain ⟨hline, h⟩ := repr_append_inj (by decide) h
  obtain ⟨hcolumn, hrest⟩ := repr_append_inj hc h
  exact ⟨Position.eq_iff.mpr ⟨hline, hcolumn⟩, hrest⟩

end

/-! ## 2. A list of ranges -/

theorem Range.toList_text (r : Range) : r.text.toList =
    r.first.text.toList ++ ',' :: (r.last.text.toList ++ '|' :: r.face.toList) := by
  unfold text
  simp only [String.toList_append, List.append_assoc]
  rfl

/-- The characters of the ranges of a command, each after a blank. -/
def listing (ranges : List Range) : List Char :=
  ranges.flatMap fun r => ' ' :: r.text.toList

theorem listing_cons (r : Range) (ranges : List Range) :
    listing (r :: ranges) = ' ' :: (r.text.toList ++ listing ranges) := rfl

theorem toList_command (client timestamp : String) (ranges : List Range) :
    (command client timestamp ranges).toList =
      (command client timestamp []).toList ++ listing ranges := by
  unfold command listing
  simp [String.toList_join, List.flatMap_map]

theorem exists_listing_concat (ranges : List Range) :
    ∃ tail, listing ranges ++ [' '] = ' ' :: tail := by
  cases ranges with
  | nil => exact ⟨[], rfl⟩
  | cons r ranges => exact ⟨r.text.toList ++ listing ranges ++ [' '], rfl⟩

theorem append_listing_inj {x y : List Char} {xs ys : List Range} (hx : ' ' ∉ x) (hy : ' ' ∉ y)
    (h : x ++ listing xs = y ++ listing ys) : x = y ∧ listing xs = listing ys := by
  -- With one more blank after both sides, a blank follows in every case.
  obtain ⟨tail, htail⟩ := exists_listing_concat xs
  obtain ⟨tail', htail'⟩ := exists_listing_concat ys
  have hblank := congrArg (· ++ [' ']) h
  simp only [List.append_assoc, htail, htail'] at hblank
  have hface : ∀ z : List Char, ' ' ∉ z → ∀ e ∈ z, (e != ' ') = true := by
    intro z hz e he
    rw [bne_iff_ne]
    rintro rfl
    exact hz he
  obtain ⟨rfl, -⟩ := append_cons_inj_of_forall (hface x hx) (hface y hy) (by decide) (by decide)
    hblank
  exact ⟨rfl, List.append_cancel_left h⟩

theorem listing_injective {xs ys : List Range} (hxs : ∀ r ∈ xs, ' ' ∉ r.face.toList)
    (hys : ∀ r ∈ ys, ' ' ∉ r.face.toList) (h : listing xs = listing ys) : xs = ys := by
  induction xs generalizing ys with
  | nil =>
    cases ys with
    | nil => rfl
    | cons s ys => cases h
  | cons r xs ih =>
    cases ys with
    | nil => cases h
    | cons s ys =>
      rw [List.forall_mem_cons] at hxs hys
      rw [listing_cons, listing_cons, r.toList_text, s.toList_text] at h
      have h := (List.cons.inj h).2
      simp only [List.append_assoc, List.cons_append] at h
      obtain ⟨hfirst, h⟩ := Position.text_append_inj (by decide) h
      obtain ⟨hlast, h⟩ := Position.text_append_inj (by decide) h
      obtain ⟨hface, h⟩ := append_listing_inj hxs.1 hys.1 h
      have hrange : r = s := by
        cases r
        cases s
        rw [Range.mk.injEq]
        exact ⟨hfirst, hlast, String.toList_inj.mp hface⟩
      rw [hrange, ih hxs.2 hys.2 h]

/-! ## 3. Commands -/

/-- **Commands are unambiguous.** For a client and a timestamp, lists of ranges whose faces hold no
blank have the same command only if they are the same list. -/
theorem command_tells_ranges (client timestamp : String) (xs ys : List Range)
    (hxs : ∀ r ∈ xs, ' ' ∉ r.face.toList) (hys : ∀ r ∈ ys, ' ' ∉ r.face.toList)
    (h : command client timestamp xs = command client timestamp ys) : xs = ys := by
  have hchars := congrArg String.toList h
  rw [toList_command, toList_command client timestamp ys] at hchars
  exact listing_injective hxs hys (List.append_cancel_left hchars)

/-- One color reads like the start of a range, and the other is empty. -/
def barredRequest : Request where
  mode := .scopes
  cursor := .start
  window := ⟨⟨1, 1⟩, ⟨2, 1⟩⟩
  palette := ⟨["1.2,1.2|red"], [""]⟩
  cursorColor := ""

def barredRanges : List Range :=
  [⟨⟨1, 1⟩, ⟨1, 1⟩, "1.2,1.2|red"⟩, ⟨⟨1, 9⟩, ⟨1, 9⟩, "1.2,1.2|red"⟩, ⟨⟨1, 1⟩, ⟨1, 9⟩, "default,"⟩]

theorem command_tells_barredRanges :
    (∀ r ∈ barredRanges, ' ' ∉ r.face.toList) ∧
      command "main" "7" barredRanges = "eval -client main set-option window rainbow 7" ++
        " 1.1,1.1|1.2,1.2|red 1.9,1.9|1.2,1.2|red 1.1,1.9|default," ∧
      barredRequest.ranges [⟨⟨'(', ⟨1, 1⟩, 0⟩, ⟨')', ⟨1, 9⟩, 0⟩⟩] = barredRanges := by
  have hfaces : ∀ r ∈ barredRanges, ' ' ∉ r.face.toList := by decide
  refine ⟨hfaces, by decide +kernel, ?_⟩
  exact command_tells_ranges "main" "7" _ _ (by decide) hfaces (by decide +kernel)

-- A blank in a face would be taken for the end of a range.
example : command "main" "7" [⟨⟨1, 1⟩, ⟨1, 1⟩, "red 2.1,2.1|blue"⟩] =
    command "main" "7" [⟨⟨1, 1⟩, ⟨1, 1⟩, "red"⟩, ⟨⟨2, 1⟩, ⟨2, 1⟩, "blue"⟩] := by decide +kernel

end Nesting
