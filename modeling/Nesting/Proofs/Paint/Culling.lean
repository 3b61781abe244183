import Mathlib.Data.List.Find
import Mathlib.Data.List.Flatten
import Nesting.Proofs.Paint.Cursor
import Nesting.Proofs.Paint.Window

/-!
# What the window leaves out

The painter asks the window about every end and every span by itself. Still a pair out of sight
paints nothing, so leaving such pairs out beforehand changes nothing, unless one of them is the
innermost pair around a cursor that is out of sight too. And a window that grows only adds ranges:
those of a smaller margin all stay, in their order.
-/

namespace Nesting

namespace Request

/-! ## 1. Pairs out of sight -/

section

variable {r : Request} {p : Pair} {pairs : List Pair}

theorem shows_of_mem_ends {place : Position} (hplace : place ∈ p.ends)
    (h : r.window.contains place = true) : r.shows p = true := by
  apply Window.overlaps_iff.mpr
  rcases List.mem_cons.mp hplace with heq | hmem
  · rw [heq] at h
    exact Or.inl h
  · rw [List.mem_singleton.mp hmem] at h
    exact Or.inr (Or.inl h)

theorem shows_of_encloses {place : Position} (hplace : p.encloses place = true)
    (h : r.window.contains place = true) : r.shows p = true := by
  rw [Pair.encloses_iff] at hplace
  exact Window.overlaps_of_contains hplace.1 hplace.2 h

theorem ends_eq_nil (h : r.shows p = false) : r.ends p = [] := by
  have hnone : p.ends.filter r.window.contains = [] := by
    apply List.filter_eq_nil_iff.mpr
    intro place hplace hin
    rw [shows_of_mem_ends hplace hin] at h
    cases h
  unfold ends
  split
  · rfl
  · rw [show [p.opener.position, p.closer.position] = p.ends from rfl, hnone]
    rfl

theorem scope_eq_nil (h : r.shows p = false) : r.scope p = [] := by
  unfold scope
  split
  · rw [h]
    rfl
  · rfl

theorem flatMap_filter_shows {f : Pair → List Range} (hf : ∀ p, r.shows p = false → f p = [])
    (pairs : List Pair) : (pairs.filter r.shows).flatMap f = pairs.flatMap f := by
  induction pairs with
  | nil => rfl
  | cons p pairs ih =>
    rw [List.flatMap_cons, List.filter_cons]
    cases h : r.shows p with
    | true => rw [if_pos rfl, List.flatMap_cons, ih]
    | false => rw [if_neg Bool.false_ne_true, hf p h, List.nil_append, ih]

-- Every pair around a cursor in sight is in sight, so the first of them is still the first.
theorem find?_filter_shows (h : r.window.contains r.cursor = true) :
    (pairs.filter r.shows).find? (·.encloses r.cursor) = pairs.find? (·.encloses r.cursor) := by
  rw [List.find?_filter]
  apply List.find?_congr
  intro p _
  cases henc : p.encloses r.cursor with
  | false => simp
  | true => simp [shows_of_encloses henc h]

theorem cursorPair?_filter_shows (h : r.mode ≠ .cursor ∨ r.window.contains r.cursor = true) :
    r.cursorPair? (pairs.filter r.shows) = r.cursorPair? pairs := by
  unfold cursorPair?
  split
  · rename_i hmode
    exact find?_filter_shows (h.resolve_left fun hne => hne hmode)
  · rfl

end

/-- **Unseen pairs.** Unless a cursor out of sight is asked for, only the pairs that overlap the
window decide what is painted. -/
theorem ranges_ignore_unseen (r : Request) (pairs : List Pair)
    (h : r.mode ≠ .cursor ∨ r.window.contains r.cursor = true) :
    r.ranges pairs = r.ranges
      (pairs.filter fun p => r.window.overlaps p.opener.position p.closer.position) := by
  have hpaint : ∀ p, r.shows p = false → r.ends p ++ r.scope p = [] := by
    intro p hp
    rw [ends_eq_nil hp, scope_eq_nil hp]
    rfl
  show r.ranges pairs = r.ranges (pairs.filter r.shows)
  unfold ranges cursorScope
  rw [← List.filter_reverse, flatMap_filter_shows hpaint, cursorPair?_filter_shows h]

/-- The window shows the first line of `nestedText`, where the cursor is, and the braces on the
second line are out of sight. -/
theorem ranges_ignore_unseen_nestedText :
    Window.contains ⟨⟨1, 2⟩, ⟨1, 3⟩⟩ nestedRequest.cursor = true ∧
      { nestedRequest with window := ⟨⟨1, 2⟩, ⟨1, 3⟩⟩ }.ranges (scan .c false nestedText) =
        { nestedRequest with window := ⟨⟨1, 2⟩, ⟨1, 3⟩⟩ }.ranges
          [⟨⟨'[', ⟨1, 2⟩, 1⟩, ⟨']', ⟨1, 3⟩, 1⟩⟩, ⟨⟨'(', ⟨1, 1⟩, 0⟩, ⟨')', ⟨2, 3⟩, 0⟩⟩] := by
  refine ⟨by decide, ?_⟩
  rw [ranges_ignore_unseen _ _ (Or.inr (by decide))]
  rfl

-- With the cursor out of sight between the braces, the round brackets take their place.
example : { nestedRequest with cursor := ⟨2, 1⟩, window := ⟨⟨1, 2⟩, ⟨1, 3⟩⟩ }.ranges
      (scan .c false nestedText) ≠
    { nestedRequest with cursor := ⟨2, 1⟩, window := ⟨⟨1, 2⟩, ⟨1, 3⟩⟩ }.ranges
      ((scan .c false nestedText).filter fun p =>
        Window.overlaps ⟨⟨1, 2⟩, ⟨1, 3⟩⟩ p.opener.position p.closer.position) := by
  decide +kernel

/-! ## 2. A window that grows -/

section

variable {r : Request} {w v : Window} {p : Pair} {pairs : List Pair}

theorem ends_sublist (hwv : w.Within v) :
    ({ r with window := w }.ends p).Sublist ({ r with window := v }.ends p) := by
  dsimp only [ends]
  split
  · exact List.Sublist.refl _
  · apply List.Sublist.map
    exact List.monotone_filter_right _ fun place hplace => hwv.contains hplace

-- A background that needs the pair in sight stays when the window grows. A span or a window whose
-- ends are in the wrong order could get out of sight.
theorem sublist_of_within (hwv : w.Within v) (hw : w.top ≤ w.bottom)
    (hp : p.opener.position < p.closer.position) (x : Range) :
    List.Sublist (if { r with window := w }.shows p then [x] else [])
      (if { r with window := v }.shows p then [x] else []) := by
  by_cases hshows : { r with window := w }.shows p = true
  · have hle := Position.le_iff_lt_or_eq.mpr (Or.inl hp)
    have hstays : { r with window := v }.shows p = true := hwv.overlaps hw hle hshows
    rw [if_pos hshows, if_pos hstays]
  · rw [if_neg hshows]
    exact List.nil_sublist _

theorem scope_sublist (hwv : w.Within v) (hw : w.top ≤ w.bottom)
    (hp : p.opener.position < p.closer.position) :
    ({ r with window := w }.scope p).Sublist ({ r with window := v }.scope p) := by
  dsimp only [scope]
  split
  · exact sublist_of_within hwv hw hp _
  · exact List.Sublist.refl _

theorem cursorScope_sublist (hwv : w.Within v) (hw : w.top ≤ w.bottom)
    (hpairs : InOrder pairs) :
    ({ r with window := w }.cursorScope pairs).Sublist
      ({ r with window := v }.cursorScope pairs) := by
  -- Which pair is chosen does not depend on the window.
  have hchosen : { r with window := w }.cursorPair? pairs =
      { r with window := v }.cursorPair? pairs := rfl
  unfold cursorScope
  rw [hchosen]
  split
  · rename_i p hp
    exact sublist_of_within hwv hw (hpairs p (mem_of_cursorPair? hp)) _
  · exact List.Sublist.refl _

theorem ranges_sublist (hwv : w.Within v) (hw : w.top ≤ w.bottom)
    (hpairs : InOrder pairs) :
    ({ r with window := w }.ranges pairs).Sublist ({ r with window := v }.ranges pairs) := by
  unfold ranges
  apply List.Sublist.append
  · apply List.Sublist.flatMap_right
    intro p hp
    have hlt := hpairs p (List.mem_reverse.mp hp)
    exact (ends_sublist hwv).append (scope_sublist hwv hw hlt)
  · exact cursorScope_sublist hwv hw hpairs

end

/-- **A larger margin.** If the window of a view with some margin exists, then so does the one with
a smaller margin, and what is painted in the smaller one is painted in the larger one too, in the
same order and in the same faces. -/
theorem ranges_grow_with_margin (g : Grammar) (resolve : Bool) (text : List UInt8) (r : Request)
    (top : Position) (lines columns less more : Nat) (v : Window) (htop : 1 ≤ top.line)
    (hless : less ≤ more) (hv : Window.ofView top lines columns more = .ok v) :
    ∃ w, Window.ofView top lines columns less = .ok w ∧
      ({ r with window := w }.ranges (scan g resolve text)).Sublist
        ({ r with window := v }.ranges (scan g resolve text)) := by
  rcases Window.ofView_eq_ok_iff.mp hv with ⟨hfits, rfl⟩
  have hw : Window.ofView top lines columns less = .ok (Window.around top lines columns less) :=
    Window.ofView_of_not_overflows fun hover => hfits (hover.mono hless)
  have hpairs : InOrder (scan g resolve text) := (wellPaired_matchDelimiters g _ text).inOrder
  exact ⟨_, hw,
    ranges_sublist (Window.within_around hless) (Window.top_around_le_bottom htop) hpairs⟩

/-- With a margin of one line the second line of `nestedText` brings the first one into sight. -/
theorem ranges_grow_nestedText :
    1 ≤ (⟨2, 1⟩ : Position).line ∧ 0 ≤ 1 ∧
      Window.ofView ⟨2, 1⟩ 0 1 1 = .ok ⟨⟨1, 1⟩, ⟨3, 2⟩⟩ ∧
      ({ nestedRequest with window := ⟨⟨2, 1⟩, ⟨2, 2⟩⟩ }.ranges (scan .c false nestedText)).Sublist
        ({ nestedRequest with window := ⟨⟨1, 1⟩, ⟨3, 2⟩⟩ }.ranges (scan .c false nestedText)) := by
  have hv : Window.ofView ⟨2, 1⟩ 0 1 1 = .ok ⟨⟨1, 1⟩, ⟨3, 2⟩⟩ := rfl
  rcases ranges_grow_with_margin .c false nestedText nestedRequest ⟨2, 1⟩ 0 1 0 1 _ (by decide)
    (by decide) hv with ⟨w, hw, hsub⟩
  have heq : w = ⟨⟨2, 1⟩, ⟨2, 2⟩⟩ := (Except.ok.inj hw).symm
  rw [heq] at hsub
  exact ⟨by decide, by decide, hv, hsub⟩

end Request

end Nesting
