import Nesting.Paint.Window

/-!
# What a window covers

A window is an interval of places, and the test for overlap looks at three places only: both ends of
the span and the top of the window. For a span and a window in order this is enough to find a place
they share. The window of a view is in order because views start on line one or later, and it holds
the screen with the margin above and below it, and nothing further away.
-/

namespace Nesting

namespace Window

/-! ## 1. Places of a window -/

section

variable {w v : Window} {first last p : Position}

theorem contains_iff : w.contains p = true ↔ w.top ≤ p ∧ p ≤ w.bottom := by
  unfold contains
  rw [Bool.and_eq_true, decide_eq_true_eq, decide_eq_true_eq]

theorem overlaps_iff : w.overlaps first last = true ↔
    w.contains first = true ∨ w.contains last = true ∨ first ≤ w.top ∧ w.bottom ≤ last := by
  unfold overlaps
  rw [Bool.or_eq_true, Bool.or_eq_true, Bool.and_eq_true, decide_eq_true_eq, decide_eq_true_eq,
    or_assoc]

-- No order of the window or of the span is needed here: the shared place is between their ends.
theorem overlaps_of_contains (hfirst : first ≤ p) (hlast : p ≤ last) (hp : w.contains p = true) :
    w.overlaps first last = true := by
  rw [contains_iff] at hp
  rw [overlaps_iff, contains_iff, contains_iff]
  rcases Position.le_total w.top first with htop | htop
  · exact Or.inl ⟨htop, Position.le_trans hfirst hp.2⟩
  · rcases Position.le_total last w.bottom with hbottom | hbottom
    · exact Or.inr (Or.inl ⟨Position.le_trans hp.1 hlast, hbottom⟩)
    · exact Or.inr (Or.inr ⟨htop, hbottom⟩)

/-- For a window and a span in order, to overlap is to share a place. -/
theorem overlaps_iff_exists (hw : w.top ≤ w.bottom) (hspan : first ≤ last) :
    w.overlaps first last = true ↔ ∃ p, first ≤ p ∧ p ≤ last ∧ w.contains p = true := by
  refine ⟨fun h => ?_, fun ⟨p, hfirst, hlast, hp⟩ => overlaps_of_contains hfirst hlast hp⟩
  rcases overlaps_iff.mp h with hp | hp | hcover
  · exact ⟨first, Position.le_refl _, hspan, hp⟩
  · exact ⟨last, hspan, Position.le_refl _, hp⟩
  · -- The window lies in the span, so its own top is shared.
    have htop : w.contains w.top = true := contains_iff.mpr ⟨Position.le_refl _, hw⟩
    exact ⟨w.top, hcover.1, Position.le_trans hw hcover.2, htop⟩

/-- Every place of the first window is one of the second. -/
def Within (w v : Window) : Prop :=
  v.top ≤ w.top ∧ w.bottom ≤ v.bottom

theorem Within.contains (h : w.Within v) (hp : w.contains p = true) : v.contains p = true := by
  rw [contains_iff] at hp ⊢
  exact ⟨Position.le_trans h.1 hp.1, Position.le_trans hp.2 h.2⟩

theorem Within.overlaps (h : w.Within v) (hw : w.top ≤ w.bottom) (hspan : first ≤ last)
    (ho : w.overlaps first last = true) : v.overlaps first last = true := by
  rcases (overlaps_iff_exists hw hspan).mp ho with ⟨p, hfirst, hlast, hp⟩
  exact overlaps_of_contains hfirst hlast (h.contains hp)

end

/-! ## 2. The window of a view -/

/-- The window of a view with a margin, by sums that never overflow. -/
def around (top : Position) (lines columns margin : Nat) : Window :=
  ⟨⟨max (top.line - margin) 1, top.column⟩, ⟨top.line + lines + margin, top.column + columns⟩⟩

/-- One of the sums behind the window of a view does not fit a word. -/
def Overflows (top : Position) (lines columns margin : Nat) : Prop :=
  Word.limit ≤ top.line + lines ∨ Word.limit ≤ top.column + columns ∨
    Word.limit ≤ top.line + lines + margin

instance (top : Position) (lines columns margin : Nat) :
    Decidable (Overflows top lines columns margin) :=
  inferInstanceAs (Decidable (_ ∨ _))

section

variable {top : Position} {lines columns margin : Nat}

theorem ofView_of_overflows (h : Overflows top lines columns margin) :
    ofView top lines columns margin = .error .overflow := by
  unfold ofView
  by_cases hline : Word.limit ≤ top.line + lines
  · rw [Word.add_eq_overflow_iff.mpr hline]
    rfl
  · rw [Word.add_eq_ok_iff.mpr ⟨rfl, Nat.lt_of_not_le hline⟩]
    by_cases hcolumn : Word.limit ≤ top.column + columns
    · rw [Word.add_eq_overflow_iff.mpr hcolumn]
      rfl
    · rw [Word.add_eq_ok_iff.mpr ⟨rfl, Nat.lt_of_not_le hcolumn⟩]
      have hmargin : Word.limit ≤ top.line + lines + margin :=
        (h.resolve_left hline).resolve_left hcolumn
      show (Word.add (top.line + lines) margin >>= _) = _
      rw [Word.add_eq_overflow_iff.mpr hmargin]
      rfl

theorem ofView_of_not_overflows (h : ¬ Overflows top lines columns margin) :
    ofView top lines columns margin = .ok (around top lines columns margin) := by
  have hline : top.line + lines < Word.limit := Nat.lt_of_not_le fun hl => h (Or.inl hl)
  have hcolumn : top.column + columns < Word.limit :=
    Nat.lt_of_not_le fun hl => h (Or.inr (Or.inl hl))
  have hmargin : top.line + lines + margin < Word.limit :=
    Nat.lt_of_not_le fun hl => h (Or.inr (Or.inr hl))
  unfold ofView
  rw [Word.add_eq_ok_iff.mpr ⟨rfl, hline⟩, Word.add_eq_ok_iff.mpr ⟨rfl, hcolumn⟩]
  show (Word.add (top.line + lines) margin >>= _) = _
  rw [Word.add_eq_ok_iff.mpr ⟨rfl, hmargin⟩]
  rfl

theorem ofView_eq_overflow_iff :
    ofView top lines columns margin = .error .overflow ↔ Overflows top lines columns margin := by
  refine ⟨fun h => ?_, ofView_of_overflows⟩
  by_cases hover : Overflows top lines columns margin
  · exact hover
  · rw [ofView_of_not_overflows hover] at h
    cases h

theorem ofView_eq_ok_iff {w : Window} : ofView top lines columns margin = .ok w ↔
    ¬ Overflows top lines columns margin ∧ around top lines columns margin = w := by
  by_cases hover : Overflows top lines columns margin
  · rw [ofView_of_overflows hover]
    refine ⟨fun h => ?_, fun h => absurd hover h.1⟩
    cases h
  · rw [ofView_of_not_overflows hover, Except.ok.injEq]
    exact ⟨fun h => ⟨hover, h⟩, fun h => h.2⟩

theorem contains_around_iff {p : Position} :
    (around top lines columns margin).contains p = true ↔
      (max (top.line - margin) 1 < p.line ∨
        max (top.line - margin) 1 = p.line ∧ top.column ≤ p.column) ∧
      (p.line < top.line + lines + margin ∨
        p.line = top.line + lines + margin ∧ p.column ≤ top.column + columns) :=
  contains_iff

theorem top_around_le_bottom (htop : 1 ≤ top.line) :
    (around top lines columns margin).top ≤ (around top lines columns margin).bottom := by
  show max (top.line - margin) 1 < top.line + lines + margin ∨
    (max (top.line - margin) 1 = top.line + lines + margin ∧ top.column ≤ top.column + columns)
  omega

-- A larger margin moves the top up and the bottom down, and leaves the columns alone.
theorem within_around {less : Nat} (h : less ≤ margin) :
    (around top lines columns less).Within (around top lines columns margin) := by
  constructor
  · show max (top.line - margin) 1 < max (top.line - less) 1 ∨
      (max (top.line - margin) 1 = max (top.line - less) 1 ∧ top.column ≤ top.column)
    omega
  · show top.line + lines + less < top.line + lines + margin ∨
      (top.line + lines + less = top.line + lines + margin ∧
        top.column + columns ≤ top.column + columns)
    omega

theorem Overflows.mono {less : Nat} (hless : less ≤ margin)
    (h : Overflows top lines columns less) : Overflows top lines columns margin := by
  unfold Overflows at h ⊢
  omega

end

/-! ## 3. What the window of a view is good for -/

/-- The window is in order. It holds the screen of a view, the columns of the screen on every line
within the margin, and the lines between its own ends, but no place further from the view than the
margin. Overlapping it is having a place in it. -/
structure Covers (w : Window) (top : Position) (lines columns margin : Nat) : Prop where
  ordered : w.top ≤ w.bottom
  screen : ∀ p : Position, top.line ≤ p.line → p.line < top.line + lines →
    top.column ≤ p.column → p.column < top.column + columns → w.contains p = true
  reaches : ∀ p : Position, 1 ≤ p.line → top.line ≤ p.line + margin →
    p.line ≤ top.line + lines + margin → top.column ≤ p.column → p.column ≤ top.column + columns →
      w.contains p = true
  between : ∀ p : Position, w.top.line < p.line → p.line < w.bottom.line → w.contains p = true
  near : ∀ p : Position, w.contains p = true →
    1 ≤ p.line ∧ top.line ≤ p.line + margin ∧ p.line ≤ top.line + lines + margin
  meets : ∀ first last : Position, first ≤ last →
    (w.overlaps first last = true ↔ ∃ p, first ≤ p ∧ p ≤ last ∧ w.contains p = true)

theorem covers_around {top : Position} (lines columns margin : Nat) (htop : 1 ≤ top.line) :
    (around top lines columns margin).Covers top lines columns margin where
  ordered := top_around_le_bottom htop
  screen := by
    intro p hl hl' hc hc'
    rw [contains_around_iff]
    omega
  reaches := by
    intro p hone hl hl' hc hc'
    rw [contains_around_iff]
    omega
  between := by
    intro p htop hbottom
    rw [contains_iff]
    exact ⟨Or.inl htop, Or.inl hbottom⟩
  near := by
    intro p hp
    rw [contains_around_iff] at hp
    omega
  meets := fun _ _ hspan => overlaps_iff_exists (top_around_le_bottom htop) hspan

/-- **The window of a view.** It is an error exactly if a sum of lines, of columns or of lines and
margin does not fit a word, and this is the only one. Otherwise there is a window, and it covers the
view and its margin. -/
theorem ofView_covers_view (top : Position) (lines columns margin : Nat) (htop : 1 ≤ top.line) :
    (ofView top lines columns margin = .error .overflow ↔
      Nat.pow 2 64 ≤ top.line + lines ∨ Nat.pow 2 64 ≤ top.column + columns ∨
        Nat.pow 2 64 ≤ top.line + lines + margin) ∧
    (ofView top lines columns margin ≠ .error .overflow →
      ∃ w, ofView top lines columns margin = .ok w ∧ w.Covers top lines columns margin) := by
  refine ⟨ofView_eq_overflow_iff, fun h => ⟨around top lines columns margin, ?_, ?_⟩⟩
  · exact ofView_of_not_overflows fun hover => h (ofView_of_overflows hover)
  · exact covers_around lines columns margin htop

/-- A view of one line at the top of a text, with a margin that reaches above the text. -/
theorem ofView_covers_firstLine :
    1 ≤ (⟨1, 3⟩ : Position).line ∧
      Covers ⟨⟨1, 3⟩, ⟨5, 83⟩⟩ ⟨1, 3⟩ 1 80 3 := by
  rcases (ofView_covers_view ⟨1, 3⟩ 1 80 3 (by decide)).2
    (mt ofView_eq_overflow_iff.mp (by decide)) with ⟨w, hw, hcovers⟩
  have heq : w = ⟨⟨1, 3⟩, ⟨5, 83⟩⟩ := (Except.ok.inj hw).symm
  rw [heq] at hcovers
  exact ⟨by decide, hcovers⟩

end Window

end Nesting
