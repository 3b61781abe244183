import Nesting.Paint.Highlight
import Nesting.Proofs.Pairing.Depth

/-!
# The pair around the cursor

The painter takes the first pair of the list that encloses the cursor. That this is the innermost
one is a fact about scans: pairs come in the order of their closers and never cross, so of two pairs
around one place the one that closes first lies inside the other. Beside the background of this pair
only single characters are painted.
-/

namespace Nesting

/-! ## 1. The innermost pair -/

namespace Pair

theorem encloses_iff {p : Pair} {place : Position} :
    p.encloses place = true ↔ p.opener.position ≤ place ∧ place ≤ p.closer.position := by
  unfold encloses
  rw [Bool.and_eq_true, decide_eq_true_eq, decide_eq_true_eq]

theorem not_apart_of_encloses {p q : Pair} {place : Position} (hp : p.encloses place = true)
    (hq : q.encloses place = true) : ¬ p.Apart q := by
  rw [encloses_iff] at hp hq
  rintro (hlt | hlt)
  · exact Position.not_lt.mpr (Position.le_trans hq.1 hp.2) hlt
  · exact Position.not_lt.mpr (Position.le_trans hp.1 hq.2) hlt

theorem Contains.asymm {p q : Pair} (h : p.Contains q) : ¬ q.Contains p := fun h' =>
  Position.lt_irrefl _ (Position.lt_trans h.1 h'.1)

end Pair

/-- Every pair starts before it ends. -/
def InOrder (pairs : List Pair) : Prop :=
  ∀ p ∈ pairs, p.opener.position < p.closer.position

theorem WellPaired.inOrder {g : Grammar} {text : List UInt8} {pairs : List Pair}
    (h : WellPaired g text pairs) : InOrder pairs :=
  fun p hp => (h.wellFormed p hp).opener_lt_closer

/-- The pair encloses the place and lies strictly inside every other pair that does. -/
structure IsInnermost (pairs : List Pair) (place : Position) (p : Pair) : Prop where
  mem : p ∈ pairs
  encloses : p.encloses place = true
  inside : ∀ q ∈ pairs, q.encloses place = true → q ≠ p → q.Contains p

section

variable {g : Grammar} {text : List UInt8} {pairs : List Pair} {place : Position} {p : Pair}

theorem WellPaired.isInnermost_of_find? (h : WellPaired g text pairs)
    (hfind : pairs.find? (·.encloses place) = some p) : IsInnermost pairs place p := by
  obtain ⟨hp, before, after, rfl, hbefore⟩ := List.find?_eq_some_iff_append.mp hfind
  have hmem : p ∈ before ++ p :: after := by simp
  refine ⟨hmem, hp, fun q hq hqp hne => ?_⟩
  -- The pair found is the first, so every other one comes later and closes later.
  have hafter : q ∈ after := by
    rcases List.mem_append.mp hq with hq | hq
    · have hnot := hbefore q hq
      rw [hqp] at hnot
      cases hnot
    · rcases List.mem_cons.mp hq with rfl | hq
      · exact absurd rfl hne
      · exact hq
  have hlater : p.closer.position < q.closer.position := by
    obtain ⟨-, htail, -⟩ := List.pairwise_append.mp h.ordered
    exact (List.pairwise_cons.mp htail).1 q hafter
  rcases h.apart_or_contains hq hmem hne with hapart | hcontains | hcontains
  · exact absurd hapart (Pair.not_apart_of_encloses hqp hp)
  · exact hcontains
  · exact absurd (Position.lt_trans hlater hcontains.2) (Position.lt_irrefl _)

theorem WellPaired.find?_eq_some_iff (h : WellPaired g text pairs) :
    pairs.find? (·.encloses place) = some p ↔ IsInnermost pairs place p := by
  refine ⟨h.isInnermost_of_find?, fun hp => ?_⟩
  cases hfind : pairs.find? (·.encloses place) with
  | none =>
    rw [List.find?_eq_none] at hfind
    exact absurd hp.encloses (hfind p hp.mem)
  | some q =>
    have hq := h.isInnermost_of_find? hfind
    by_cases hne : q = p
    · rw [hne]
    · have hpq := hq.inside p hp.mem hp.encloses (Ne.symm hne)
      exact absurd (hp.inside q hq.mem hq.encloses hne) hpq.asymm

end

/-! ## 2. The ranges around a cursor -/

/-- The ranges over more than one place. A delimiter is painted by itself, so these are the
backgrounds of pairs. -/
def backgrounds (ranges : List Range) : List Range :=
  ranges.filter (fun x => decide (x.first ≠ x.last))

namespace Request

variable {r : Request} {pairs : List Pair}

theorem first_eq_last_of_mem_ends {pair : Pair} {x : Range} (hx : x ∈ r.ends pair) :
    x.first = x.last := by
  unfold ends at hx
  split at hx
  · exact absurd hx List.not_mem_nil
  · obtain ⟨place, -, rfl⟩ := List.mem_map.mp hx
    rfl

theorem ranges_of_cursor (hr : r.mode = .cursor) :
    r.ranges pairs = pairs.reverse.flatMap r.ends ++ r.cursorScope pairs := by
  have hscope : ∀ pair, r.scope pair = [] := by
    intro pair
    unfold scope
    rw [hr]
  unfold ranges
  simp only [hscope, List.append_nil]

theorem backgrounds_flatMap_ends (r : Request) (pairs : List Pair) :
    backgrounds (pairs.flatMap r.ends) = [] := by
  unfold backgrounds
  rw [List.filter_eq_nil_iff]
  intro x hx
  obtain ⟨pair, -, hx⟩ := List.mem_flatMap.mp hx
  simp [first_eq_last_of_mem_ends hx]

theorem cursorPair?_of_cursor (hr : r.mode = .cursor) :
    r.cursorPair? pairs = pairs.find? (·.encloses r.cursor) := by
  unfold cursorPair?
  rw [hr]

theorem mem_of_cursorPair? {p : Pair} (hp : r.cursorPair? pairs = some p) : p ∈ pairs := by
  unfold cursorPair? at hp
  split at hp
  · exact List.mem_of_find?_eq_some hp
  · cases hp

theorem backgrounds_ranges_of_cursor (hr : r.mode = .cursor) :
    backgrounds (r.ranges pairs) = backgrounds (r.cursorScope pairs) := by
  have hends := r.backgrounds_flatMap_ends pairs.reverse
  rw [ranges_of_cursor hr]
  unfold backgrounds at hends ⊢
  rw [List.filter_append, hends, List.nil_append]

end Request

/-- Of the backgrounds only `x` is painted, after everything else, and this if it is shown. -/
structure PaintsLast (ranges : List Range) (shown : Bool) (x : Range) : Prop where
  once : backgrounds ranges = if shown then [x] else []
  last : shown = true → ranges.getLast? = some x

theorem WellPaired.paintsLast {g : Grammar} {text : List UInt8} {pairs : List Pair}
    (h : WellPaired g text pairs) {r : Request} (hr : r.mode = .cursor) {p : Pair}
    (hp : r.cursorPair? pairs = some p) :
    PaintsLast (r.ranges pairs) (r.window.overlaps p.opener.position p.closer.position)
      ⟨p.opener.position, p.closer.position, "default," ++ r.cursorColor⟩ := by
  have hscope : r.cursorScope pairs =
      if r.shows p then [Range.behind p r.cursorColor] else [] := by
    unfold Request.cursorScope
    rw [hp]
  have hmem : p ∈ pairs := by
    rw [Request.cursorPair?_of_cursor hr] at hp
    exact List.mem_of_find?_eq_some hp
  have hne : p.opener.position ≠ p.closer.position := by
    intro heq
    have hlt := (h.wellFormed p hmem).opener_lt_closer
    rw [heq] at hlt
    exact Position.lt_irrefl _ hlt
  constructor
  · rw [Request.backgrounds_ranges_of_cursor hr, hscope]
    change _ = if r.shows p then _ else _
    cases r.shows p with
    | false => rfl
    | true => exact List.filter_cons_of_pos (decide_eq_true hne)
  · intro hshown
    change r.shows p = true at hshown
    rw [Request.ranges_of_cursor hr, hscope, if_pos hshown, List.getLast?_concat]
    rfl

/-- **The pair around the cursor.** In cursor mode the pair chosen is the innermost one around the
cursor, and there is one if any pair encloses the cursor. It is deeper than all the others. Its
background is painted once, as the last range, if it overlaps the window, and nothing but single
characters is painted otherwise. -/
theorem cursor_paints_innermost (g : Grammar) (resolve : Bool) (text : List UInt8) (r : Request)
    (hr : r.mode = .cursor) :
    (∀ p, r.cursorPair? (scan g resolve text) = some p ↔
      IsInnermost (scan g resolve text) r.cursor p) ∧
    ((∃ q ∈ scan g resolve text, q.encloses r.cursor = true) →
      ∃ p, IsInnermost (scan g resolve text) r.cursor p) ∧
    (∀ p, IsInnermost (scan g resolve text) r.cursor p →
      (∀ q ∈ scan g resolve text, q.encloses r.cursor = true → q ≠ p → q.depth < p.depth) ∧
      PaintsLast (r.ranges (scan g resolve text))
        (r.window.overlaps p.opener.position p.closer.position)
        ⟨p.opener.position, p.closer.position, "default," ++ r.cursorColor⟩) ∧
    ((∀ q ∈ scan g resolve text, q.encloses r.cursor = false) →
      backgrounds (r.ranges (scan g resolve text)) = []) := by
  have h : WellPaired g text (scan g resolve text) := wellPaired_matchDelimiters g _ text
  have hchosen : ∀ p, r.cursorPair? (scan g resolve text) = some p ↔
      IsInnermost (scan g resolve text) r.cursor p := by
    intro p
    rw [Request.cursorPair?_of_cursor hr]
    exact h.find?_eq_some_iff
  refine ⟨hchosen, fun hsome => ?_, fun p hp => ⟨?_, h.paintsLast hr ((hchosen p).mpr hp)⟩, ?_⟩
  · obtain ⟨q, hq, henc⟩ := hsome
    cases hfind : (scan g resolve text).find? (·.encloses r.cursor) with
    | none => exact absurd henc (List.find?_eq_none.mp hfind q hq)
    | some p => exact ⟨p, h.isInnermost_of_find? hfind⟩
  · intro q hq henc hne
    exact depth_lt_of_contains hq hp.mem (hp.inside q hq henc hne)
  · intro hnone
    have hscope : r.cursorScope (scan g resolve text) = [] := by
      unfold Request.cursorScope
      rw [Request.cursorPair?_of_cursor hr, List.find?_eq_none.mpr fun q hq => by simp [hnone q hq]]
    rw [Request.backgrounds_ranges_of_cursor hr, hscope]
    rfl

/-- Round brackets around two pairs on two lines. -/
def nestedText : List UInt8 := [0x28, 0x5b, 0x5d, 0x0a, 0x7b, 0x7d, 0x29]

/-- The cursor is on the first closer, where the window starts. -/
def nestedRequest : Request where
  mode := .cursor
  cursor := ⟨1, 3⟩
  window := ⟨⟨1, 3⟩, ⟨2, 1⟩⟩
  palette := ⟨["red"], []⟩
  cursorColor := "blue"

theorem cursor_paints_nestedText :
    nestedRequest.mode = .cursor ∧
      PaintsLast (nestedRequest.ranges (scan .c false nestedText)) true
        ⟨⟨1, 2⟩, ⟨1, 3⟩, "default,blue"⟩ := by
  obtain ⟨hchosen, -, hpaints, -⟩ := cursor_paints_innermost .c false nestedText nestedRequest rfl
  have hp : nestedRequest.cursorPair? (scan .c false nestedText) =
      some ⟨⟨'[', ⟨1, 2⟩, 1⟩, ⟨']', ⟨1, 3⟩, 1⟩⟩ := by decide +kernel
  exact ⟨rfl, (hpaints _ ((hchosen _).mp hp)).2⟩

end Nesting
