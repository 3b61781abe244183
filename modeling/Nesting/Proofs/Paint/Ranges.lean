import Mathlib.Data.List.Flatten
import Mathlib.Data.List.Nodup
import Nesting.Proofs.Paint.Cursor

/-!
# Every range and its place in the order

What is painted for the pairs of a scan: one character for each end in the window, and in scope mode
one background for each pair that overlaps the window. That no place is painted twice by itself and
that an outer background comes before the inner ones is not the painter's doing: the pairs of a scan
share no byte and come in the order of their closers, which the painter reverses.
-/

namespace Nesting

/-! ## 1. Single characters and backgrounds -/

/-- The ranges over a single place. -/
def singles (ranges : List Range) : List Range :=
  ranges.filter (fun x => decide (x.first = x.last))

/-- The range goes from one end of the pair to the other. -/
def Range.Spans (x : Range) (p : Pair) : Prop :=
  x.first = p.opener.position ∧ x.last = p.closer.position

theorem Range.Spans.first_ne_last {x : Range} {p : Pair} (hx : x.Spans p)
    (hp : p.opener.position < p.closer.position) : x.first ≠ x.last := by
  intro heq
  rw [← hx.1, ← hx.2, heq] at hp
  exact Position.lt_irrefl _ hp

theorem Range.spans_of_mem {x : Range} {p : Pair} {color : String} {shown : Bool}
    (hx : x ∈ if shown then [Range.behind p color] else []) : x.Spans p := by
  cases shown with
  | false => cases hx
  | true =>
    rw [List.mem_singleton.mp hx]
    exact ⟨rfl, rfl⟩

namespace Request

variable {r : Request} {pairs : List Pair} {x : Range}

theorem spans_of_mem_scope {p : Pair} (hx : x ∈ r.scope p) : x.Spans p := by
  unfold scope at hx
  split at hx
  · exact Range.spans_of_mem hx
  · cases hx

theorem exists_spans_of_mem_cursorScope (hx : x ∈ r.cursorScope pairs) :
    ∃ p ∈ pairs, x.Spans p := by
  unfold cursorScope at hx
  split at hx
  · rename_i p hp
    exact ⟨p, mem_of_cursorPair? hp, Range.spans_of_mem hx⟩
  · cases hx

theorem filter_ranges (r : Request) (pairs : List Pair) (f : Range → Bool) :
    (r.ranges pairs).filter f =
      pairs.reverse.flatMap (fun p => (r.ends p).filter f ++ (r.scope p).filter f) ++
        (r.cursorScope pairs).filter f := by
  unfold ranges
  simp only [List.filter_append, List.filter_flatMap]

theorem singles_ranges (hpairs : InOrder pairs) :
    singles (r.ranges pairs) = pairs.reverse.flatMap r.ends := by
  have hcursor : singles (r.cursorScope pairs) = [] := by
    apply List.filter_eq_nil_iff.mpr
    intro x hx
    rcases exists_spans_of_mem_cursorScope hx with ⟨p, hp, hspans⟩
    simpa using hspans.first_ne_last (hpairs p hp)
  have hpair : ∀ p ∈ pairs.reverse, singles (r.ends p) ++ singles (r.scope p) = r.ends p := by
    intro p hp
    have hlt := hpairs p (List.mem_reverse.mp hp)
    have hends : singles (r.ends p) = r.ends p :=
      List.filter_eq_self.mpr fun x hx => decide_eq_true (first_eq_last_of_mem_ends hx)
    have hscope : singles (r.scope p) = [] :=
      List.filter_eq_nil_iff.mpr fun x hx => by
        simpa using (spans_of_mem_scope hx).first_ne_last hlt
    rw [hends, hscope, List.append_nil]
  calc singles (r.ranges pairs)
      = pairs.reverse.flatMap (fun p => singles (r.ends p) ++ singles (r.scope p)) ++
          singles (r.cursorScope pairs) := r.filter_ranges pairs _
    _ = pairs.reverse.flatMap r.ends := by
        rw [hcursor, List.append_nil, List.flatMap_congr hpair]

theorem backgrounds_ranges_of_scopes (hr : r.mode = .scopes) (hpairs : InOrder pairs) :
    backgrounds (r.ranges pairs) = pairs.reverse.flatMap r.scope := by
  have hcursor : r.cursorScope pairs = [] := by
    unfold cursorScope cursorPair?
    rw [hr]
  have hpair : ∀ p ∈ pairs.reverse,
      backgrounds (r.ends p) ++ backgrounds (r.scope p) = r.scope p := by
    intro p hp
    have hlt := hpairs p (List.mem_reverse.mp hp)
    have hends : backgrounds (r.ends p) = [] :=
      List.filter_eq_nil_iff.mpr fun x hx => by simpa using first_eq_last_of_mem_ends hx
    have hscope : backgrounds (r.scope p) = r.scope p :=
      List.filter_eq_self.mpr fun x hx =>
        decide_eq_true ((spans_of_mem_scope hx).first_ne_last hlt)
    rw [hends, hscope, List.nil_append]
  calc backgrounds (r.ranges pairs)
      = pairs.reverse.flatMap (fun p => backgrounds (r.ends p) ++ backgrounds (r.scope p)) ++
          backgrounds (r.cursorScope pairs) := r.filter_ranges pairs _
    _ = pairs.reverse.flatMap r.scope := by
        rw [hcursor, List.flatMap_congr hpair]
        exact List.append_nil _

end Request

section

variable {g : Grammar} {text : List UInt8} {pairs : List Pair} {r : Request}

/-! ## 2. The ends of pairs -/

/-- The ends of the pairs that lie in a window, each with the depth of its pair. -/
def endsIn (w : Window) (pairs : List Pair) : List (Position × Nat) :=
  (pairs.flatMap fun p => p.ends.map fun place => (place, p.depth)).filter fun e => w.contains e.1

/-- One range for each end in the window, in the foreground color of its depth when the colors
repeat. Without foreground colors there are none. -/
def Request.endRanges (r : Request) (pairs : List Pair) : List Range :=
  (endsIn r.window pairs).filterMap fun e =>
    (r.palette.foreground[e.2 % r.palette.foreground.length]?).map fun color => ⟨e.1, e.1, color⟩

/-- The single characters are the ends of the pairs in the window, one for one, and no place has two
of them. -/
structure PaintsEnds (r : Request) (pairs : List Pair) (ranges : List Range) : Prop where
  perm : (singles ranges).Perm (r.endRanges pairs)
  separate : ((singles ranges).map Range.first).Nodup

theorem Request.flatMap_ends (r : Request) (pairs : List Pair) :
    pairs.flatMap r.ends = r.endRanges pairs := by
  unfold endRanges endsIn
  rw [List.filter_flatMap, List.filterMap_flatMap]
  apply List.flatMap_congr
  intro p _
  rw [List.filter_map, List.filterMap_map]
  unfold Request.ends Palette.foregroundAt Palette.cycle
  cases h : r.palette.foreground[p.depth % r.palette.foreground.length]? with
  | none => simp only [Function.comp_apply, h, Option.map_none, List.filterMap_none]
  | some color =>
    simp only [Function.comp_apply, h, Option.map_some, List.filterMap_eq_map']
    rfl

theorem Request.map_first_ends_sublist (r : Request) (p : Pair) :
    ((r.ends p).map Range.first).Sublist p.ends := by
  unfold Request.ends
  split
  · exact List.nil_sublist _
  · rw [List.map_map]
    show (List.map id _).Sublist _
    rw [List.map_id]
    exact List.filter_sublist

theorem WellPaired.nodup_ends (h : WellPaired g text pairs) :
    (pairs.flatMap Pair.ends).Nodup := by
  rw [List.nodup_flatMap]
  refine ⟨fun p hp => ?_, h.separate⟩
  have hne : p.opener.position ≠ p.closer.position := by
    intro heq
    have hlt := h.inOrder p hp
    rw [heq] at hlt
    exact Position.lt_irrefl _ hlt
  exact List.nodup_cons.mpr ⟨fun hmem => hne (List.mem_singleton.mp hmem), List.nodup_singleton _⟩

theorem WellPaired.paintsEnds (h : WellPaired g text pairs) (r : Request) :
    PaintsEnds r pairs (r.ranges pairs) := by
  have hperm : (singles (r.ranges pairs)).Perm (pairs.flatMap r.ends) := by
    rw [Request.singles_ranges h.inOrder]
    exact (List.reverse_perm pairs).flatMap_right _
  constructor
  · rw [← r.flatMap_ends]
    exact hperm
  · have hsub : ((pairs.flatMap r.ends).map Range.first).Sublist (pairs.flatMap Pair.ends) := by
      rw [List.map_flatMap]
      exact List.Sublist.flatMap_right _ fun p _ => r.map_first_ends_sublist p
    rw [(hperm.map Range.first).nodup_iff]
    exact h.nodup_ends.sublist hsub

/-! ## 3. The backgrounds of pairs -/

/-- One range for each pair that overlaps the window, in the background color of its depth when the
colors repeat. Without background colors there are none. -/
def Request.scopeRanges (r : Request) (pairs : List Pair) : List Range :=
  (pairs.filter fun p => r.window.overlaps p.opener.position p.closer.position).filterMap fun p =>
    (r.palette.background[p.depth % r.palette.background.length]?).map fun color =>
      ⟨p.opener.position, p.closer.position, "default," ++ color⟩

/-- The backgrounds are the pairs that overlap the window, one for one, and that of an outer pair
comes before that of an inner one. -/
structure PaintsScopes (r : Request) (pairs : List Pair) (ranges : List Range) : Prop where
  perm : (backgrounds ranges).Perm (r.scopeRanges pairs)
  outer_first : ∀ p ∈ pairs, ∀ q ∈ pairs, p.Contains q → ∀ (i j : Nat) (x y : Range),
    ranges[i]? = some x → ranges[j]? = some y → x.Spans p → y.Spans q → i < j

theorem Request.flatMap_scope (hr : r.mode = .scopes) (pairs : List Pair) :
    pairs.flatMap r.scope = r.scopeRanges pairs := by
  unfold scopeRanges
  rw [List.filterMap_filter, List.filterMap_eq_flatMap_toList]
  apply List.flatMap_congr
  intro p _
  unfold Request.scope Palette.backgroundAt Palette.cycle
  rw [hr]
  cases r.palette.background[p.depth % r.palette.background.length]? with
  | none => simp
  | some color =>
    change (if r.shows p then _ else _) = Option.toList (if r.shows p = true then _ else _)
    cases r.shows p with
    | true => rfl
    | false => rfl

-- Backgrounds come in the order of the closers, the last closer first.
theorem WellPaired.pairwise_backgrounds (h : WellPaired g text pairs) (hr : r.mode = .scopes) :
    (backgrounds (r.ranges pairs)).Pairwise (fun x y => y.last < x.last) := by
  rw [Request.backgrounds_ranges_of_scopes hr h.inOrder, List.pairwise_flatMap,
    List.pairwise_reverse]
  refine ⟨fun p _ => ?_, h.ordered.imp fun {p q} hlt x hx y hy => ?_⟩
  · unfold Request.scope
    split
    · split
      · exact List.pairwise_singleton _ _
      · exact List.Pairwise.nil
    · exact List.Pairwise.nil
  · rw [(Request.spans_of_mem_scope hx).2, (Request.spans_of_mem_scope hy).2]
    exact hlt

-- Of two backgrounds the later one has the earlier closer.
theorem WellPaired.last_lt_last (h : WellPaired g text pairs) (hr : r.mode = .scopes) {i j : Nat}
    {x y : Range} (hij : i < j) (hi : (r.ranges pairs)[i]? = some x)
    (hj : (r.ranges pairs)[j]? = some y) (hx : x.first ≠ x.last) (hy : y.first ≠ y.last) :
    y.last < x.last := by
  have hpairwise := h.pairwise_backgrounds hr
  unfold backgrounds at hpairwise
  rw [List.pairwise_filter, List.pairwise_iff_getElem] at hpairwise
  rcases List.getElem?_eq_some_iff.mp hi with ⟨hilt, rfl⟩
  rcases List.getElem?_eq_some_iff.mp hj with ⟨hjlt, rfl⟩
  exact hpairwise i j hilt hjlt hij (decide_eq_true hx) (decide_eq_true hy)

theorem WellPaired.outer_first (h : WellPaired g text pairs) (hr : r.mode = .scopes) {p q : Pair}
    (hp : p ∈ pairs) (hq : q ∈ pairs) (hpq : p.Contains q) {i j : Nat} {x y : Range}
    (hi : (r.ranges pairs)[i]? = some x) (hj : (r.ranges pairs)[j]? = some y) (hx : x.Spans p)
    (hy : y.Spans q) : i < j := by
  rcases Nat.lt_trichotomy i j with hlt | heq | hgt
  · exact hlt
  · -- One range does not span two pairs of which one lies strictly inside the other.
    rw [heq, hj] at hi
    have hopen := hpq.1
    rw [← hx.1, ← hy.1, Option.some.inj hi] at hopen
    exact absurd hopen (Position.lt_irrefl _)
  · have hlast := h.last_lt_last hr hgt hj hi (hy.first_ne_last (h.inOrder q hq))
      (hx.first_ne_last (h.inOrder p hp))
    rw [hx.2, hy.2] at hlast
    exact absurd (Position.lt_trans hlast hpq.2) (Position.lt_irrefl _)

theorem WellPaired.paintsScopes (h : WellPaired g text pairs) (hr : r.mode = .scopes) :
    PaintsScopes r pairs (r.ranges pairs) where
  perm := by
    rw [Request.backgrounds_ranges_of_scopes hr h.inOrder, ← Request.flatMap_scope hr]
    exact (List.reverse_perm pairs).flatMap_right _
  outer_first := fun _ hp _ hq hpq _ _ _ _ hi hj hx hy => h.outer_first hr hp hq hpq hi hj hx hy

end

/-- **The ranges of a scan.** Whatever is asked for, the single characters are the ends in the
window, each painted once. In scope mode the backgrounds are the pairs that overlap the window, each
painted once, and an outer one before those inside it. -/
theorem ranges_paint_ends_and_scopes (g : Grammar) (resolve : Bool) (text : List UInt8)
    (r : Request) :
    PaintsEnds r (scan g resolve text) (r.ranges (scan g resolve text)) ∧
      (r.mode = .scopes →
        PaintsScopes r (scan g resolve text) (r.ranges (scan g resolve text))) := by
  have h : WellPaired g text (scan g resolve text) := wellPaired_matchDelimiters g _ text
  exact ⟨h.paintsEnds r, h.paintsScopes⟩

/-- Scopes of `nestedText` with the braces of its second line out of sight. -/
def scopeRequest : Request where
  mode := .scopes
  cursor := ⟨1, 1⟩
  window := ⟨⟨1, 2⟩, ⟨1, 3⟩⟩
  palette := ⟨["red", "green"], ["black"]⟩
  cursorColor := "blue"

theorem ranges_paint_nestedText :
    scopeRequest.mode = .scopes ∧
      PaintsScopes scopeRequest (scan .c false nestedText)
        [⟨⟨1, 1⟩, ⟨2, 3⟩, "default,black"⟩, ⟨⟨1, 2⟩, ⟨1, 2⟩, "green"⟩, ⟨⟨1, 3⟩, ⟨1, 3⟩, "green"⟩,
          ⟨⟨1, 2⟩, ⟨1, 3⟩, "default,black"⟩] := by
  have hranges : scopeRequest.ranges (scan .c false nestedText) =
      [⟨⟨1, 1⟩, ⟨2, 3⟩, "default,black"⟩, ⟨⟨1, 2⟩, ⟨1, 2⟩, "green"⟩, ⟨⟨1, 3⟩, ⟨1, 3⟩, "green"⟩,
        ⟨⟨1, 2⟩, ⟨1, 3⟩, "default,black"⟩] := by decide +kernel
  rw [← hranges]
  exact ⟨rfl, (ranges_paint_ends_and_scopes .c false nestedText scopeRequest).2 rfl⟩

end Nesting
