import Nesting.Proofs.Pairing.NonCrossing

/-!
# What the depth of a pair counts

A pair is as deep as the number of openers that are live at its own opener, whether a closer
answers them later or not. Depths are never renumbered when openers are given up, and yet a pair
inside another is always the deeper one.
-/

namespace Nesting

namespace IsMatching

variable {t : Bracketing} {n : Nat} {spans : List Span}

-- The opener of a span is live at the opener of every span inside it: what closes before that opener
-- closes before the span does.
theorem mem_liveOpeners_of_encloses (h : IsMatching t n spans) {s e : Span} (hs : s ∈ spans)
    (he : e ∈ spans) (hse : s.Encloses e) : s.opener ∈ t.liveOpeners spans e.opener := by
  rcases h.innermost s hs with ⟨-, k, -, hk⟩
  rcases hse with ⟨hopen, hclose⟩
  have heo := h.opener_lt_closer he
  refine Bracketing.mem_liveOpeners.mpr ⟨⟨k, hk.opens⟩, hopen, fun x hx hcover => ?_⟩
  exact hk.live.2 x hx ⟨hcover.1, hcover.2.1, by omega⟩

theorem length_liveOpeners_lt (h : IsMatching t n spans) {s e : Span} (hs : s ∈ spans)
    (he : e ∈ spans) (hse : s.Encloses e) :
    (t.liveOpeners spans s.opener).length < (t.liveOpeners spans e.opener).length := by
  have hmem := h.mem_liveOpeners_of_encloses hs he hse
  rw [h.liveOpeners_eq_filter hmem, List.length_filter_lt_length_iff_exists]
  exact ⟨s.opener, hmem, by simp⟩

end IsMatching

theorem encloses_of_contains_pair {text : List UInt8} {s e : Span} {d d' : Nat}
    (hs : s.closer < text.length) (he : e.closer < text.length) (heo : e.opener < e.closer)
    (hso : s.opener < s.closer) (h : (s.pair text d).Contains (e.pair text d')) : s.Encloses e :=
  ⟨(placeAt_lt_placeAt_iff (by omega) (by omega)).mp h.1,
    (placeAt_lt_placeAt_iff (by omega) (by omega)).mp h.2⟩

-- A pair inside another is deeper.
theorem depth_lt_of_contains {g : Grammar} {marks : List AngleMark} {text : List UInt8}
    {p q : Pair} (hp : p ∈ matchDelimiters g marks text) (hq : q ∈ matchDelimiters g marks text)
    (hpq : p.Contains q) : p.depth < q.depth := by
  rcases exists_isMatching g marks text with ⟨spans, h, heq⟩
  rw [heq] at hp hq
  rcases List.mem_map.mp hp with ⟨s, hs, rfl⟩
  rcases List.mem_map.mp hq with ⟨e, he, rfl⟩
  have hse := encloses_of_contains_pair (h.innermost s hs).1 (h.innermost e he).1
    (h.opener_lt_closer he) (h.opener_lt_closer hs) hpq
  exact h.length_liveOpeners_lt hs he hse

theorem apart_of_depth_eq {g : Grammar} {marks : List AngleMark} {text : List UInt8}
    {p q : Pair} (hp : p ∈ matchDelimiters g marks text) (hq : q ∈ matchDelimiters g marks text)
    (hne : p ≠ q) (hdepth : p.depth = q.depth) : p.Apart q := by
  rcases (wellPaired_matchDelimiters g marks text).apart_or_contains hp hq hne with ha | hc | hc
  · exact ha
  · have hlt := depth_lt_of_contains hp hq hc
    omega
  · have hlt := depth_lt_of_contains hq hp hc
    omega

/-- **Depth.** Every pair of a text is as deep as the number of openers before its own that are
live there. So a pair strictly inside another is strictly deeper, and different pairs of one depth
lie apart. -/
theorem depth_counts_live_openers (g : Grammar) (marks : List AngleMark) (text : List UInt8) :
    (∃ spans : List Span, (∀ e ∈ spans, e.opener < e.closer ∧ e.closer < text.length) ∧
      matchDelimiters g marks text = spans.map (fun e => e.pair text
        ((delimiters g (AngleMark.speaksFor marks) text).liveOpeners spans e.opener).length)) ∧
    (∀ p ∈ matchDelimiters g marks text, ∀ q ∈ matchDelimiters g marks text,
      p.Contains q → p.depth < q.depth) ∧
    (∀ p ∈ matchDelimiters g marks text, ∀ q ∈ matchDelimiters g marks text,
      p ≠ q → p.depth = q.depth → p.Apart q) := by
  rcases exists_isMatching g marks text with ⟨spans, h, heq⟩
  refine ⟨⟨spans, fun e he => ?_, heq⟩, fun p hp q hq => depth_lt_of_contains hp hq,
    fun p hp q hq => apart_of_depth_eq hp hq⟩
  exact ⟨h.opener_lt_closer he, (h.innermost e he).1⟩

end Nesting
