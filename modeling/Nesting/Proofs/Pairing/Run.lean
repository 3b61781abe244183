import Nesting.Pairing.Match
import Nesting.Proofs.Pairing.Growth
import Nesting.Proofs.Pending

/-!
# The run of the matcher

The matcher keeps the openers that wait and the pairs found so far. `Follows` says what both are in
terms of a matching: the openers that wait are exactly the live ones, each as deep as its place
among them, and the pairs found are the spans of the matching. Every step keeps this, so the run
over a text ends with the matching of its delimiters.
-/

namespace Nesting

/-! ## 1. Spans of a text -/

/-- The delimiter at an offset of a text, with a given depth. -/
def delimiterOf (text : List UInt8) (i depth : Nat) : Delimiter :=
  .ofByte (text.getD i 0) (placeAt text i) depth

/-- The pair at a span of a text, with a given depth. -/
def Span.pair (text : List UInt8) (s : Span) (depth : Nat) : Pair :=
  ⟨delimiterOf text s.opener depth, delimiterOf text s.closer depth⟩

section

variable {t : Bracketing} {text : List UInt8}

theorem character_delimiterOf (ht : t.Reads text) {i : Nat} {k : Bracket} {side : Side}
    (hi : t i = some (k, side)) (depth : Nat) :
    (delimiterOf text i depth).character = k.character side := by
  change Byte.toChar (text.getD i 0) = _
  rw [List.getD_eq_getElem?_getD, ht hi, Option.getD_some, Bracket.toChar_byte]

theorem delimiter_siteOf (ht : t.Reads text) {i : Nat} {k : Bracket} {side : Side}
    (hi : t i = some (k, side)) (depth : Nat) :
    (siteOf text (i, k, side)).delimiter depth = delimiterOf text i depth := by
  have hc := character_delimiterOf ht hi depth
  unfold siteOf Site.delimiter
  rw [← hc]
  rfl

theorem opener?_character_delimiterOf (ht : t.Reads text) {i : Nat} {k : Bracket}
    (hi : t i = some (k, .closing)) (depth : Nat) :
    Bracket.opener? (delimiterOf text i depth).character = some (k.character .opening) := by
  rw [character_delimiterOf ht hi, Bracket.opener?, Bracket.read?_character]

end

namespace Matching

theorem step_of_close?_eq_none {s : Matching} {x : Site} (hx : x.side = .closing)
    (h : s.pending.close? (x.delimiter s.pending.depth) = none) : s.step x = s := by
  unfold step
  rw [hx]
  simp only [h]

theorem step_of_close?_eq_some {s : Matching} {x : Site} {pair : Pair} {rest : Pending}
    (hx : x.side = .closing)
    (h : s.pending.close? (x.delimiter s.pending.depth) = some (pair, rest)) :
    s.step x = ⟨rest, pair :: s.found⟩ := by
  unfold step
  rw [hx]
  simp only [h]

end Matching

/-! ## 2. The invariant -/

/-- The matcher after the brackets before `n`. -/
structure Follows (t : Bracketing) (text : List UInt8) (n : Nat) (s : Matching)
    (spans : List Span) : Prop where
  matching : IsMatching t n spans
  pending : s.pending.toList =
    (t.liveOpeners spans n).mapIdx (fun depth o => delimiterOf text o depth)
  found : s.found.reverse =
    spans.map (fun e => e.pair text (t.liveOpeners spans e.opener).length)

namespace Follows

variable {t : Bracketing} {text : List UInt8} {n : Nat} {s : Matching} {spans : List Span}

theorem initial (t : Bracketing) (text : List UInt8) : Follows t text 0 .initial [] where
  matching := .nil t
  pending := rfl
  found := rfl

theorem depth_pending (h : Follows t text n s spans) :
    s.pending.depth = (t.liveOpeners spans n).length := by
  have hlen := congrArg List.length h.pending
  rw [List.length_mapIdx] at hlen
  rw [← hlen]
  exact List.length_reverse.symm

theorem skip (h : Follows t text n s spans) (hn : t n = none) :
    Follows t text (n + 1) s spans where
  matching := h.matching.skip (fun k hk => by rw [hn] at hk; cases hk)
  pending := by
    rw [h.matching.liveOpeners_succ_of_not_opens (fun k hk => by rw [hn] at hk; cases hk)]
    exact h.pending
  found := h.found

theorem opening (ht : t.Reads text) (h : Follows t text n s spans) {k : Bracket}
    (hn : t n = some (k, .opening)) :
    Follows t text (n + 1) (s.step (siteOf text (n, k, .opening))) spans where
  matching := h.matching.skip (fun k' hk' => by rw [hn] at hk'; cases hk')
  pending := by
    change (s.pending.push ((siteOf text (n, k, .opening)).delimiter s.pending.depth)).toList = _
    rw [Pending.toList_push, h.pending, h.matching.liveOpeners_succ_of_opens hn,
      List.mapIdx_concat, delimiter_siteOf ht hn, h.depth_pending]
  found := h.found

-- A live opener of another kind has another character.
theorem character_ne (ht : t.Reads text) {k : Bracket} {o : Nat}
    (ho : o ∈ t.liveOpeners spans n) (hk : t o ≠ some (k, .opening)) (depth : Nat) :
    (delimiterOf text o depth).character ≠ k.character .opening := by
  rcases Bracketing.mem_liveOpeners.mp ho with ⟨⟨k', hk'⟩, -⟩
  rw [character_delimiterOf ht hk']
  intro hc
  have hread := congrArg Bracket.read? hc
  rw [Bracket.read?_character, Bracket.read?_character] at hread
  cases hread
  exact hk hk'

theorem close?_unanswered (ht : t.Reads text) (h : Follows t text n s spans) {k : Bracket}
    (hn : t n = some (k, .closing))
    (hnone : ∀ o ∈ t.liveOpeners spans n, t o ≠ some (k, .opening)) :
    s.pending.close? ((siteOf text (n, k, .closing)).delimiter s.pending.depth) = none := by
  rw [delimiter_siteOf ht hn]
  apply Pending.close?_eq_none (opener?_character_delimiterOf ht hn _)
  intro e he
  rw [h.pending, List.mem_mapIdx] at he
  rcases he with ⟨i, hi, rfl⟩
  have hmem := List.getElem_mem hi
  exact character_ne ht hmem (hnone _ hmem) i

theorem unanswered (ht : t.Reads text) (h : Follows t text n s spans) {k : Bracket}
    (hn : t n = some (k, .closing))
    (hnone : ∀ o ∈ t.liveOpeners spans n, t o ≠ some (k, .opening)) :
    Follows t text (n + 1) (s.step (siteOf text (n, k, .closing))) spans := by
  rw [Matching.step_of_close?_eq_none rfl (h.close?_unanswered ht hn hnone)]
  refine ⟨h.matching.skip (fun k' hk' => ?_), ?_, h.found⟩
  · rw [hn] at hk'
    cases hk'
    exact hnone
  · rw [h.matching.liveOpeners_succ_of_not_opens (fun k' hk' => by rw [hn] at hk'; cases hk')]
    exact h.pending

section

variable {k : Bracket} {o : Nat} {below above : List Nat}

-- The closer takes the last live opener of its kind. The openers that wait split where the live
-- ones do, so that opener is as deep as the number of live ones below it.
theorem close?_answered (ht : t.Reads text) (h : Follows t text n s spans)
    (hn : t n = some (k, .closing)) (hlive : t.liveOpeners spans n = below ++ o :: above)
    (ho : t o = some (k, .opening)) (habove : ∀ j ∈ above, t j ≠ some (k, .opening)) :
    s.pending.close? ((siteOf text (n, k, .closing)).delimiter s.pending.depth) =
      some (Span.pair text ⟨o, n⟩ below.length,
        ⟨(below.mapIdx (fun depth j => delimiterOf text j depth)).reverse⟩) := by
  have hsplit : s.pending.toList =
      below.mapIdx (fun depth j => delimiterOf text j depth) ++ delimiterOf text o below.length ::
        above.mapIdx (fun i j => delimiterOf text j (i + 1 + below.length)) := by
    rw [h.pending, hlive, List.mapIdx_append, List.mapIdx_cons, Nat.zero_add]
  rw [delimiter_siteOf ht hn]
  apply Pending.close?_eq_some hsplit
  · rw [opener?_character_delimiterOf ht hn, character_delimiterOf ht ho]
  · intro e he
    rw [List.mem_mapIdx] at he
    rcases he with ⟨i, hi, rfl⟩
    have hmem : above[i] ∈ t.liveOpeners spans n := by
      rw [hlive]
      exact List.mem_append_right _ (List.mem_cons_of_mem o (List.getElem_mem hi))
    rw [character_delimiterOf ht ho]
    exact character_ne ht hmem (habove _ (List.getElem_mem hi)) _

-- The pairs found before keep their depths, which count openers live at earlier offsets.
theorem found_concat (h : Follows t text n s spans) (o : Nat) :
    s.found.reverse =
      spans.map (fun e => e.pair text (t.liveOpeners (spans ++ [⟨o, n⟩]) e.opener).length) := by
  rw [h.found]
  apply List.map_congr_left
  intro e he
  have hlt := h.matching.opener_lt_closer he
  have hcl := (h.matching.innermost e he).1
  have hopener : e.opener ≤ n := by omega
  rw [t.liveOpeners_concat_of_le hopener]

theorem answered (ht : t.Reads text) (h : Follows t text n s spans)
    (hn : t n = some (k, .closing)) (hlive : t.liveOpeners spans n = below ++ o :: above)
    (ho : t o = some (k, .opening)) (habove : ∀ j ∈ above, t j ≠ some (k, .opening)) :
    Follows t text (n + 1) (s.step (siteOf text (n, k, .closing))) (spans ++ [⟨o, n⟩]) := by
  have hlast := IsLastLive.of_liveOpeners_eq hlive ho habove
  have hbelow := Bracketing.filter_lt_liveOpeners hlive
  have hdepth : (t.liveOpeners (spans ++ [⟨o, n⟩]) o).length = below.length := by
    have hmem := Bracketing.mem_liveOpeners.mpr ⟨⟨k, ho⟩, hlast.live⟩
    rw [t.liveOpeners_concat_of_le (Nat.le_of_lt hlast.live.1),
      h.matching.liveOpeners_eq_filter hmem, hbelow]
  rw [Matching.step_of_close?_eq_some rfl (h.close?_answered ht hn hlive ho habove)]
  refine ⟨h.matching.answer hn hlast, ?_, ?_⟩
  · rw [h.matching.liveOpeners_succ_of_answer hn hlast, hbelow]
    exact List.reverse_reverse _
  · rw [List.reverse_cons, h.found_concat o, List.map_append, List.map_singleton, hdepth]

end

/-! ## 3. Steps and runs -/

/-- One step of the matcher keeps the invariant. -/
theorem step (ht : t.Reads text) (h : Follows t text n s spans) {b : Bracket × Side}
    (hn : t n = some b) :
    ∃ spans', Follows t text (n + 1) (s.step (siteOf text (n, b))) spans' := by
  rcases b with ⟨k, side⟩
  cases side with
  | opening => exact ⟨spans, h.opening ht hn⟩
  | closing =>
    -- The live openers hold none of this kind, or split at the last one that is.
    rcases exists_last_or_forall_not (fun o => t o = some (k, .opening))
      (t.liveOpeners spans n) with hnone | ⟨below, o, above, hlive, ho, habove⟩
    · exact ⟨spans, h.unanswered ht hn hnone⟩
    · exact ⟨spans ++ [⟨o, n⟩], h.answered ht hn hlive ho habove⟩

/-- The run over the brackets before `n` ends with their matching. -/
theorem run (ht : t.Reads text) (n : Nat) :
    ∃ spans, Follows t text n (Matching.run ((t.entries n).map (siteOf text))) spans := by
  induction n with
  | zero => exact ⟨[], initial t text⟩
  | succ n ih =>
    rcases ih with ⟨spans, h⟩
    rw [Bracketing.entries_succ, List.map_append, Matching.run_append]
    cases hn : t n with
    | none => exact ⟨spans, h.skip hn⟩
    | some b => exact h.step ht hn

end Follows

/-! ## 4. The pairs of a text -/

theorem Bracketing.exists_isMatching {t : Bracketing} {text : List UInt8} (ht : t.Reads text)
    (n : Nat) : ∃ spans, IsMatching t n spans ∧ pairUp ((t.entries n).map (siteOf text)) =
      spans.map (fun e => e.pair text (t.liveOpeners spans e.opener).length) := by
  rcases Follows.run ht n with ⟨spans, h⟩
  exact ⟨spans, h.matching, h.found⟩

/-- The pairs of a text are the spans of the matching of its delimiters, each as deep as the
number of openers that are live at its opener. -/
theorem exists_isMatching (g : Grammar) (marks : List AngleMark) (text : List UInt8) :
    ∃ spans, IsMatching (delimiters g (AngleMark.speaksFor marks) text) text.length spans ∧
      matchDelimiters g marks text = spans.map (fun e => e.pair text
        ((delimiters g (AngleMark.speaksFor marks) text).liveOpeners spans e.opener).length) := by
  unfold matchDelimiters
  rw [sites_eq_map_entries]
  exact Bracketing.exists_isMatching (reads_delimiters g (AngleMark.speaksFor marks) text) _

/-- **Matching.** The pairs of a text are, in order, those at the spans of a matching of its
delimiters, and the delimiters have no other matching: each closer is paired with the last opener
of its kind that is live there, and a closer without such an opener is not paired. -/
theorem matchDelimiters_matching_unique (g : Grammar) (marks : List AngleMark) (text : List UInt8) :
    ∃ (spans : List Span) (depth : Span → Nat),
      matchDelimiters g marks text = spans.map (fun e => e.pair text (depth e)) ∧
        ∀ other, IsMatching (delimiters g (AngleMark.speaksFor marks) text) text.length other ↔
          other = spans := by
  rcases exists_isMatching g marks text with ⟨spans, h, heq⟩
  refine ⟨spans, _, heq, fun other => ⟨fun hother => hother.unique h, fun hother => ?_⟩⟩
  subst hother
  exact h

end Nesting
