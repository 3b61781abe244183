import Nesting.Proofs.Pairing.Span

/-!
# Matchings one offset further

How a matching of the brackets before `n` becomes one of the brackets before `n + 1`, and what
happens to the live openers on the way: an opener joins them, an answered closer takes away its own
opener with all that follow it, and nothing else changes them.
-/

namespace Nesting

namespace IsMatching

variable {t : Bracketing} {n : Nat} {spans : List Span}

/-! ## 1. The matching -/

theorem nil (t : Bracketing) : IsMatching t 0 [] where
  ordered := List.Pairwise.nil
  innermost := fun _ hs => absurd hs List.not_mem_nil
  answered := fun c _ _ hc => absurd hc (Nat.not_lt_zero c)

-- An offset at which no closer finds a live opener of its kind changes nothing.
theorem skip (h : IsMatching t n spans)
    (hskip : ∀ k, t n = some (k, .closing) → ∀ o ∈ t.liveOpeners spans n, t o ≠ some (k, .opening)) :
    IsMatching t (n + 1) spans where
  ordered := h.ordered
  innermost := by
    intro s hs
    rcases h.innermost s hs with ⟨hn, hk⟩
    exact ⟨by omega, hk⟩
  answered := by
    intro c k o hc hclose hopen hlive
    by_cases hcn : c = n
    · rw [hcn] at hclose hlive
      have hmem := Bracketing.mem_liveOpeners.mpr ⟨⟨k, hopen⟩, hlive⟩
      exact absurd hopen (hskip k hclose o hmem)
    · exact h.answered c k o (by omega) hclose hopen hlive

-- A closer that finds a live opener of its kind adds the span to the last one.
theorem answer (h : IsMatching t n spans) {k : Bracket} {o : Nat}
    (hclose : t n = some (k, .closing)) (hlast : IsLastLive t spans k o n) :
    IsMatching t (n + 1) (spans ++ [⟨o, n⟩]) where
  ordered := by
    rw [List.pairwise_append]
    refine ⟨h.ordered, List.pairwise_singleton _ _, fun s hs e he => ?_⟩
    rw [List.mem_singleton.mp he]
    exact (h.innermost s hs).1
  innermost := by
    -- The new span closes at `n`, so it decides nothing about what is live at `n` or before.
    have hlive : ∀ {c}, c ≤ n → ∀ o', Live (spans ++ [⟨o, n⟩]) o' c ↔ Live spans o' c :=
      fun hc o' => live_concat_iff_of_le hc o'
    have hkeep : ∀ {k' o' c}, c ≤ n → IsLastLive t spans k' o' c →
        IsLastLive t (spans ++ [⟨o, n⟩]) k' o' c := fun hc hk =>
      ⟨hk.opens, (hlive hc _).mpr hk.live, fun x hx hxl => hk.last x hx ((hlive hc x).mp hxl)⟩
    intro s hs
    rcases List.mem_append.mp hs with hs | hs
    · rcases h.innermost s hs with ⟨hn, k', hclose', hk'⟩
      exact ⟨by omega, k', hclose', hkeep (by omega) hk'⟩
    · rw [List.mem_singleton.mp hs]
      exact ⟨Nat.lt_succ_self n, k, hclose, hkeep (Nat.le_refl n) hlast⟩
  answered := by
    intro c k' o' hc hclose' hopen hlive
    by_cases hcn : c = n
    · exact ⟨⟨o, n⟩, by simp, hcn.symm⟩
    · have hle : c ≤ n := by omega
      rw [live_concat_iff_of_le hle] at hlive
      rcases h.answered c k' o' (by omega) hclose' hopen hlive with ⟨s, hs, hsc⟩
      exact ⟨s, List.mem_append_left _ hs, hsc⟩

/-! ## 2. The live openers -/

theorem live_succ_iff (h : IsMatching t n spans) {o : Nat} (ho : o < n) :
    Live spans o (n + 1) ↔ Live spans o n := by
  refine ⟨fun hl => ⟨ho, fun s hs hcover => ?_⟩, fun hl => ⟨by omega, fun s hs hcover => ?_⟩⟩
  · exact hl.2 s hs ⟨hcover.1, hcover.2.1, by omega⟩
  · exact hl.2 s hs ⟨hcover.1, hcover.2.1, (h.innermost s hs).1⟩

theorem live_self_succ (h : IsMatching t n spans) : Live spans n (n + 1) := by
  refine ⟨Nat.lt_succ_self n, fun s hs hcover => ?_⟩
  have hn := (h.innermost s hs).1
  omega

-- One offset further, only an opener found there can join the live ones.
theorem mem_liveOpeners_succ (h : IsMatching t n spans) {o : Nat} :
    o ∈ t.liveOpeners spans (n + 1) ↔
      o ∈ t.liveOpeners spans n ∨ o = n ∧ ∃ k, t n = some (k, .opening) := by
  rw [Bracketing.mem_liveOpeners, Bracketing.mem_liveOpeners]
  refine ⟨fun ho => ?_, fun ho => ?_⟩
  · rcases ho with ⟨hopens, hl⟩
    by_cases hon : o = n
    · subst hon
      exact Or.inr ⟨rfl, hopens⟩
    · have hlt := hl.1
      exact Or.inl ⟨hopens, (h.live_succ_iff (by omega)).mp hl⟩
  · rcases ho with ⟨hopens, hl⟩ | ⟨hon, hopens⟩
    · exact ⟨hopens, (h.live_succ_iff hl.1).mpr hl⟩
    · subst hon
      exact ⟨hopens, h.live_self_succ⟩

theorem liveOpeners_succ_of_opens (h : IsMatching t n spans) {k : Bracket}
    (hopen : t n = some (k, .opening)) :
    t.liveOpeners spans (n + 1) = t.liveOpeners spans n ++ [n] := by
  have hsorted : (t.liveOpeners spans n ++ [n]).Pairwise (· < ·) := by
    rw [List.pairwise_append]
    refine ⟨t.pairwise_liveOpeners spans n, List.pairwise_singleton _ _, fun o ho m hm => ?_⟩
    rw [List.mem_singleton.mp hm]
    exact (Bracketing.mem_liveOpeners.mp ho).2.1
  apply (t.pairwise_liveOpeners spans (n + 1)).eq_of_mem_iff hsorted
  intro o
  have hthere : ∃ k, t n = some (k, .opening) := ⟨k, hopen⟩
  rw [h.mem_liveOpeners_succ, List.mem_append, List.mem_singleton, and_iff_left hthere]

theorem liveOpeners_succ_of_not_opens (h : IsMatching t n spans)
    (hopen : ∀ k, t n ≠ some (k, .opening)) :
    t.liveOpeners spans (n + 1) = t.liveOpeners spans n := by
  apply (t.pairwise_liveOpeners spans (n + 1)).eq_of_mem_iff (t.pairwise_liveOpeners spans n)
  intro o
  have hthere : ¬ (o = n ∧ ∃ k, t n = some (k, .opening)) := fun ho => by
    rcases ho with ⟨-, k, hk⟩
    exact hopen k hk
  rw [h.mem_liveOpeners_succ, or_iff_left hthere]

-- An answered closer leaves the live openers before its own.
theorem liveOpeners_succ_of_answer (h : IsMatching t n spans) {k : Bracket} {o : Nat}
    (hclose : t n = some (k, .closing)) (hlast : IsLastLive t spans k o n) :
    t.liveOpeners (spans ++ [⟨o, n⟩]) (n + 1) = (t.liveOpeners spans n).filter (· < o) := by
  have hkept : t.liveOpeners spans (n + 1) = t.liveOpeners spans n := by
    apply h.liveOpeners_succ_of_not_opens
    intro k' hk'
    rw [hclose] at hk'
    cases hk'
  have hon := hlast.live.1
  apply (t.pairwise_liveOpeners _ (n + 1)).eq_of_mem_iff
    ((t.pairwise_liveOpeners spans n).filter _)
  intro j
  rw [Bracketing.mem_liveOpeners, live_concat_iff, ← and_assoc, ← Bracketing.mem_liveOpeners,
    hkept, List.mem_filter, decide_eq_true_eq]
  refine and_congr_right fun hj => ?_
  have hjn := (Bracketing.mem_liveOpeners.mp hj).2.1
  change ¬ (o ≤ j ∧ j < n ∧ n < n + 1) ↔ j < o
  omega

-- What is live at a live opener is what is live now and stands before it: a span that covers an
-- opener before it closes before it or not yet.
theorem liveOpeners_eq_filter (h : IsMatching t n spans) {o c : Nat}
    (ho : o ∈ t.liveOpeners spans c) :
    t.liveOpeners spans o = (t.liveOpeners spans c).filter (· < o) := by
  rcases Bracketing.mem_liveOpeners.mp ho with ⟨⟨k, hk⟩, hlive⟩
  apply (t.pairwise_liveOpeners spans o).eq_of_mem_iff
    ((t.pairwise_liveOpeners spans c).filter _)
  intro j
  rw [List.mem_filter, Bracketing.mem_liveOpeners, Bracketing.mem_liveOpeners, decide_eq_true_eq]
  have hoc := hlive.1
  refine ⟨fun hjl => ?_, fun hjl => ?_⟩
  · rcases hjl with ⟨hj, hl⟩
    have hjo := hl.1
    refine ⟨⟨hj, by omega, fun s hs hcover => ?_⟩, hjo⟩
    have hne := h.closer_ne_of_opens hk hs
    have hbefore := hl.2 s hs
    have haround := hlive.2 s hs
    omega
  · rcases hjl with ⟨⟨hj, hl⟩, hjo⟩
    refine ⟨hj, hjo, fun s hs hcover => ?_⟩
    exact hl.2 s hs ⟨hcover.1, hcover.2.1, by omega⟩

end IsMatching

/-! ## 3. The last live opener of a kind -/

theorem exists_last_or_forall_not {α : Type} (p : α → Prop) [DecidablePred p] (l : List α) :
    (∀ x ∈ l, ¬ p x) ∨ ∃ below x above, l = below ++ x :: above ∧ p x ∧ ∀ y ∈ above, ¬ p y := by
  induction l with
  | nil => exact Or.inl (fun x hx => absurd hx List.not_mem_nil)
  | cons a l ih =>
    rcases ih with hnone | ⟨below, x, above, rfl, hx, habove⟩
    · by_cases ha : p a
      · exact Or.inr ⟨[], a, l, rfl, ha, hnone⟩
      · exact Or.inl (List.forall_mem_cons.mpr ⟨ha, hnone⟩)
    · exact Or.inr ⟨a :: below, x, above, rfl, hx, habove⟩

section

variable {t : Bracketing} {n o : Nat} {spans : List Span} {below above : List Nat}

theorem Bracketing.filter_lt_liveOpeners (h : t.liveOpeners spans n = below ++ o :: above) :
    (t.liveOpeners spans n).filter (· < o) = below := by
  have hsorted := t.pairwise_liveOpeners spans n
  rw [h] at hsorted ⊢
  rcases List.pairwise_append.mp hsorted with ⟨-, htail, hbelow⟩
  rcases List.pairwise_cons.mp htail with ⟨habove, -⟩
  have hkeep : below.filter (· < o) = below := by
    rw [List.filter_eq_self]
    intro j hj
    exact decide_eq_true (hbelow j hj o List.mem_cons_self)
  have hdrop : (o :: above).filter (· < o) = [] := by
    rw [List.filter_eq_nil_iff]
    intro j hj
    rw [decide_eq_true_eq]
    rcases List.mem_cons.mp hj with hjo | hja
    · omega
    · have hlt := habove j hja
      omega
  rw [List.filter_append, hkeep, hdrop, List.append_nil]

-- Where no opener of the kind follows, the live opener is the last of its kind.
theorem IsLastLive.of_liveOpeners_eq {k : Bracket}
    (h : t.liveOpeners spans n = below ++ o :: above) (ho : t o = some (k, .opening))
    (habove : ∀ j ∈ above, t j ≠ some (k, .opening)) : IsLastLive t spans k o n := by
  have hmem : o ∈ t.liveOpeners spans n := by
    rw [h]
    exact List.mem_append_right _ List.mem_cons_self
  refine ⟨ho, (Bracketing.mem_liveOpeners.mp hmem).2, fun j hj hjl => ?_⟩
  have hjmem := Bracketing.mem_liveOpeners.mpr ⟨⟨k, hj⟩, hjl⟩
  have hsorted := t.pairwise_liveOpeners spans n
  rw [h] at hjmem hsorted
  rcases List.pairwise_append.mp hsorted with ⟨-, -, hlt⟩
  rcases List.mem_append.mp hjmem with hjb | hjr
  · exact Nat.le_of_lt (hlt j hjb o List.mem_cons_self)
  · rcases List.mem_cons.mp hjr with hjo | hja
    · exact Nat.le_of_eq hjo
    · exact absurd hj (habove j hja)

end

end Nesting
