import Mathlib.Data.List.Sort
import Nesting.Proofs.Delimiters

/-!
# Matchings without a stack

A matching is described by its spans alone. An opener is live at a later offset as long as no span
that closes before that offset starts at the opener or around it, and a closer belongs with the
last opener of its kind that is live there. `IsMatching.unique` shows that this leaves no choice,
although what is live depends on the spans themselves.
-/

namespace Nesting

/-- An opener and a closer by their offsets. -/
@[ext]
structure Span where
  opener : Nat
  closer : Nat
  deriving DecidableEq, Repr

/-- Both ends of the second span lie strictly inside the first. -/
def Span.Encloses (s e : Span) : Prop :=
  s.opener < e.opener ∧ e.closer < s.closer

instance (s e : Span) : Decidable (s.Encloses e) := inferInstanceAs (Decidable (_ ∧ _))

/-! ## 1. Live openers -/

/-- Whether an opener at `o` is live at `c`: it stands before `c`, and no span that closes before
`c` starts at `o` or around it. -/
def Live (spans : List Span) (o c : Nat) : Prop :=
  o < c ∧ ∀ s ∈ spans, ¬ (s.opener ≤ o ∧ o < s.closer ∧ s.closer < c)

instance (spans : List Span) (o c : Nat) : Decidable (Live spans o c) :=
  inferInstanceAs (Decidable (_ ∧ _))

-- Only the spans that close before `c` decide what is live there.
theorem live_congr {a b : List Span} {c : Nat} (h : ∀ s : Span, s.closer < c → (s ∈ a ↔ s ∈ b))
    (o : Nat) : Live a o c ↔ Live b o c := by
  unfold Live
  refine and_congr_right fun _ => forall_congr' fun s => ?_
  by_cases hs : s.closer < c
  · rw [h s hs]
  · simp only [hs, and_false, not_false_eq_true, implies_true]

theorem live_concat_iff {spans : List Span} {s : Span} {o c : Nat} :
    Live (spans ++ [s]) o c ↔
      Live spans o c ∧ ¬ (s.opener ≤ o ∧ o < s.closer ∧ s.closer < c) := by
  unfold Live
  simp only [List.mem_append, List.mem_singleton, or_imp, forall_and, forall_eq, and_assoc]

-- A span that closes at `c` or later decides nothing about what is live at `c`.
theorem live_concat_iff_of_le {spans : List Span} {s : Span} {c : Nat} (hc : c ≤ s.closer)
    (o : Nat) : Live (spans ++ [s]) o c ↔ Live spans o c := by
  have hnew : ¬ (s.opener ≤ o ∧ o < s.closer ∧ s.closer < c) := by omega
  rw [live_concat_iff]
  exact and_iff_left hnew

namespace Bracketing

/-- The openers before `c` that are live there, in order. -/
def liveOpeners (t : Bracketing) (spans : List Span) (c : Nat) : List Nat :=
  (List.range c).filter (fun o =>
    (t o).any (fun b => decide (b.2 = .opening)) && decide (Live spans o c))

theorem any_opening_iff {b : Option (Bracket × Side)} :
    b.any (fun b => decide (b.2 = .opening)) = true ↔ ∃ k, b = some (k, .opening) := by
  rw [Option.any_eq_true]
  refine ⟨fun h => ?_, fun h => ?_⟩
  · rcases h with ⟨⟨k, side⟩, hb, hside⟩
    rw [decide_eq_true_eq] at hside
    change side = .opening at hside
    subst hside
    exact ⟨k, hb⟩
  · rcases h with ⟨k, hk⟩
    exact ⟨(k, .opening), hk, rfl⟩

theorem mem_liveOpeners {t : Bracketing} {spans : List Span} {o c : Nat} :
    o ∈ t.liveOpeners spans c ↔ (∃ k, t o = some (k, .opening)) ∧ Live spans o c := by
  unfold liveOpeners
  rw [List.mem_filter, List.mem_range, Bool.and_eq_true, decide_eq_true_eq, any_opening_iff]
  -- A live opener stands before `c`, so the range takes nothing away.
  exact ⟨fun h => h.2, fun h => ⟨h.2.1, h⟩⟩

theorem pairwise_liveOpeners (t : Bracketing) (spans : List Span) (c : Nat) :
    (t.liveOpeners spans c).Pairwise (· < ·) :=
  List.pairwise_lt_range.filter _

theorem liveOpeners_concat_of_le (t : Bracketing) {spans : List Span} {s : Span} {c : Nat}
    (hc : c ≤ s.closer) : t.liveOpeners (spans ++ [s]) c = t.liveOpeners spans c := by
  unfold liveOpeners
  simp only [live_concat_iff_of_le hc]

end Bracketing

/-! ## 2. Matchings -/

/-- The last opener of kind `k` that is live at `c` stands at `o`. -/
structure IsLastLive (t : Bracketing) (spans : List Span) (k : Bracket) (o c : Nat) : Prop where
  opens : t o = some (k, .opening)
  live : Live spans o c
  last : ∀ o', t o' = some (k, .opening) → Live spans o' c → o' ≤ o

/-- The spans of the brackets before `n`. -/
structure IsMatching (t : Bracketing) (n : Nat) (spans : List Span) : Prop where
  /-- The spans come in the order of their closers, and no closer has two. -/
  ordered : spans.Pairwise (fun s e => s.closer < e.closer)
  /-- Every span joins a closer with the last opener of its kind that is live there. -/
  innermost : ∀ s ∈ spans, s.closer < n ∧
    ∃ k, t s.closer = some (k, .closing) ∧ IsLastLive t spans k s.opener s.closer
  /-- Every closer at which an opener of its kind is live has a span. -/
  answered : ∀ c k o, c < n → t c = some (k, .closing) → t o = some (k, .opening) →
    Live spans o c → ∃ s ∈ spans, s.closer = c

namespace IsMatching

variable {t : Bracketing} {n : Nat} {spans : List Span}

theorem opener_lt_closer (h : IsMatching t n spans) {s : Span} (hs : s ∈ spans) :
    s.opener < s.closer := by
  rcases h.innermost s hs with ⟨-, k, -, hk⟩
  exact hk.live.1

-- An offset with an opener closes no span.
theorem closer_ne_of_opens (h : IsMatching t n spans) {o : Nat} {k : Bracket}
    (ho : t o = some (k, .opening)) {s : Span} (hs : s ∈ spans) : s.closer ≠ o := by
  intro heq
  rcases h.innermost s hs with ⟨-, k', hk', -⟩
  rw [heq, ho] at hk'
  cases hk'

-- Of two spans the one that closes first lies before the other or inside it.
theorem before_or_enclosed (h : IsMatching t n spans) {s e : Span} (hs : s ∈ spans)
    (he : e ∈ spans) (hlt : s.closer < e.closer) : s.closer < e.opener ∨ e.Encloses s := by
  rcases h.innermost e he with ⟨-, k, -, hk⟩
  have hne := h.closer_ne_of_opens hk.opens hs
  have hlive := hk.live.2 s hs
  by_cases hopen : e.opener < s.opener
  · exact Or.inr ⟨hopen, hlt⟩
  · exact Or.inl (by omega)

/-! ## 3. Uniqueness -/

-- If two matchings agree on what closes before a span, the second has the span too.
theorem mem_of_agree {a b : List Span} (ha : IsMatching t n a) (hb : IsMatching t n b) {s : Span}
    (hagree : ∀ e : Span, e.closer < s.closer → (e ∈ a ↔ e ∈ b)) (hs : s ∈ a) : s ∈ b := by
  rcases ha.innermost s hs with ⟨hn, k, hclose, hk⟩
  have hlive := live_congr hagree
  have hthere := (hlive _).mp hk.live
  rcases hb.answered s.closer k s.opener hn hclose hk.opens hthere with ⟨e, he, hec⟩
  rcases hb.innermost e he with ⟨-, k', hclose', hk'⟩
  rw [hec] at hclose' hk'
  rw [hclose] at hclose'
  cases hclose'
  -- Both openers are the last live one of the same kind, and liveness is the same on both sides.
  have hopener : e.opener = s.opener := by
    apply Nat.le_antisymm
    · exact hk.last _ hk'.opens ((hlive _).mpr hk'.live)
    · exact hk'.last _ hk.opens hthere
  exact Span.ext hopener hec ▸ he

/-- Brackets have at most one matching. -/
theorem unique {a b : List Span} (ha : IsMatching t n a) (hb : IsMatching t n b) : a = b := by
  -- What is live at a closer depends on earlier closers only, hence induction on the closer.
  have hmem : ∀ c, ∀ s : Span, s.closer = c → (s ∈ a ↔ s ∈ b) := by
    intro c
    induction c using Nat.strong_induction_on with
    | h c ih =>
      intro s hs
      have hagree : ∀ e : Span, e.closer < s.closer → (e ∈ a ↔ e ∈ b) :=
        fun e he => ih e.closer (hs ▸ he) e rfl
      exact ⟨mem_of_agree ha hb hagree,
        mem_of_agree hb ha (fun e he => (hagree e he).symm)⟩
  have : Std.Irrefl (fun s e : Span => s.closer < e.closer) := ⟨fun s => Nat.lt_irrefl _⟩
  exact ha.ordered.eq_of_mem_iff hb.ordered (fun s => hmem s.closer s rfl)

end IsMatching

end Nesting
