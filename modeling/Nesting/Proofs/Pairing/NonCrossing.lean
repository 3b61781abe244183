import Mathlib.Data.List.Pairwise
import Nesting.Proofs.Pairing.Run
import Nesting.Scan

/-!
# Pairs never cross

Every pair of a text joins two code bytes of one kind, the opener first, and the pairs of a text
fit into each other: no byte belongs to two of them, and of two pairs one lies inside the other or
they lie apart. All of it is read off the matching that the pairs are.
-/

namespace Nesting

/-! ## 1. Well-formed pairs -/

/-- The delimiter is a code byte of the text. -/
def Delimiter.IsCode (g : Grammar) (text : List UInt8) (d : Delimiter) : Prop :=
  ∃ i b, text[i]? = some b ∧ (Lexer.classes g text)[i]? = some .code ∧
    d.character = Byte.toChar b ∧ d.position = placeAt text i

namespace Pair

/-- A pair by itself: its ends are code bytes of one kind, in order and of one depth. -/
structure WellFormed (g : Grammar) (text : List UInt8) (p : Pair) : Prop where
  opener_lt_closer : p.opener.position < p.closer.position
  depth_eq : p.opener.depth = p.closer.depth
  kind : Bracket.opener? p.closer.character = some p.opener.character
  opener_code : p.opener.IsCode g text
  closer_code : p.closer.IsCode g text

/-- The places of the two ends. -/
def ends (p : Pair) : List Position := [p.opener.position, p.closer.position]

/-- One pair ends before the other begins. -/
def Apart (p q : Pair) : Prop :=
  p.closer.position < q.opener.position ∨ q.closer.position < p.opener.position

/-- The second pair lies strictly inside the first. -/
def Contains (p q : Pair) : Prop :=
  p.opener.position < q.opener.position ∧ q.closer.position < p.closer.position

end Pair

/-- Pairs that are well-formed, come in the order of their closers, share no byte and never
cross. -/
structure WellPaired (g : Grammar) (text : List UInt8) (pairs : List Pair) : Prop where
  wellFormed : ∀ p ∈ pairs, p.WellFormed g text
  ordered : pairs.Pairwise (fun p q => p.closer.position < q.closer.position)
  separate : pairs.Pairwise (fun p q => p.ends.Disjoint q.ends)
  nested : pairs.Pairwise (fun p q => p.Apart q ∨ p.Contains q ∨ q.Contains p)

theorem WellPaired.apart_or_contains {g : Grammar} {text : List UInt8} {pairs : List Pair}
    (h : WellPaired g text pairs) {p q : Pair} (hp : p ∈ pairs) (hq : q ∈ pairs) (hne : p ≠ q) :
    p.Apart q ∨ p.Contains q ∨ q.Contains p := by
  have : Std.Symm (fun p q : Pair => p.Apart q ∨ p.Contains q ∨ q.Contains p) := by
    refine ⟨fun p q hpq => ?_⟩
    rcases hpq with ha | hc | hc
    · exact Or.inl ha.symm
    · exact Or.inr (Or.inr hc)
    · exact Or.inr (Or.inl hc)
  exact h.nested.forall hp hq hne

/-! ## 2. The pairs of a matching -/

namespace IsMatching

variable {g : Grammar} {counts : Position → Bool} {text : List UInt8} {spans : List Span}

theorem isCode_delimiterOf {i : Nat} {k : Bracket} {side : Side}
    (hi : delimiters g counts text i = some (k, side)) (depth : Nat) :
    (delimiterOf text i depth).IsCode g text := by
  rcases delimiters_eq_some_iff.mp hi with ⟨hclass, hbyte, -⟩
  refine ⟨i, k.byte side, hbyte, hclass, ?_, rfl⟩
  change Byte.toChar (text.getD i 0) = _
  rw [List.getD_eq_getElem?_getD, hbyte, Option.getD_some]

theorem wellFormed_pair (h : IsMatching (delimiters g counts text) text.length spans) {e : Span}
    (he : e ∈ spans) (depth : Nat) : (e.pair text depth).WellFormed g text := by
  rcases h.innermost e he with ⟨hn, k, hclose, hk⟩
  have ht := reads_delimiters g counts text
  refine ⟨placeAt_lt_placeAt hk.live.1 (Nat.le_of_lt hn), rfl, ?_,
    isCode_delimiterOf hk.opens depth, isCode_delimiterOf hclose depth⟩
  change Bracket.opener? (delimiterOf text e.closer depth).character =
    some (delimiterOf text e.opener depth).character
  rw [opener?_character_delimiterOf ht hclose, character_delimiterOf ht hk.opens]

theorem disjoint_ends_pair (h : IsMatching (delimiters g counts text) text.length spans)
    {s e : Span} (hs : s ∈ spans) (he : e ∈ spans) (hlt : s.closer < e.closer) (d d' : Nat) :
    (s.pair text d).ends.Disjoint (e.pair text d').ends := by
  have hsn := (h.innermost s hs).1
  have hen := (h.innermost e he).1
  have hso := h.opener_lt_closer hs
  have heo := h.opener_lt_closer he
  have hne : ∀ {i j : Nat}, i ≠ j → i < text.length → j < text.length →
      placeAt text i ≠ placeAt text j := fun hij hi hj hp =>
    hij ((placeAt_inj (Nat.le_of_lt hi) (Nat.le_of_lt hj)).mp hp)
  have hspans : s.opener ≠ e.opener ∧ s.opener ≠ e.closer ∧ s.closer ≠ e.opener := by
    rcases h.before_or_enclosed hs he hlt with hb | hi
    · omega
    · have hopen := hi.1
      omega
  intro p hp hq
  simp only [Pair.ends, List.mem_cons, List.not_mem_nil, or_false] at hp hq
  rcases hp with rfl | rfl <;> rcases hq with hq | hq
  · exact hne hspans.1 (by omega) (by omega) hq
  · exact hne hspans.2.1 (by omega) (by omega) hq
  · exact hne hspans.2.2 (by omega) (by omega) hq
  · exact hne (Nat.ne_of_lt hlt) hsn hen hq

theorem wellPaired_map_pair (h : IsMatching (delimiters g counts text) text.length spans)
    (depth : Span → Nat) : WellPaired g text (spans.map (fun e => e.pair text (depth e))) where
  wellFormed := by
    intro p hp
    rcases List.mem_map.mp hp with ⟨e, he, rfl⟩
    exact h.wellFormed_pair he _
  ordered := by
    rw [List.pairwise_map]
    refine h.ordered.imp_of_mem fun {s e} hs he hlt => ?_
    exact placeAt_lt_placeAt hlt (Nat.le_of_lt (h.innermost e he).1)
  separate := by
    rw [List.pairwise_map]
    exact h.ordered.imp_of_mem fun hs he hlt => h.disjoint_ends_pair hs he hlt _ _
  nested := by
    rw [List.pairwise_map]
    refine h.ordered.imp_of_mem fun {s e} hs he hlt => ?_
    have hen := (h.innermost e he).1
    have hso := h.opener_lt_closer hs
    have heo := h.opener_lt_closer he
    rcases h.before_or_enclosed hs he hlt with hb | ⟨ho, hc⟩
    · exact Or.inl (Or.inl (placeAt_lt_placeAt hb (by omega)))
    · exact Or.inr (Or.inr ⟨placeAt_lt_placeAt ho (by omega), placeAt_lt_placeAt hc (by omega)⟩)

end IsMatching

/-! ## 3. The pairs of a text -/

theorem wellPaired_matchDelimiters (g : Grammar) (marks : List AngleMark) (text : List UInt8) :
    WellPaired g text (matchDelimiters g marks text) := by
  rcases exists_isMatching g marks text with ⟨spans, h, heq⟩
  rw [heq]
  exact h.wellPaired_map_pair _

/-- **Pairs never cross.** Whatever the marks, the pairs of a text are well-formed, come in the
order of their closers, share no byte and lie inside each other or apart, and so do those of a
scan. -/
theorem pairs_never_cross (g : Grammar) (text : List UInt8) :
    (∀ marks, WellPaired g text (matchDelimiters g marks text)) ∧
      ∀ resolve, WellPaired g text (scan g resolve text) :=
  ⟨fun marks => wellPaired_matchDelimiters g marks text,
    fun resolve => wellPaired_matchDelimiters g (scanMarks g resolve text) text⟩

end Nesting
