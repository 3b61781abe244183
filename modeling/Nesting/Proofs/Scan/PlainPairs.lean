import Nesting.Proofs.Angle.Order
import Nesting.Proofs.Pairing.NonCrossing

/-!
# Plain pairs with and without angle brackets

Resolving angle brackets puts more openers among those that wait, and an angle pair gives up the
plain openers inside it. Neither changes the plain pairs, unless an angle pair crosses a plain pair
of the scan without angle brackets. The two matchings are compared closer by closer: as long as
their plain spans agree, an opener that only an angle span has taken away is one that no closer of
the plain matching asks for.
-/

namespace Nesting

/-! ## 1. Matchings of fewer brackets -/

-- What is live among some spans is live among fewer of them.
theorem Live.mono {a b : List Span} {o c : Nat} (h : Live a o c)
    (hsub : ∀ e ∈ b, e.closer < c → e ∈ a) : Live b o c :=
  ⟨h.1, fun e he hcover => h.2 e (hsub e he hcover.2.2) hcover⟩

/-- Brackets that belong to no span can be left out. -/
theorem IsMatching.restrict {t u : Bracketing} {n : Nat} {spans : List Span}
    (h : IsMatching t n spans) (hsub : ∀ {i b}, u i = some b → t i = some b)
    (hopener : ∀ s ∈ spans, u s.opener = t s.opener)
    (hcloser : ∀ s ∈ spans, u s.closer = t s.closer) : IsMatching u n spans where
  ordered := h.ordered
  innermost := by
    intro s hs
    obtain ⟨hn, k, hclose, hlast⟩ := h.innermost s hs
    refine ⟨hn, k, (hcloser s hs).trans hclose, (hopener s hs).trans hlast.opens, hlast.live, ?_⟩
    intro o ho hlive
    exact hlast.last o (hsub ho) hlive
  answered := by
    intro c k o hc hclose hopen hlive
    exact h.answered c k o hc (hsub hclose) (hsub hopen) hlive

namespace Bracketing

/-- The brackets without the angle brackets. -/
def plain (t : Bracketing) : Bracketing := fun i =>
  (t i).filter (fun b => b.1.isPlain)

/-- Whether a plain bracket stands at an offset. -/
def isPlainAt (t : Bracketing) (i : Nat) : Bool :=
  (t.plain i).isSome

variable {t : Bracketing} {i : Nat} {k : Bracket} {side : Side}

theorem plain_eq_some_iff : t.plain i = some (k, side) ↔ t i = some (k, side) ∧ k.isPlain = true :=
  Option.filter_eq_some_iff

theorem isPlainAt_eq (h : t i = some (k, side)) : t.isPlainAt i = k.isPlain := by
  unfold isPlainAt plain
  rw [h]
  cases hk : k.isPlain <;> simp [Option.filter, hk]

end Bracketing

/-! ## 2. The two matchings -/

/-- The first span closes inside the second and opens before it. -/
def Span.CutsInto (s e : Span) : Prop :=
  s.opener < e.opener ∧ e.opener < s.closer ∧ s.closer < e.closer

section

variable {t : Bracketing} {n : Nat} {a b : List Span}

/-- Up to the offset `c` the plain spans of the one matching are the spans of the other. -/
def PlainAgree (t : Bracketing) (a b : List Span) (c : Nat) : Prop :=
  ∀ e : Span, e.closer < c → (e ∈ a ∧ t.isPlainAt e.opener = true ↔ e ∈ b)

-- The plain matching keeps what the other one keeps.
theorem PlainAgree.live {o c : Nat} (hagree : PlainAgree t a b c) (hlive : Live a o c) :
    Live b o c :=
  hlive.mono fun e he hec => ((hagree e hec).mpr he).1

-- An opener that the plain matching pairs is still live in the other one: only an angle span could
-- have taken it away, and that span would cut into the pair.
theorem PlainAgree.live_opener (hb : IsMatching t.plain n b) {e : Span} (he : e ∈ b)
    (hagree : PlainAgree t a b e.closer)
    (hcut : ∀ s ∈ a, t.isPlainAt s.opener = false → ¬ s.CutsInto e) :
    Live a e.opener e.closer := by
  obtain ⟨-, k, -, hlast⟩ := hb.innermost e he
  have hplain : t.isPlainAt e.opener = true := by
    unfold Bracketing.isPlainAt
    rw [hlast.opens]
    rfl
  refine ⟨hlast.live.1, fun s hs hcover => ?_⟩
  cases hkind : t.isPlainAt s.opener with
  | true => exact hlast.live.2 s ((hagree s hcover.2.2).mp ⟨hs, hkind⟩) hcover
  | false =>
    have hne : s.opener ≠ e.opener := by
      intro heq
      rw [heq, hplain] at hkind
      cases hkind
    exact hcut s hs hkind ⟨by omega, hcover.2.1, hcover.2.2⟩

-- Two spans of one closer, one of each matching, have the same opener.
theorem PlainAgree.eq_of_closer_eq (ha : IsMatching t n a) (hb : IsMatching t.plain n b)
    {s e : Span} (hs : s ∈ a) (he : e ∈ b) (hclose : s.closer = e.closer)
    (hagree : PlainAgree t a b e.closer)
    (hcut : ∀ s ∈ a, t.isPlainAt s.opener = false → ¬ s.CutsInto e) : s = e := by
  obtain ⟨-, k, hck, hk⟩ := ha.innermost s hs
  obtain ⟨-, k', hck', hk'⟩ := hb.innermost e he
  obtain ⟨hck', hplain⟩ := Bracketing.plain_eq_some_iff.mp hck'
  rw [hclose] at hck hk
  rw [hck] at hck'
  cases hck'
  have hopens : t e.opener = some (k, .opening) := (Bracketing.plain_eq_some_iff.mp hk'.opens).1
  have hle : e.opener ≤ s.opener := hk.last _ hopens (hagree.live_opener hb he hcut)
  have hge : s.opener ≤ e.opener :=
    hk'.last _ (Bracketing.plain_eq_some_iff.mpr ⟨hk.opens, hplain⟩) (hagree.live hk.live)
  exact Span.ext (by omega) hclose

/-- If no angle span of the whole matching cuts into a span of the plain one, the plain spans of the
whole matching are the plain matching. -/
theorem IsMatching.filter_isPlainAt (ha : IsMatching t n a) (hb : IsMatching t.plain n b)
    (hcut : ∀ e ∈ b, ∀ s ∈ a, t.isPlainAt s.opener = false → ¬ s.CutsInto e) :
    a.filter (fun s => t.isPlainAt s.opener) = b := by
  -- What is live at a closer depends on earlier closers only, hence induction on the closer.
  have hmem : ∀ c, ∀ s : Span, s.closer = c → (s ∈ a ∧ t.isPlainAt s.opener = true ↔ s ∈ b) := by
    intro c
    induction c using Nat.strong_induction_on with
    | h c ih =>
      intro s hsc
      have hagree : PlainAgree t a b s.closer := fun e he => ih e.closer (hsc ▸ he) e rfl
      refine ⟨fun hs => ?_, fun hs => ?_⟩
      · obtain ⟨hs, hkind⟩ := hs
        obtain ⟨hn, k, hclose, hlast⟩ := ha.innermost s hs
        rw [Bracketing.isPlainAt_eq hlast.opens] at hkind
        obtain ⟨e, he, hec⟩ := hb.answered s.closer k s.opener hn
          (Bracketing.plain_eq_some_iff.mpr ⟨hclose, hkind⟩)
          (Bracketing.plain_eq_some_iff.mpr ⟨hlast.opens, hkind⟩) (hagree.live hlast.live)
        rw [← hec] at hagree
        rw [hagree.eq_of_closer_eq ha hb hs he hec.symm (hcut e he)]
        exact he
      · obtain ⟨hn, k, hclose, hlast⟩ := hb.innermost s hs
        obtain ⟨hclose, hkind⟩ := Bracketing.plain_eq_some_iff.mp hclose
        obtain ⟨hopens, -⟩ := Bracketing.plain_eq_some_iff.mp hlast.opens
        obtain ⟨e, he, hec⟩ := ha.answered s.closer k s.opener hn hclose hopens
          (hagree.live_opener hb hs (hcut s hs))
        have heq := hagree.eq_of_closer_eq ha hb he hs hec (hcut s hs)
        rw [heq] at he
        exact ⟨he, (Bracketing.isPlainAt_eq hopens).trans hkind⟩
  have : Std.Irrefl (fun s e : Span => s.closer < e.closer) := ⟨fun s => Nat.lt_irrefl _⟩
  apply (ha.ordered.filter _).eq_of_mem_iff hb.ordered
  intro s
  rw [List.mem_filter]
  exact hmem s.closer s rfl

end

/-! ## 3. The two scans -/

namespace Pair

/-- The place lies strictly between the ends of the pair. -/
def Surrounds (p : Pair) (place : Position) : Prop :=
  p.opener.position < place ∧ place < p.closer.position

instance (p : Pair) (place : Position) : Decidable (p.Surrounds place) :=
  inferInstanceAs (Decidable (_ ∧ _))

/-- Each of the two pairs has exactly one end of the other inside. -/
def Crosses (p q : Pair) : Prop :=
  Xor (p.Surrounds q.opener.position) (p.Surrounds q.closer.position) ∧
    Xor (q.Surrounds p.opener.position) (q.Surrounds p.closer.position)

instance (p q : Pair) : Decidable (p.Crosses q) :=
  inferInstanceAs (Decidable (_ ∧ _))

end Pair

/-- The pairs of round, square and curly brackets. -/
def plainPairs (pairs : List Pair) : List Pair :=
  pairs.filter (fun p => Bracket.isPlainOpener p.opener.character)

theorem scanDelimiters_false (g : Grammar) (text : List UInt8) :
    scanDelimiters g false text = (scanDelimiters g true text).plain := by
  have hnone : ∀ p, (scanMarks g false text).any (fun m => decide (m.position = p)) = false :=
    fun _ => rfl
  funext i
  apply Option.ext
  intro b
  obtain ⟨k, side⟩ := b
  unfold scanDelimiters
  rw [Bracketing.plain_eq_some_iff, delimiters_eq_some_iff, delimiters_eq_some_iff]
  simp only [hnone, Bool.false_eq_true, or_false]
  constructor
  · intro h
    exact ⟨⟨h.1, h.2.1, Or.inl h.2.2⟩, h.2.2⟩
  · intro h
    exact ⟨h.1.1, h.1.2.1, h.2⟩

theorem exists_isMatching_scan (g : Grammar) (resolve : Bool) (text : List UInt8) :
    ∃ (spans : List Span) (depth : Span → Nat),
      IsMatching (scanDelimiters g resolve text) text.length spans ∧
        scan g resolve text = spans.map (fun e => e.pair text (depth e)) := by
  obtain ⟨spans, h, heq⟩ :=
    Bracketing.exists_isMatching (reads_scanDelimiters g resolve text) text.length
  exact ⟨spans, _, h, (scan_eq_pairUp_entries g resolve text).trans heq⟩

section

variable {t : Bracketing} {n : Nat} {text : List UInt8} {spans : List Span}

theorem isPlainOpener_pair (ht : t.Reads text) (h : IsMatching t n spans) {s : Span} (hs : s ∈ spans)
    (depth : Nat) :
    Bracket.isPlainOpener (s.pair text depth).opener.character = t.isPlainAt s.opener := by
  obtain ⟨-, k, -, hlast⟩ := h.innermost s hs
  change Bracket.isPlainOpener (delimiterOf text s.opener depth).character = _
  rw [character_delimiterOf ht hlast.opens, Bracketing.isPlainAt_eq hlast.opens,
    Bracket.isPlainOpener, Bracket.read?_character]

theorem plainPairs_map_pair (ht : t.Reads text) (h : IsMatching t n spans) (depth : Span → Nat) :
    plainPairs (spans.map (fun e => e.pair text (depth e))) =
      (spans.filter (fun s => t.isPlainAt s.opener)).map (fun e => e.pair text (depth e)) := by
  unfold plainPairs
  rw [List.filter_map]
  congr 1
  apply List.filter_congr
  intro s hs
  exact isPlainOpener_pair ht h hs (depth s)

theorem character_of_not_isPlainAt (ht : t.Reads text) (h : IsMatching t n spans) {s : Span}
    (hs : s ∈ spans) (hkind : t.isPlainAt s.opener = false) (depth : Nat) :
    (s.pair text depth).opener.character = '<' := by
  obtain ⟨-, k, -, hlast⟩ := h.innermost s hs
  rw [Bracketing.isPlainAt_eq hlast.opens] at hkind
  change (delimiterOf text s.opener depth).character = _
  rw [character_delimiterOf ht hlast.opens]
  cases k with
  | angle => rfl
  | round | square | curly => cases hkind

theorem crosses_pair_of_cutsInto {s e : Span} (he : e.closer < text.length) (h : s.CutsInto e)
    (d d' : Nat) : (s.pair text d).Crosses (e.pair text d') := by
  obtain ⟨hopen, hinside, hclose⟩ := h
  have hopen' : placeAt text s.opener < placeAt text e.opener := placeAt_lt_placeAt hopen (by omega)
  have hinside' : placeAt text e.opener < placeAt text s.closer :=
    placeAt_lt_placeAt hinside (by omega)
  have hclose' : placeAt text s.closer < placeAt text e.closer :=
    placeAt_lt_placeAt hclose (by omega)
  constructor
  · refine Or.inl ⟨⟨hopen', hinside'⟩, fun hcloser => ?_⟩
    exact Position.lt_irrefl _ (Position.lt_trans hclose' hcloser.2)
  · refine Or.inr ⟨⟨hinside', hclose'⟩, fun hopener => ?_⟩
    exact Position.lt_irrefl _ (Position.lt_trans hopen' hopener.1)

end

theorem plainPairs_scan_false (g : Grammar) (text : List UInt8) :
    plainPairs (scan g false text) = scan g false text := by
  obtain ⟨spans, depth, h, heq⟩ := exists_isMatching_scan g false text
  have hplain : spans.filter (fun s => (scanDelimiters g false text).isPlainAt s.opener) = spans := by
    rw [List.filter_eq_self]
    intro s hs
    obtain ⟨-, k, -, hlast⟩ := h.innermost s hs
    rw [Bracketing.isPlainAt_eq hlast.opens]
    have hopens := hlast.opens
    rw [scanDelimiters_false] at hopens
    exact (Bracketing.plain_eq_some_iff.mp hopens).2
  rw [heq, plainPairs_map_pair (reads_scanDelimiters g false text) h, hplain]

theorem map_ends_plainPairs_scan {g : Grammar} {text : List UInt8}
    (hcross : ∀ p ∈ scan g true text, p.opener.character = '<' →
      ∀ q ∈ plainPairs (scan g false text), ¬ p.Crosses q) :
    (plainPairs (scan g true text)).map Pair.ends =
      (plainPairs (scan g false text)).map Pair.ends := by
  obtain ⟨a, da, ha, heqa⟩ := exists_isMatching_scan g true text
  obtain ⟨b, db, hb, heqb⟩ := exists_isMatching_scan g false text
  have ht := reads_scanDelimiters g true text
  rw [plainPairs_scan_false, heqa, heqb] at hcross ⊢
  rw [scanDelimiters_false] at hb
  have hcut : ∀ e ∈ b, ∀ s ∈ a, (scanDelimiters g true text).isPlainAt s.opener = false →
      ¬ s.CutsInto e := by
    intro e he s hs hkind hcut
    exact hcross _ (List.mem_map_of_mem hs) (character_of_not_isPlainAt ht ha hs hkind _) _
      (List.mem_map_of_mem he) (crosses_pair_of_cutsInto (hb.innermost e he).1 hcut _ _)
  rw [plainPairs_map_pair ht ha, ha.filter_isPlainAt hb hcut, List.map_map, List.map_map]
  rfl

/-! ## 4. Marks that belong to no pair -/

section

variable {g : Grammar} {text : List UInt8} {marks : List AngleMark}

theorem speaksFor_of_sublist (hsub : marks.Sublist (angleMarks g text)) (p : Position) :
    AngleMark.speaksFor marks p = true ↔ ∃ m ∈ marks, m.position = p := by
  have hsorted := (pairwise_position_angleMarks g text).sublist hsub
  rw [AngleMark.speaksFor_eq_any (hsorted.imp fun h => Position.le_iff_lt_or_eq.mpr (Or.inl h)),
    List.any_eq_true]
  simp only [decide_eq_true_eq]

theorem delimiters_of_sublist (hsub : marks.Sublist (angleMarks g text)) {i : Nat}
    {b : Bracket × Side} (h : delimiters g (AngleMark.speaksFor marks) text i = some b) :
    delimiters g (AngleMark.speaksFor (angleMarks g text)) text i = some b := by
  obtain ⟨k, side⟩ := b
  rw [delimiters_eq_some_iff, speaksFor_of_sublist hsub] at h
  rw [delimiters_eq_some_iff, speaksFor_of_sublist (List.Sublist.refl _)]
  obtain ⟨hclass, hbyte, hk | ⟨m, hm, hpos⟩⟩ := h
  · exact ⟨hclass, hbyte, Or.inl hk⟩
  · exact ⟨hclass, hbyte, Or.inr ⟨m, hsub.subset hm, hpos⟩⟩

theorem delimiters_of_kept (hsub : marks.Sublist (angleMarks g text)) {i : Nat}
    {b : Bracket × Side}
    (hkept : ∀ m ∈ angleMarks g text, m.position = placeAt text i → m ∈ marks)
    (h : delimiters g (AngleMark.speaksFor (angleMarks g text)) text i = some b) :
    delimiters g (AngleMark.speaksFor marks) text i = some b := by
  obtain ⟨k, side⟩ := b
  rw [delimiters_eq_some_iff, speaksFor_of_sublist (List.Sublist.refl _)] at h
  rw [delimiters_eq_some_iff, speaksFor_of_sublist hsub]
  obtain ⟨hclass, hbyte, hk | ⟨m, hm, hpos⟩⟩ := h
  · exact ⟨hclass, hbyte, Or.inl hk⟩
  · exact ⟨hclass, hbyte, Or.inr ⟨m, hkept m hm hpos, hpos⟩⟩

theorem map_ends_matchDelimiters (hsub : marks.Sublist (angleMarks g text))
    (hkept : ∀ p ∈ scan g true text, ∀ m ∈ angleMarks g text, m.position ∈ p.ends → m ∈ marks) :
    (matchDelimiters g marks text).map Pair.ends = (scan g true text).map Pair.ends := by
  obtain ⟨a, ha, heqa⟩ := exists_isMatching g (angleMarks g text) text
  obtain ⟨b, hb, heqb⟩ := exists_isMatching g marks text
  have hscan : scan g true text = matchDelimiters g (angleMarks g text) text := rfl
  rw [hscan, heqa] at hkept ⊢
  have hends : ∀ s ∈ a, ∀ i, placeAt text i ∈ [placeAt text s.opener, placeAt text s.closer] →
      ∀ m ∈ angleMarks g text, m.position = placeAt text i → m ∈ marks := by
    intro s hs i hi m hm hpos
    apply hkept _ (List.mem_map_of_mem hs) m hm
    rw [hpos]
    exact hi
  have hsame : IsMatching (delimiters g (AngleMark.speaksFor marks) text) text.length a := by
    apply ha.restrict (delimiters_of_sublist hsub)
    · intro s hs
      obtain ⟨-, k, -, hlast⟩ := ha.innermost s hs
      rw [hlast.opens]
      exact delimiters_of_kept hsub (hends s hs s.opener (by simp)) hlast.opens
    · intro s hs
      obtain ⟨-, k, hclose, -⟩ := ha.innermost s hs
      rw [hclose]
      exact delimiters_of_kept hsub (hends s hs s.closer (by simp)) hclose
  rw [heqb, hb.unique hsame, List.map_map, List.map_map]
  rfl

end

/-- **Plain pairs.** If no angle pair of the scan with angle brackets crosses a plain pair of the
scan without them, both have the same plain pairs, by place and in order. Angle brackets that belong
to no pair change nothing: the scan has the same pairs when their marks are left out. -/
theorem plain_pairs_unless_crossed (g : Grammar) (text : List UInt8) :
    ((∀ p ∈ scan g true text, p.opener.character = '<' →
        ∀ q ∈ plainPairs (scan g false text), ¬ p.Crosses q) →
      (plainPairs (scan g true text)).map Pair.ends =
        (plainPairs (scan g false text)).map Pair.ends) ∧
    ∀ marks : List AngleMark, marks.Sublist (angleMarks g text) →
      (∀ p ∈ scan g true text, ∀ m ∈ angleMarks g text, m.position ∈ p.ends → m ∈ marks) →
      (matchDelimiters g marks text).map Pair.ends = (scan g true text).map Pair.ends :=
  ⟨map_ends_plainPairs_scan, fun _ hsub hkept => map_ends_matchDelimiters hsub hkept⟩

/-- A comparison that is left open, and a template argument with a bracket in it. -/
def strayText : List UInt8 :=
  [0x78, 0x3c, 0x28, 0x61, 0x3c, 0x62, 0x5b, 0x63, 0x5d, 0x3e, 0x29]

theorem plain_pairs_strayText :
    (scan .cpp true strayText).map Pair.text =
        ["[1.7-]1.9@3", "<1.5->1.10@2", "(1.3-)1.11@1"] ∧
      (plainPairs (scan .cpp true strayText)).map Pair.ends =
        (plainPairs (scan .cpp false strayText)).map Pair.ends ∧
      (matchDelimiters .cpp [⟨.opening, ⟨1, 5⟩⟩, ⟨.closing, ⟨1, 10⟩⟩] strayText).map Pair.ends =
        (scan .cpp true strayText).map Pair.ends := by
  have hmarks : angleMarks .cpp strayText =
      [⟨.opening, ⟨1, 2⟩⟩, ⟨.opening, ⟨1, 5⟩⟩, ⟨.closing, ⟨1, 10⟩⟩] := by decide +kernel
  obtain ⟨hplain, hkept⟩ := plain_pairs_unless_crossed .cpp strayText
  refine ⟨by decide +kernel, hplain (by decide +kernel), hkept _ ?_ (by decide +kernel)⟩
  rw [hmarks]
  exact List.sublist_cons_self _ _

end Nesting
