import Nesting.Proofs.Angle.Order
import Nesting.Proofs.Pairing.Depth

/-!
# Texts with balanced brackets

When the delimiters of a text form a well-nested word, a scan pairs all of them, and pairs them as
the word does. The argument is about a stretch of delimiters inside any others: a well-nested
stretch leaves the openers that wait as they were, so the bracket after it finds the one before it.
-/

namespace Nesting

/-! ## 1. Well-nested words -/

/-- The well-nested words over the four kinds of brackets. -/
inductive WellNested : List (Bracket × Side) → Prop
  | nil : WellNested []
  | nest {inside after : List (Bracket × Side)} (k : Bracket) :
      WellNested inside → WellNested after →
        WellNested ((k, .opening) :: inside ++ (k, .closing) :: after)

-- Induction on a list whose brackets form a well-nested word.
@[elab_as_elim]
theorem WellNested.induction_map {α : Type} {f : α → Bracket × Side}
    {motive : ∀ xs : List α, WellNested (xs.map f) → Prop} (nil : motive [] .nil)
    (nest : ∀ {o c : α} {inside after : List α} {k : Bracket}, f o = (k, .opening) →
      f c = (k, .closing) → ∀ (hin : WellNested (inside.map f))
      (hafter : WellNested (after.map f)) (h : WellNested ((o :: inside ++ c :: after).map f)),
        motive inside hin → motive after hafter → motive (o :: inside ++ c :: after) h)
    {xs : List α} (h : WellNested (xs.map f)) : motive xs h := by
  suffices hall : ∀ {w}, WellNested w →
      ∀ (ys : List α) (hys : WellNested (ys.map f)), ys.map f = w → motive ys hys from
    hall h xs h rfl
  intro w hw
  induction hw with
  | nil =>
    intro ys hys hmap
    have hempty := List.map_eq_nil_iff.mp hmap
    subst hempty
    exact nil
  | nest k hin hafter ihin ihafter =>
    intro ys hys hmap
    rcases List.map_eq_append_iff.mp hmap with ⟨left, right, rfl, hleft, hright⟩
    rcases List.map_eq_cons_iff.mp hleft with ⟨o, inside, rfl, ho, rfl⟩
    rcases List.map_eq_cons_iff.mp hright with ⟨c, after, rfl, hc, rfl⟩
    exact nest ho hc hin hafter hys (ihin inside hin rfl) (ihafter after hafter rfl)

/-- The closer that belongs with an opener by well-nestedness: it is of the same kind, and what
stands between the two is well-nested. -/
def Assigned (es : List (Nat × Bracket × Side)) (s : Span) : Prop :=
  ∃ k before inside after, es = before ++ ((s.opener, k, .opening) :: inside ++
    (s.closer, k, .closing) :: after) ∧ WellNested (inside.map Prod.snd)

theorem Assigned.append {es : List (Nat × Bracket × Side)} {s : Span} (h : Assigned es s)
    (before after : List (Nat × Bracket × Side)) : Assigned (before ++ es ++ after) s := by
  rcases h with ⟨k, b, inside, a, rfl, hin⟩
  exact ⟨k, before ++ b, inside, a ++ after, by simp, hin⟩

-- In a well-nested word a closer belongs with every opener.
theorem WellNested.exists_assigned {es : List (Nat × Bracket × Side)}
    (h : WellNested (es.map Prod.snd)) {o : Nat} {k : Bracket} (ho : (o, k, .opening) ∈ es) :
    ∃ c, Assigned es ⟨o, c⟩ := by
  induction h using WellNested.induction_map with
  | nil => exact absurd ho List.not_mem_nil
  | @nest e e' inside after j he he' hin _ _ ihin ihafter =>
    -- The opener is the outer one, or one inside it, or one after its closer.
    rcases List.mem_append.mp ho with ho | ho
    · rcases List.mem_cons.mp ho with rfl | ho
      · cases he
        exact ⟨e'.1, k, [], inside, after, by simp [← he'], hin⟩
      · rcases ihin ho with ⟨c, hc⟩
        have hlift := hc.append [e] (e' :: after)
        exact ⟨c, by simpa using hlift⟩
    · rcases List.mem_cons.mp ho with rfl | ho
      · cases he'
      · rcases ihafter ho with ⟨c, hc⟩
        have hlift := hc.append (e :: inside ++ [e']) []
        exact ⟨c, by simpa using hlift⟩

/-! ## 2. Well-nested stretches -/

namespace Matching

theorem mem_found_step {s : Matching} {p : Pair} (hp : p ∈ s.found) (x : Site) :
    p ∈ (s.step x).found := by
  unfold step
  cases x.side with
  | opening => exact hp
  | closing =>
    simp only
    split
    · exact List.mem_cons_of_mem _ hp
    · exact hp

-- A run only adds pairs.
theorem mem_found_foldl {s : Matching} {p : Pair} (hp : p ∈ s.found) (xs : List Site) :
    p ∈ (xs.foldl step s).found := by
  induction xs generalizing s with
  | nil => exact hp
  | cons x xs ih => exact ih (mem_found_step hp x)

-- If the stretch between two brackets of one kind leaves the waiting openers as they were, the two
-- are paired, and the openers around them still wait.
theorem foldl_step_around {inside : List Site}
    (hin : ∀ s : Matching, (inside.foldl step s).pending = s.pending) {o c : Site}
    (ho : o.side = .opening) (hc : c.side = .closing) (hk : o.bracket = c.bracket)
    (s : Matching) :
    (o :: inside ++ [c]).foldl step s =
      ⟨s.pending, ⟨o.delimiter s.pending.depth, c.delimiter s.pending.depth⟩ ::
        (inside.foldl step (s.step o)).found⟩ := by
  have hopen : (s.step o).pending = s.pending.push (o.delimiter s.pending.depth) := by
    unfold step
    rw [ho]
  have hpending : (inside.foldl step (s.step o)).pending =
      s.pending.push (o.delimiter s.pending.depth) := by
    rw [hin, hopen]
  have hkind : ∀ d, Bracket.opener? (c.delimiter d).character =
      some (o.delimiter s.pending.depth).character := by
    intro d
    unfold Site.delimiter
    rw [hc, ho, hk, Bracket.opener?, Bracket.read?_character]
  rw [List.cons_append, List.foldl_cons, List.foldl_append, List.foldl_cons, List.foldl_nil]
  apply step_of_close?_eq_some hc
  rw [hpending, Pending.close?_push _ (hkind _)]
  rfl

-- A well-nested stretch leaves the waiting openers as they were, whatever they are.
theorem pending_foldl_of_wellNested {xs : List Site}
    (h : WellNested (xs.map (fun x => (x.bracket, x.side)))) (s : Matching) :
    (xs.foldl step s).pending = s.pending := by
  induction h using WellNested.induction_map generalizing s with
  | nil => rfl
  | @nest o c inside after k ho hc _ _ _ ihin ihafter =>
    rcases Prod.mk.inj ho with ⟨hok, hos⟩
    rcases Prod.mk.inj hc with ⟨hck, hcs⟩
    have hsplit : o :: inside ++ c :: after = (o :: inside ++ [c]) ++ after := by simp
    rw [hsplit, List.foldl_append, ihafter, foldl_step_around ihin hos hcs (hok.trans hck.symm)]

end Matching

-- Whatever stands around them, two brackets that belong together are paired.
theorem exists_pair_of_assigned {es : List (Nat × Bracket × Side)} {s : Span} (h : Assigned es s)
    (text : List UInt8) : ∃ p ∈ pairUp (es.map (siteOf text)),
      p.opener.position = placeAt text s.opener ∧ p.closer.position = placeAt text s.closer := by
  rcases h with ⟨k, before, inside, after, rfl, hin⟩
  have hstretch : WellNested ((inside.map (siteOf text)).map (fun x => (x.bracket, x.side))) := by
    rw [List.map_map]
    exact hin
  have hsplit : (before ++ ((s.opener, k, .opening) :: inside ++
      (s.closer, k, .closing) :: after)).map (siteOf text) =
      before.map (siteOf text) ++ ((siteOf text (s.opener, k, .opening) ::
        inside.map (siteOf text) ++ [siteOf text (s.closer, k, .closing)]) ++
          after.map (siteOf text)) := by simp
  have haround := Matching.foldl_step_around (o := siteOf text (s.opener, k, .opening))
    (c := siteOf text (s.closer, k, .closing)) (Matching.pending_foldl_of_wellNested hstretch)
    rfl rfl rfl
  unfold pairUp
  rw [hsplit, Matching.run_append, List.foldl_append, haround]
  exact ⟨_, List.mem_reverse.mpr (Matching.mem_found_foldl List.mem_cons_self _), rfl, rfl⟩

/-! ## 3. The matching of balanced brackets -/

namespace IsMatching

variable {t : Bracketing} {n : Nat} {spans : List Span}

theorem eq_of_closer_eq (h : IsMatching t n spans) {s e : Span} (hs : s ∈ spans) (he : e ∈ spans)
    (heq : s.closer = e.closer) : s = e := by
  have : Std.Symm (fun s e : Span => s.closer ≠ e.closer) := ⟨fun _ _ hne => hne.symm⟩
  by_contra hne
  exact (h.ordered.imp Nat.ne_of_lt).forall hs he hne heq

theorem eq_of_opener_eq (h : IsMatching t n spans) {s e : Span} (hs : s ∈ spans) (he : e ∈ spans)
    (heq : s.opener = e.opener) : s = e := by
  apply h.eq_of_closer_eq hs he
  have hso := h.opener_lt_closer hs
  have heo := h.opener_lt_closer he
  rcases Nat.lt_trichotomy s.closer e.closer with hlt | hceq | hgt
  · rcases h.before_or_enclosed hs he hlt with hb | ⟨hi, -⟩ <;> omega
  · exact hceq
  · rcases h.before_or_enclosed he hs hgt with hb | ⟨hi, -⟩ <;> omega

theorem nodup_map_opener (h : IsMatching t n spans) : (spans.map Span.opener).Nodup := by
  have hnodup : spans.Nodup := h.ordered.imp fun hlt heq => by
    rw [heq] at hlt
    exact Nat.lt_irrefl _ hlt
  exact hnodup.map_on fun s hs e he => h.eq_of_opener_eq hs he

-- A span whose opener is live at the opener of another encloses the other.
theorem encloses_of_live (h : IsMatching t n spans) {s e : Span} (hs : s ∈ spans) (he : e ∈ spans)
    (hlive : Live spans s.opener e.opener) : s.Encloses e := by
  rcases h.innermost e he with ⟨-, k, -, hk⟩
  have hne := h.closer_ne_of_opens hk.opens hs
  have hso := h.opener_lt_closer hs
  have hopen := hlive.1
  have hcover := hlive.2 s hs
  refine ⟨hopen, ?_⟩
  rcases Nat.lt_trichotomy s.closer e.closer with hlt | heq | hgt
  · rcases h.before_or_enclosed hs he hlt with hb | ⟨hi, -⟩ <;> omega
  · rw [h.eq_of_closer_eq hs he heq] at hopen
    omega
  · exact hgt

-- If every opener has a span, the openers that are live at the opener of a span are those of the
-- spans around it.
theorem length_liveOpeners_eq_countP (h : IsMatching t n spans)
    (hall : ∀ {o k}, o < n → t o = some (k, .opening) → ∃ s ∈ spans, s.opener = o) {e : Span}
    (he : e ∈ spans) :
    (t.liveOpeners spans e.opener).length = spans.countP (fun s => decide (s.Encloses e)) := by
  have hen := (h.innermost e he).1
  have heo := h.opener_lt_closer he
  have hnodup : ((spans.filter (fun s => decide (s.Encloses e))).map Span.opener).Nodup :=
    h.nodup_map_opener.sublist (List.filter_sublist.map Span.opener)
  have hperm : (t.liveOpeners spans e.opener).Perm
      ((spans.filter (fun s => decide (s.Encloses e))).map Span.opener) := by
    rw [List.perm_ext_iff_of_nodup (t.pairwise_liveOpeners spans e.opener).nodup hnodup]
    intro j
    rw [List.mem_map]
    refine ⟨fun hj => ?_, fun hj => ?_⟩
    · rcases Bracketing.mem_liveOpeners.mp hj with ⟨⟨k, hopen⟩, hlive⟩
      have hjo := hlive.1
      rcases hall (by omega) hopen with ⟨s, hs, rfl⟩
      have hse := h.encloses_of_live hs he hlive
      exact ⟨s, List.mem_filter.mpr ⟨hs, decide_eq_true hse⟩, rfl⟩
    · rcases hj with ⟨s, hs, rfl⟩
      rcases List.mem_filter.mp hs with ⟨hs, hse⟩
      exact h.mem_liveOpeners_of_encloses hs he (of_decide_eq_true hse)
  rw [hperm.length_eq, List.length_map, List.countP_eq_length_filter]

end IsMatching

/-! ## 4. Balanced texts -/

section

variable {t : Bracketing} {text : List UInt8} {n : Nat} {spans : List Span} {depth : Span → Nat}

/-- The offsets of the openers of a list of brackets. -/
def openers (es : List (Nat × Bracket × Side)) : List Nat :=
  (es.filter (fun e => decide (e.2.2 = .opening))).map Prod.fst

theorem mem_openers_entries {o : Nat} :
    o ∈ openers (t.entries n) ↔ o < n ∧ ∃ k, t o = some (k, .opening) := by
  unfold openers
  rw [List.mem_map]
  refine ⟨fun h => ?_, fun h => ?_⟩
  · rcases h with ⟨⟨i, k, side⟩, he, rfl⟩
    rcases List.mem_filter.mp he with ⟨he, hside⟩
    rw [decide_eq_true_eq] at hside
    change side = .opening at hside
    subst hside
    rcases Bracketing.mem_entries.mp he with ⟨hi, hk⟩
    exact ⟨hi, k, hk⟩
  · rcases h with ⟨ho, k, hk⟩
    have hmem := Bracketing.mem_entries.mpr ⟨ho, hk⟩
    exact ⟨(o, k, .opening), List.mem_filter.mpr ⟨hmem, rfl⟩, rfl⟩

theorem nodup_openers_entries (t : Bracketing) (n : Nat) : (openers (t.entries n)).Nodup := by
  have hsorted := (t.pairwise_entries n).filter (fun e => decide (e.2.2 = .opening))
  unfold openers
  rw [List.Nodup, List.pairwise_map]
  exact hsorted.imp Nat.ne_of_lt

theorem Assigned.lt_of_entries {s : Span} (hs : Assigned (t.entries n) s) :
    s.opener < n ∧ s.closer < n := by
  rcases hs with ⟨k, before, inside, after, hes, -⟩
  have hopener : (s.opener, k, .opening) ∈ t.entries n := by
    rw [hes]
    simp
  have hcloser : (s.closer, k, .closing) ∈ t.entries n := by
    rw [hes]
    simp
  exact ⟨(Bracketing.mem_entries.mp hopener).1, (Bracketing.mem_entries.mp hcloser).1⟩

theorem mem_of_assigned (h : IsMatching t n spans) (hn : n ≤ text.length)
    (heq : pairUp ((t.entries n).map (siteOf text)) = spans.map (fun e => e.pair text (depth e)))
    {s : Span} (hs : Assigned (t.entries n) s) : s ∈ spans := by
  rcases exists_pair_of_assigned hs text with ⟨p, hp, hpo, hpc⟩
  rw [heq] at hp
  rcases List.mem_map.mp hp with ⟨e, he, rfl⟩
  have hlt := hs.lt_of_entries
  have heo := h.opener_lt_closer he
  have hec := (h.innermost e he).1
  have hopener : e.opener = s.opener := (placeAt_inj (by omega) (by omega)).mp hpo
  have hcloser : e.closer = s.closer := (placeAt_inj (by omega) (by omega)).mp hpc
  exact Span.ext hopener hcloser ▸ he

theorem exists_opener_eq (hw : WellNested ((t.entries n).map Prod.snd))
    (hmem : ∀ {s}, Assigned (t.entries n) s → s ∈ spans) {o : Nat} {k : Bracket} (ho : o < n)
    (hk : t o = some (k, .opening)) : ∃ s ∈ spans, s.opener = o := by
  rcases hw.exists_assigned (Bracketing.mem_entries.mpr ⟨ho, hk⟩) with ⟨c, hc⟩
  exact ⟨⟨o, c⟩, hmem hc, rfl⟩

-- A matching that has all the spans of the word has no others: each opener has one already.
theorem IsMatching.assigned_of_mem (h : IsMatching t n spans)
    (hw : WellNested ((t.entries n).map Prod.snd))
    (hmem : ∀ {s}, Assigned (t.entries n) s → s ∈ spans) {s : Span} (hs : s ∈ spans) :
    Assigned (t.entries n) s := by
  rcases h.innermost s hs with ⟨hn, k, -, hk⟩
  have hlt := hk.live.1
  rcases hw.exists_assigned (Bracketing.mem_entries.mpr ⟨by omega, hk.opens⟩) with ⟨c, hc⟩
  rw [h.eq_of_opener_eq hs (hmem hc) rfl]
  exact hc

theorem IsMatching.perm_openers (h : IsMatching t n spans)
    (hall : ∀ {o k}, o < n → t o = some (k, .opening) → ∃ s ∈ spans, s.opener = o) :
    (spans.map Span.opener).Perm (openers (t.entries n)) := by
  rw [List.perm_ext_iff_of_nodup h.nodup_map_opener (nodup_openers_entries t n)]
  intro o
  rw [mem_openers_entries, List.mem_map]
  refine ⟨fun ho => ?_, fun ho => ?_⟩
  · rcases ho with ⟨s, hs, rfl⟩
    rcases h.innermost s hs with ⟨hn, k, -, hk⟩
    have hlt := hk.live.1
    exact ⟨by omega, k, hk.opens⟩
  · rcases ho with ⟨ho, k, hk⟩
    exact hall ho hk

end

/-- **Balance.** If the delimiters of a text form a well-nested word, a scan gives exactly one pair
for every opener and pairs it with the closer that belongs to it. Pairs inside another come before
it, and each pair is as deep as the number of pairs around it. -/
theorem scan_of_wellNested (g : Grammar) (resolve : Bool) (text : List UInt8)
    (hw : WellNested (((scanDelimiters g resolve text).entries text.length).map Prod.snd)) :
    ∃ spans : List Span,
      scan g resolve text =
        spans.map (fun e => e.pair text (spans.countP (fun s => decide (s.Encloses e)))) ∧
      (spans.map Span.opener).Perm (openers ((scanDelimiters g resolve text).entries text.length)) ∧
      (∀ s, s ∈ spans ↔ Assigned ((scanDelimiters g resolve text).entries text.length) s) ∧
      spans.Pairwise (fun s e => ¬ s.Encloses e) := by
  rcases Bracketing.exists_isMatching (reads_scanDelimiters g resolve text) text.length with
    ⟨spans, h, heq⟩
  have hmem : ∀ {s}, Assigned ((scanDelimiters g resolve text).entries text.length) s → s ∈ spans :=
    fun hs => mem_of_assigned h (Nat.le_refl _) heq hs
  have hall : ∀ {o k}, o < text.length → scanDelimiters g resolve text o = some (k, .opening) →
      ∃ s ∈ spans, s.opener = o := fun ho hk => exists_opener_eq hw hmem ho hk
  refine ⟨spans, ?_, h.perm_openers hall, fun s => ⟨h.assigned_of_mem hw hmem, hmem⟩, ?_⟩
  · rw [scan_eq_pairUp_entries, heq]
    apply List.map_congr_left
    intro e he
    rw [h.length_liveOpeners_eq_countP hall he]
  · apply h.ordered.imp
    intro s e hlt hse
    have hgt := hse.2
    omega

/-- A template argument with an arrow in it, and a comment with a closer in it. -/
def templateText : List UInt8 :=
  [0x6d, 0x3c, 0x5b, 0x6b, 0x2d, 0x3e, 0x28, 0x76, 0x29, 0x5d, 0x3e, 0x2f, 0x2a, 0x29, 0x2a, 0x2f]

theorem scan_templateText :
    WellNested (((scanDelimiters .cpp true templateText).entries templateText.length).map
        Prod.snd) ∧
      ∃ spans : List Span, scan .cpp true templateText = spans.map (fun e =>
          e.pair templateText (spans.countP (fun s => decide (s.Encloses e)))) ∧
        (spans.map Span.opener).Perm [1, 2, 6] ∧ ⟨2, 9⟩ ∈ spans := by
  have hes : (scanDelimiters .cpp true templateText).entries templateText.length =
      [(1, .angle, .opening), (2, .square, .opening), (6, .round, .opening),
        (8, .round, .closing), (9, .square, .closing), (10, .angle, .closing)] := by
    decide +kernel
  have hround : WellNested [(.round, .opening), (.round, .closing)] := .nest .round .nil .nil
  have hsquare := WellNested.nest .square hround .nil
  have hw := WellNested.nest .angle hsquare .nil
  rw [hes]
  refine ⟨hw, ?_⟩
  rcases scan_of_wellNested .cpp true templateText (by rwa [hes]) with
    ⟨spans, heq, hperm, hmem, -⟩
  rw [hes] at hperm hmem
  exact ⟨spans, heq, hperm, (hmem ⟨2, 9⟩).mpr ⟨.square, [(1, .angle, .opening)],
    [(6, .round, .opening), (8, .round, .closing)], [(10, .angle, .closing)], rfl, hround⟩⟩

end Nesting
