import Nesting.Proofs.Angle.Collector

/-!
# Scanning the beginning of a text

A scan of the beginning of a text finds the pairs that a scan of the whole text finds there. Without
angle brackets this holds for every beginning. With them a closer far away can still turn an opener
to a delimiter, or the end of a statement take that away, so it holds for the beginnings that end
with the end of a statement: nothing is left open there for later bytes to decide.
-/

namespace Nesting

/-! ## 1. The matcher in two stretches -/

namespace Matching

/-- The matching with older pairs behind its own. -/
def behind (s : Matching) (old : List Pair) : Matching :=
  { s with found := s.found ++ old }

theorem step_behind (s : Matching) (old : List Pair) (x : Site) :
    (s.behind old).step x = (s.step x).behind old := by
  unfold step
  cases x.side with
  | opening => rfl
  | closing =>
    have hpending : (s.behind old).pending = s.pending := rfl
    simp only [hpending]
    cases s.pending.close? (x.delimiter s.pending.depth) with
    | none => rfl
    | some found => rfl

-- The pairs found so far have no part in what is found later.
theorem foldl_step_behind (s : Matching) (old : List Pair) (xs : List Site) :
    xs.foldl step (s.behind old) = (xs.foldl step s).behind old :=
  List.foldl_hom (behind · old) (fun s x => step_behind s old x)

theorem closer_of_mem_step {s : Matching} {x : Site} {p : Pair} (hp : p ∈ (s.step x).found) :
    p ∈ s.found ∨ p.closer.position = x.position := by
  cases hside : x.side with
  | opening =>
    unfold step at hp
    rw [hside] at hp
    exact Or.inl hp
  | closing =>
    cases hclose : s.pending.close? (x.delimiter s.pending.depth) with
    | none =>
      rw [step_of_close?_eq_none hside hclose] at hp
      exact Or.inl hp
    | some found =>
      rw [step_of_close?_eq_some hside hclose] at hp
      rcases List.mem_cons.mp hp with rfl | hp
      · exact Or.inr (Pending.position_of_close? hclose)
      · exact Or.inl hp

-- A new pair closes at one of the sites.
theorem closer_of_mem_foldl {s : Matching} {xs : List Site} {p : Pair}
    (hp : p ∈ (xs.foldl step s).found) :
    p ∈ s.found ∨ ∃ x ∈ xs, p.closer.position = x.position := by
  induction xs generalizing s with
  | nil => exact Or.inl hp
  | cons x xs ih =>
    rcases ih hp with hstep | ⟨y, hy, hpos⟩
    · rcases closer_of_mem_step hstep with hold | hpos
      · exact Or.inl hold
      · exact Or.inr ⟨x, List.mem_cons_self, hpos⟩
    · exact Or.inr ⟨y, List.mem_cons_of_mem x hy, hpos⟩

end Matching

theorem pairUp_append (xs ys : List Site) :
    pairUp (xs ++ ys) =
      pairUp xs ++ (ys.foldl Matching.step ⟨(Matching.run xs).pending, []⟩).found.reverse := by
  have hbehind : Matching.run xs = Matching.behind ⟨(Matching.run xs).pending, []⟩
      (Matching.run xs).found := rfl
  unfold pairUp
  rw [Matching.run_append, hbehind, Matching.foldl_step_behind]
  exact List.reverse_append

theorem closer_of_mem_pairUp {xs : List Site} {p : Pair} (hp : p ∈ pairUp xs) :
    ∃ x ∈ xs, p.closer.position = x.position := by
  rcases Matching.closer_of_mem_foldl (List.mem_reverse.mp hp) with hp | h
  · exact absurd hp List.not_mem_nil
  · exact h

/-! ## 2. A text in two parts -/

/-- The places at which a scan takes an angle bracket for a delimiter. -/
def scanCounts (g : Grammar) (resolve : Bool) (text : List UInt8) : Position → Bool :=
  fun p => (scanMarks g resolve text).any (fun m => decide (m.position = p))

theorem sites_scanMarks (g : Grammar) (resolve : Bool) (text : List UInt8) :
    sites (scanMarks g resolve text) (cells g text) =
      (cells g text).filterMap (Cell.site? (scanCounts g resolve text)) := by
  rw [sites_eq_filterMap, speaksFor_scanMarks]
  rfl

theorem scan_eq_pairUp_filterMap (g : Grammar) (resolve : Bool) (text : List UInt8) :
    scan g resolve text =
      pairUp ((cells g text).filterMap (Cell.site? (scanCounts g resolve text))) := by
  unfold scan matchDelimiters
  rw [sites_scanMarks]

/-- The cells of the second part of a text. -/
def cellsAfter (g : Grammar) (first second : List UInt8) : List Cell :=
  (first.foldl (Reader.advance g) .initial).cells g second

theorem cells_append (g : Grammar) (first second : List UInt8) :
    cells g (first ++ second) = cells g first ++ cellsAfter g first second :=
  Reader.cells_append g .initial first second

/-- The delimiters that a scan of the whole text finds in its second part. -/
def sitesAfter (g : Grammar) (resolve : Bool) (first second : List UInt8) : List Site :=
  (cellsAfter g first second).filterMap (Cell.site? (scanCounts g resolve (first ++ second)))

section

variable {g : Grammar} {first second : List UInt8} {x : Cell}

theorem placeAt_append_left {i : Nat} (hi : i ≤ first.length) :
    placeAt (first ++ second) i = placeAt first i := by
  unfold placeAt
  rw [List.take_append_of_le_length hi]

theorem position_of_mem_cells {text : List UInt8} (hx : x ∈ cells g text) :
    ∃ i < text.length, x.position = placeAt text i := by
  obtain ⟨i, hi⟩ := List.mem_iff_getElem?.mp hx
  rw [getElem?_cells] at hi
  obtain ⟨b, hb, rfl⟩ := Option.map_eq_some_iff.mp hi
  obtain ⟨hlt, -⟩ := List.getElem?_eq_some_iff.mp hb
  exact ⟨i, hlt, rfl⟩

theorem position_lt_of_mem_cells (hx : x ∈ cells g first) :
    x.position < placeAt first first.length := by
  obtain ⟨i, hi, hpos⟩ := position_of_mem_cells hx
  rw [hpos]
  exact placeAt_lt_placeAt hi (Nat.le_refl _)

theorem le_position_of_mem_cellsAfter (hx : x ∈ cellsAfter g first second) :
    placeAt first first.length ≤ x.position := by
  obtain ⟨j, hj⟩ := List.mem_iff_getElem?.mp hx
  have hcell := getElem?_cells g (first ++ second) (first.length + j)
  rw [cells_append, List.getElem?_append_right (by rw [length_cells]; omega), length_cells,
    Nat.add_sub_cancel_left, hj] at hcell
  obtain ⟨b, hb, heq⟩ := Option.map_eq_some_iff.mp hcell.symm
  obtain ⟨hlt, -⟩ := List.getElem?_eq_some_iff.mp hb
  have hstart : placeAt (first ++ second) first.length = placeAt first first.length :=
    placeAt_append_left (Nat.le_refl _)
  rw [← hstart, ← heq, Position.le_iff_lt_or_eq]
  by_cases hzero : j = 0
  · right
    rw [hzero, Nat.add_zero]
  · left
    exact placeAt_lt_placeAt (by omega) (Nat.le_of_lt hlt)

theorem Cell.position_of_site? {counts : Position → Bool} {y : Site} (h : x.site? counts = some y) :
    y.position = x.position := by
  unfold site? at h
  split at h
  · split at h
    · cases h
      rfl
    · cases h
  · cases h

end

/-- The marks of the first part are the same with the second part after it, and the further marks
lie in the second part. -/
def MarksExtend (g : Grammar) (resolve : Bool) (first second : List UInt8) : Prop :=
  ∃ later, scanMarks g resolve (first ++ second) = scanMarks g resolve first ++ later ∧
    ∀ m ∈ later, placeAt first first.length ≤ m.position

section

variable {g : Grammar} {resolve : Bool} {first second : List UInt8}

-- A mark at the end of the first part or later says nothing about the places before.
theorem MarksExtend.scanCounts_eq (h : MarksExtend g resolve first second) {p : Position}
    (hp : p < placeAt first first.length) :
    scanCounts g resolve (first ++ second) p = scanCounts g resolve first p := by
  obtain ⟨later, hmarks, hlater⟩ := h
  have hnone : later.any (fun m => decide (m.position = p)) = false := by
    rw [List.any_eq_false]
    intro m hm heq
    rw [decide_eq_true_eq] at heq
    have hle := hlater m hm
    rw [heq] at hle
    exact Position.not_lt.mpr hle hp
  unfold scanCounts
  rw [hmarks, List.any_append, hnone, Bool.or_false]

/-- A scan of the whole text gives the pairs of its first part and then those that the delimiters of
the second part make. -/
theorem MarksExtend.scan_append (h : MarksExtend g resolve first second) :
    scan g resolve (first ++ second) = scan g resolve first ++
      ((sitesAfter g resolve first second).foldl Matching.step
        ⟨(Matching.run ((cells g first).filterMap
          (Cell.site? (scanCounts g resolve first)))).pending, []⟩).found.reverse := by
  have hbefore : (cells g first).filterMap (Cell.site? (scanCounts g resolve (first ++ second))) =
      (cells g first).filterMap (Cell.site? (scanCounts g resolve first)) := by
    apply List.filterMap_congr
    intro x hx
    unfold Cell.site?
    rw [h.scanCounts_eq (position_lt_of_mem_cells hx)]
  rw [scan_eq_pairUp_filterMap, cells_append, List.filterMap_append, hbefore, pairUp_append,
    ← scan_eq_pairUp_filterMap]
  rfl

end

/-! ## 3. Pairs of the first part -/

/-- The pair closes at one of the first `n` bytes of the text. -/
def Pair.ClosesWithin (text : List UInt8) (n : Nat) (p : Pair) : Prop :=
  ∃ i < n, p.closer.position = placeAt text i

instance (text : List UInt8) (n : Nat) (p : Pair) : Decidable (p.ClosesWithin text n) :=
  inferInstanceAs (Decidable (∃ i < n, _))

/-- What follows the first `n` bytes changes nothing about the pairs that close among them. -/
def StableAt (g : Grammar) (resolve : Bool) (text : List UInt8) (n : Nat) : Prop :=
  scan g resolve (text.take n) <+: scan g resolve text ∧
    scan g resolve (text.take n) =
      (scan g resolve text).filter (fun p => decide (p.ClosesWithin text n))

section

variable {g : Grammar} {resolve : Bool} {first second : List UInt8}

theorem closesWithin_of_mem_scan (second : List UInt8) {p : Pair} (hp : p ∈ scan g resolve first) :
    p.ClosesWithin (first ++ second) first.length := by
  rw [scan_eq_pairUp_filterMap] at hp
  obtain ⟨y, hy, hpos⟩ := closer_of_mem_pairUp hp
  obtain ⟨x, hx, hsite⟩ := List.mem_filterMap.mp hy
  obtain ⟨i, hi, hplace⟩ := position_of_mem_cells hx
  refine ⟨i, hi, ?_⟩
  rw [placeAt_append_left (Nat.le_of_lt hi), hpos, Cell.position_of_site? hsite, hplace]

theorem not_closesWithin_of_mem_sitesAfter {y : Site} {p : Pair}
    (hy : y ∈ sitesAfter g resolve first second) (hpos : p.closer.position = y.position) :
    ¬ p.ClosesWithin (first ++ second) first.length := by
  intro hwithin
  obtain ⟨i, hi, hclose⟩ := hwithin
  obtain ⟨x, hx, hsite⟩ := List.mem_filterMap.mp hy
  have hle := le_position_of_mem_cellsAfter hx
  rw [← Cell.position_of_site? hsite, ← hpos, hclose, placeAt_append_left (Nat.le_of_lt hi)] at hle
  exact Position.not_lt.mpr hle (placeAt_lt_placeAt hi (Nat.le_refl _))

theorem MarksExtend.stableAt (h : MarksExtend g resolve first second) :
    StableAt g resolve (first ++ second) first.length := by
  have hbefore : ∀ p ∈ scan g resolve first,
      decide (p.ClosesWithin (first ++ second) first.length) = true :=
    fun p hp => decide_eq_true (closesWithin_of_mem_scan second hp)
  have hafter : ∀ s : Matching, s.found = [] →
      ∀ p ∈ ((sitesAfter g resolve first second).foldl Matching.step s).found.reverse,
        ¬ decide (p.ClosesWithin (first ++ second) first.length) = true := by
    intro s hs p hp
    rw [decide_eq_true_eq]
    rcases Matching.closer_of_mem_foldl (List.mem_reverse.mp hp) with hold | ⟨y, hy, hpos⟩
    · rw [hs] at hold
      exact absurd hold List.not_mem_nil
    · exact not_closesWithin_of_mem_sitesAfter hy hpos
  unfold StableAt
  rw [List.take_left, h.scan_append]
  refine ⟨List.prefix_append _ _, ?_⟩
  rw [List.filter_append, List.filter_eq_self.mpr hbefore,
    List.filter_eq_nil_iff.mpr (hafter _ rfl), List.append_nil]

end

/-! ## 4. Marks of the first part -/

theorem marksExtend_of_not_resolve (g : Grammar) (first second : List UInt8) :
    MarksExtend g false first second :=
  ⟨[], rfl, fun _ hm => absurd hm List.not_mem_nil⟩

/-- If nothing waits at the end of the first part, its marks are settled, and the collector goes on
behind them. -/
theorem angleMarks_append {g : Grammar} (hg : g.supportsAngles = true) {first : List UInt8}
    (hw : AngleMark.waiting (Collector.run g first).marks = []) (second : List UInt8) :
    angleMarks g (first ++ second) = angleMarks g first ++
      ((cellsAfter g first second).foldl (Collector.step g.boundaries)
        ⟨[], 0, (Collector.run g first).last⟩).marks.reverse := by
  rw [angleMarks_eq_reverse_run hg, angleMarks_eq_reverse_run hg, Collector.run_append,
    (Collector.sound_run g first).eq_behind hw, Collector.foldl_step_behind hw]
  exact List.reverse_append

theorem marksExtend_of_waiting {g : Grammar} (hg : g.supportsAngles = true) {first : List UInt8}
    (hw : AngleMark.waiting (Collector.run g first).marks = []) (second : List UInt8) :
    MarksExtend g true first second := by
  refine ⟨_, angleMarks_append hg hw second, fun m hm => ?_⟩
  -- A mark of the second part is made for the place of one of its cells.
  have hsub := Collector.foldl_step_marks_sublist g.boundaries (cellsAfter g first second)
    ⟨[], 0, (Collector.run g first).last⟩
  have hmem := hsub.subset (List.mem_reverse.mp hm)
  rw [List.append_nil, List.mem_reverse] at hmem
  obtain ⟨x, hx, hmark⟩ := List.mem_filterMap.mp hmem
  rw [(Cell.mark?_eq_some_iff.mp hmark).2.2]
  exact le_position_of_mem_cellsAfter hx

/-- **Prefixes.** A scan of the first `n` bytes gives exactly the pairs of the whole text that close
there, as a prefix: without angle brackets for every `n`, with them for every `n` after the end of a
statement. -/
theorem scan_stableAt (g : Grammar) (text : List UInt8) :
    (∀ n ≤ text.length, StableAt g false text n) ∧
      (g.supportsAngles = true → ∀ n, endsStatement g text n = true →
        StableAt g true text (n + 1)) := by
  have hsplit : ∀ {resolve n}, n ≤ text.length →
      MarksExtend g resolve (text.take n) (text.drop n) → StableAt g resolve text n := by
    intro resolve n hn h
    have hstable := h.stableAt
    rw [List.take_append_drop, List.length_take, Nat.min_eq_left hn] at hstable
    exact hstable
  constructor
  · intro n hn
    exact hsplit hn (marksExtend_of_not_resolve g _ _)
  · intro hg n hends
    have hw := Collector.waiting_run_of_endsStatement hends
    exact hsplit (lt_length_of_endsStatement hends) (marksExtend_of_waiting hg hw _)

/-- A comparison before the end of a statement, a template before the next, and a bracket that
closes after both. -/
def unfinishedText : List UInt8 :=
  [0x66, 0x3c, 0x5b, 0x61, 0x3b, 0x28, 0x62, 0x29, 0x3e, 0x63, 0x3c, 0x64, 0x3e, 0x3b, 0x5d,
    0x78, 0x3e]

theorem scan_unfinishedText :
    endsStatement .cpp unfinishedText 13 = true ∧ StableAt .cpp true unfinishedText 14 ∧
      (scan .cpp true (unfinishedText.take 14)).map Pair.text = ["(1.6-)1.8@1", "<1.11->1.13@1"] ∧
        StableAt .cpp false unfinishedText 7 := by
  have hends : endsStatement .cpp unfinishedText 13 = true := by decide
  obtain ⟨hplain, hangles⟩ := scan_stableAt .cpp unfinishedText
  refine ⟨hends, hangles rfl 13 hends, ?_, hplain 7 (by decide)⟩
  decide +kernel

end Nesting
