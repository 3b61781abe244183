import Nesting.Proofs.Checked.Angle
import Nesting.Proofs.Pairing.Run
import Nesting.Scan

/-!
# Scanning with checked operations

The second pass pairs the delimiters. Its openers stand in a list from the outermost to the
innermost, which a closer searches by index and cuts off. With it the whole scan runs on words, and
no text that fits into memory makes it fault.
-/

namespace Nesting

/-! ## 1. What a closer finds -/

-- Either the character closes nothing, or no opener of its kind waits, or there is a last one.
theorem Pending.close?_cases (s : Pending) (d : Delimiter) :
    (Bracket.opener? d.character = none ∧ s.close? d = none) ∨
    (∃ c, Bracket.opener? d.character = some c ∧ (∀ e ∈ s.toList, e.character ≠ c) ∧
      s.close? d = none) ∨
    ∃ below o above, Bracket.opener? d.character = some o.character ∧
      s.toList = below ++ o :: above ∧ (∀ e ∈ above, e.character ≠ o.character) ∧
      s.close? d = some (⟨o, { d with depth := o.depth }⟩, ⟨below.reverse⟩) := by
  cases hd : Bracket.opener? d.character with
  | none =>
    refine .inl ⟨rfl, ?_⟩
    unfold close?
    rw [hd]
    rfl
  | some c =>
    rcases exists_last_or_forall_not (fun e => e.character = c) s.toList with
      hnone | ⟨below, o, above, hs, rfl, habove⟩
    · exact .inr (.inl ⟨c, rfl, hnone, close?_eq_none hd hnone⟩)
    · exact .inr (.inr ⟨below, o, above, rfl, hs, habove, close?_eq_some hs hd habove⟩)

namespace Checked

/-- The last index before `i` at which an opener of the given character stands. -/
def lastIndex (entries : List Delimiter) (c : Char) : Nat → Except Fault (Option Nat)
  | 0 => .ok none
  | i + 1 => do
    let d ← get entries i
    if d.character = c then return some i else lastIndex entries c i

/-- The pair that a closer makes, and the openers that it leaves. -/
def matchCloser (entries : List Delimiter) (closer : Delimiter) :
    Except Fault (Option Pair × List Delimiter) := do
  match Bracket.opener? closer.character with
  | none => return (none, entries)
  | some wanted =>
    let index ← lastIndex entries wanted entries.length
    match index with
    | none => return (none, entries)
    | some found =>
      let kept ← add found 1
      -- How many openers are given up is only reported.
      let above ← sub entries.length found
      let _ ← sub above 1
      match (entries.take kept).getLast? with
      | none => return (none, entries.take kept)
      | some opener =>
        return (some ⟨opener, { closer with depth := opener.depth }⟩, (entries.take kept).dropLast)

section

variable {entries below above : List Delimiter} {o : Delimiter} {c : Char} {i : Nat}

theorem lastIndex_eq_none (h : ∀ e ∈ entries, e.character ≠ c) (hi : i ≤ entries.length) :
    lastIndex entries c i = .ok none := by
  induction i with
  | zero => rfl
  | succ i ih =>
    unfold lastIndex
    rw [get_eq_ok (List.getElem?_eq_getElem hi), ok_bind, if_neg (h _ (List.getElem_mem hi))]
    exact ih (Nat.le_of_succ_le hi)

theorem lastIndex_eq_some (h : ∀ e ∈ above, e.character ≠ o.character) {k : Nat}
    (hk : k ≤ above.length) :
    lastIndex (below ++ o :: above) o.character (below.length + 1 + k) =
      .ok (some below.length) := by
  induction k with
  | zero =>
    show (get _ below.length >>= _) = _
    rw [get_append_cons, ok_bind, if_pos rfl]
    rfl
  | succ k ih =>
    have hget : (below ++ o :: above)[below.length + 1 + k]? = some above[k] := by
      rw [List.getElem?_append_right (by omega),
        show below.length + 1 + k - below.length = k + 1 by omega, List.getElem?_cons_succ,
        List.getElem?_eq_getElem hk]
    show (get _ (below.length + 1 + k) >>= _) = _
    rw [get_eq_ok hget, ok_bind, if_neg (h _ (List.getElem_mem hk))]
    exact ih (Nat.le_of_succ_le hk)

end

/-- What the pairing without indices says of a closer, as a list of openers. -/
def closed (s : Pending) (d : Delimiter) : Option Pair × List Delimiter :=
  match s.close? d with
  | some (pair, rest) => (some pair, rest.toList)
  | none => (none, s.toList)

theorem matchCloser_eq_ok {s : Pending} {d : Delimiter} (h : s.toList.length < Word.limit) :
    matchCloser s.toList d = .ok (closed s d) := by
  unfold matchCloser closed
  rcases s.close?_cases d with ⟨hd, hclose⟩ | ⟨c, hd, hnone, hclose⟩ |
    ⟨below, o, above, hd, hs, habove, hclose⟩
  · rw [hd, hclose]
    rfl
  · rw [hd, hclose]
    show (lastIndex _ _ _ >>= _) = _
    rw [lastIndex_eq_none hnone (Nat.le_refl _)]
    rfl
  · have hlength : s.toList.length = below.length + 1 + above.length := by
      rw [hs, List.length_append, List.length_cons]
      omega
    have hindex : lastIndex s.toList o.character s.toList.length = .ok (some below.length) := by
      rw [hlength, hs]
      exact lastIndex_eq_some habove (Nat.le_refl _)
    have htake : s.toList.take (below.length + 1) = below ++ [o] := by
      rw [hs, List.take_length_add_append]
      rfl
    rw [hd, hclose]
    show (lastIndex _ _ _ >>= _) = _
    rw [hindex, ok_bind]
    show (add below.length 1 >>= _) = _
    rw [add_eq_ok (by omega), ok_bind, sub_eq_ok (by omega), ok_bind, sub_eq_ok (by omega), ok_bind,
      htake, List.getLast?_concat, List.dropLast_concat]
    show _ = Except.ok (_, below.reverse.reverse)
    rw [List.reverse_reverse]
    rfl

theorem length_closed_le (s : Pending) (d : Delimiter) :
    (closed s d).2.length ≤ s.toList.length := by
  unfold closed
  rcases s.close?_cases d with ⟨-, hclose⟩ | ⟨-, -, -, hclose⟩ | ⟨below, o, above, -, hs, -, hclose⟩
  · rw [hclose]
  · rw [hclose]
  · rw [hclose, hs]
    show below.reverse.reverse.length ≤ _
    rw [List.reverse_reverse, List.length_append]
    exact Nat.le_add_right _ _

/-! ## 2. Pairing -/

structure Matcher where
  marks : List AngleMark
  /-- The openers that wait, outermost first. -/
  entries : List Delimiter
  /-- Oldest first. -/
  pairs : List Pair
  deriving DecidableEq, Repr

namespace Matcher

/-- The matcher after a delimiter. -/
def take (room : Collection → Nat → Bool) (s : Matcher) (x : Site) : Except Fault Matcher := do
  let d := x.delimiter s.entries.length
  match x.side with
  | .opening => return { s with entries := s.entries ++ [d] }
  | .closing =>
    let (pair, entries) ← matchCloser s.entries d
    match pair with
    | none => return { s with entries := entries }
    | some pair =>
      reserve room .pairs s.pairs.length
      return { s with entries := entries, pairs := s.pairs ++ [pair] }

/-- The matcher after a cell. Using up the marks takes no arithmetic. -/
def step (room : Collection → Nat → Bool) (s : Matcher) (x : Cell) : Except Fault Matcher :=
  match SiteFinder.step ⟨s.marks, []⟩ x with
  | ⟨marks, []⟩ => .ok { s with marks := marks }
  | ⟨marks, site :: _⟩ => take room { s with marks := marks } site

/-- The matcher stands where the matching `m` does, and knows of no more openers than bytes were
read. -/
structure Tracks (i : Nat) (s : Matcher) (m : Matching) : Prop where
  entries : s.entries = m.pending.toList
  pairs : s.pairs = m.found.reverse
  length : s.entries.length ≤ i

section

variable {i : Nat} {s : Matcher} {m : Matching} {room : Collection → Nat → Bool}

theorem Tracks.depth_eq (h : Tracks i s m) : m.pending.depth = s.entries.length := by
  rw [h.entries]
  exact List.length_reverse.symm

theorem Tracks.opening (h : Tracks i s m) {x : Site} (hx : x.side = .opening) :
    Yields room (s.take room x) fun s' => s'.marks = s.marks ∧ Tracks (i + 1) s' (m.step x) := by
  have hlength := h.length
  unfold Matcher.take Matching.step
  rw [hx, h.depth_eq]
  refine yields_ok ⟨rfl, ?_, h.pairs, ?_⟩
  · rw [Pending.toList_push, ← h.entries]
  · simp only [List.length_append, List.length_singleton]
    omega

theorem Tracks.closing (h : Tracks i s m) (hi : i < Word.limit) {x : Site}
    (hx : x.side = .closing) :
    Yields room (s.take room x) fun s' => s'.marks = s.marks ∧ Tracks (i + 1) s' (m.step x) := by
  have hlength := h.length
  have hle := length_closed_le m.pending (x.delimiter m.pending.depth)
  have hok : matchCloser s.entries (x.delimiter s.entries.length) =
      .ok (closed m.pending (x.delimiter m.pending.depth)) := by
    rw [h.depth_eq]
    rw [h.entries] at hlength ⊢
    exact matchCloser_eq_ok (by omega)
  unfold Matcher.take
  rw [hx]
  show Yields room (matchCloser s.entries (x.delimiter s.entries.length) >>= _) _
  rw [hok, ok_bind]
  rw [← h.entries] at hle
  unfold closed at hle ⊢
  cases hclose : m.pending.close? (x.delimiter m.pending.depth) with
  | none =>
    rw [Matching.step_of_close?_eq_none hx hclose]
    refine yields_ok ⟨rfl, rfl, h.pairs, ?_⟩
    rw [hclose] at hle
    exact Nat.le_succ_of_le (Nat.le_trans hle hlength)
  | some found =>
    rw [Matching.step_of_close?_eq_some hx hclose]
    rw [hclose] at hle
    refine (yields_reserve room .pairs s.pairs.length).bind fun _ _ => yields_ok ⟨rfl, rfl, ?_, ?_⟩
    · show s.pairs ++ [found.1] = (found.1 :: m.found).reverse
      rw [h.pairs, List.reverse_cons]
    · exact Nat.le_succ_of_le (Nat.le_trans hle hlength)

theorem Tracks.take (h : Tracks i s m) (hi : i < Word.limit) (x : Site) :
    Yields room (s.take room x) fun s' => s'.marks = s.marks ∧ Tracks (i + 1) s' (m.step x) := by
  cases hx : x.side with
  | opening => exact h.opening hx
  | closing => exact h.closing hi hx

/-- The matcher and the finder of delimiters side by side. -/
structure Finds (i : Nat) (s : Matcher) (f : SiteFinder) : Prop where
  marks : s.marks = f.marks
  tracks : Tracks i s (Matching.run f.found.reverse)

theorem finds_initial (marks : List AngleMark) : Finds 0 ⟨marks, [], []⟩ ⟨marks, []⟩ where
  marks := rfl
  tracks := ⟨rfl, rfl, Nat.le_refl 0⟩

-- Which marks are used up does not depend on what was found before.
theorem marks_step (f : SiteFinder) (x : Cell) :
    (SiteFinder.step ⟨f.marks, []⟩ x).marks = (f.step x).marks := by
  unfold SiteFinder.step
  cases x.kind with
  | skipped => rfl
  | code =>
    cases Bracket.ofByte? x.byte with
    | none => rfl
    | some b =>
      simp only [SiteFinder.take, SiteFinder.skipTo]
      split
      · rfl
      · split
        · rfl
        · split <;> rfl

/-- **One cell.** The matcher takes it without a fault, other than for want of room. -/
theorem Finds.step {f : SiteFinder} (h : Finds i s f) (hi : i < Word.limit) (x : Cell) :
    Yields room (s.step room x) (Finds (i + 1) · (f.step x)) := by
  have hfound := SiteFinder.step_found f x
  have hfresh : SiteFinder.step ⟨f.marks, []⟩ x =
      ⟨(f.step x).marks, (x.site? (AngleMark.speaksFor f.marks)).toList⟩ := by
    rw [← marks_step, ← List.append_nil (Option.toList _), ← SiteFinder.step_found ⟨f.marks, []⟩ x]
  have htracks := h.tracks
  unfold Matcher.step
  rw [h.marks, hfresh]
  cases hsite : x.site? (AngleMark.speaksFor f.marks) with
  | none =>
    rw [hsite] at hfound
    refine yields_ok ⟨rfl, ?_⟩
    rw [hfound]
    exact ⟨htracks.entries, htracks.pairs, Nat.le_succ_of_le htracks.length⟩
  | some site =>
    rw [hsite] at hfound
    have hrun : Matching.run (f.step x).found.reverse =
        (Matching.run f.found.reverse).step site := by
      rw [hfound, Option.toList_some, List.singleton_append, List.reverse_cons, Matching.run_append]
      rfl
    have hstart : Tracks i { s with marks := (f.step x).marks } (Matching.run f.found.reverse) :=
      ⟨htracks.entries, htracks.pairs, htracks.length⟩
    refine (hstart.take hi site).mono fun s' hs' => ⟨hs'.1, ?_⟩
    rw [hrun]
    exact hs'.2

end

end Matcher

/-- The pairs of a text whose angle brackets are delimiters where `marks` says so. -/
def matchDelimiters (room : Collection → Nat → Bool) (g : Grammar) (marks : List AngleMark)
    (text : List UInt8) : Except Fault (List Pair) := do
  let s ← pass g text (fun s _ x => Matcher.step room s x) ⟨marks, [], []⟩
  return s.pairs

/-- **Pairing.** The delimiters of a text are paired without a fault, other than for want of
room. -/
theorem matchDelimiters_yields {text : List UInt8} (htext : text.length + 1 < Word.limit)
    (g : Grammar) (room : Collection → Nat → Bool) (marks : List AngleMark) :
    Yields room (matchDelimiters room g marks text) (· = Nesting.matchDelimiters g marks text) := by
  have hpass : Yields room (pass g text (fun s _ x => Matcher.step room s x) ⟨marks, [], []⟩) _ :=
    pass_yields Matcher.Finds SiteFinder.step htext (Matcher.finds_initial marks) (by
      intro i x s f hx h
      have hbyte := (byte_position_of_getElem?_cells hx).1
      have hi := (List.getElem?_eq_some_iff.mp hbyte).1
      exact h.step (by omega) x)
  exact hpass.bind fun s hs => yields_ok hs.tracks.pairs

/-! ## 3. Scanning -/

/-- The marks that a scan works with. -/
def scanMarks (room : Collection → Nat → Bool) (g : Grammar) (resolve : Bool) (text : List UInt8) :
    Except Fault (List AngleMark) :=
  if resolve && g.supportsAngles then angleMarks room g text else .ok []

/-- The delimiter pairs of a text, in the order of their closers. -/
def scan (room : Collection → Nat → Bool) (g : Grammar) (resolve : Bool) (text : List UInt8) :
    Except Fault (List Pair) := do
  let marks ← scanMarks room g resolve text
  matchDelimiters room g marks text

theorem scanMarks_yields {text : List UInt8} (htext : text.length + 1 < Word.limit) (g : Grammar)
    (room : Collection → Nat → Bool) (resolve : Bool) :
    Yields room (scanMarks room g resolve text) (· = Nesting.scanMarks g resolve text) := by
  unfold scanMarks Nesting.scanMarks
  cases resolve with
  | false => exact yields_ok rfl
  | true =>
    by_cases hg : g.supportsAngles = true
    · rw [Bool.true_and, if_pos hg]
      exact angleMarks_yields htext g room
    · rw [Bool.true_and, if_neg hg]
      refine yields_ok ?_
      unfold Nesting.angleMarks
      rw [if_neg hg]
      rfl

theorem scan_yields {text : List UInt8} (htext : text.length + 1 < Word.limit) (g : Grammar)
    (room : Collection → Nat → Bool) (resolve : Bool) :
    Yields room (scan room g resolve text) (· = Nesting.scan g resolve text) := by
  refine (scanMarks_yields htext g room resolve).bind fun marks hmarks => ?_
  subst hmarks
  exact matchDelimiters_yields htext g room _

end Checked

/-- The count of unclosed openers is that of the openers less that of the closers, now and after
each of the deletions that can follow, none of which finds it at zero. -/
structure Collector.CountsUnclosed (c : Collector) : Prop where
  now : AngleMark.openers c.marks = AngleMark.closers c.marks + c.unclosed
  trimmed : ∀ k rest, (AngleMark.trimSteps c.marks.reverse)[k]? = some rest →
    k < c.unclosed ∧ AngleMark.openers rest = AngleMark.closers rest + (c.unclosed - (k + 1))

/-- **No fault.** On a text that fits into memory no addition of the scan overflows, no subtraction
goes below zero and no look-up misses its list, whatever the marks that the pairing is given; only a
list that finds no room to grow can stop it. Where there is room, it ends with the pairs. The count of
unclosed openers is right at every byte. -/
theorem scan_never_faults (text : List UInt8) (htext : text.length ≤ Nat.pow 2 63 - 1)
    (g : Grammar) :
    (∀ room resolve,
      Checked.Yields room (Checked.scan room g resolve text) (· = scan g resolve text)) ∧
    (∀ room, Checked.Yields room (Checked.angleMarks room g text) (· = angleMarks g text)) ∧
    (∀ room marks, Checked.Yields room (Checked.matchDelimiters room g marks text)
      (· = matchDelimiters g marks text)) ∧
    (∀ marks : List AngleMark, marks.length ≤ Nat.pow 2 63 - 1 →
      Checked.trim marks = .ok (AngleMark.trim? marks)) ∧
    (∀ room : Collection → Nat → Bool, (∀ what n, room what n = true) →
      (∀ resolve, Checked.scan room g resolve text = .ok (scan g resolve text)) ∧
      Checked.angleMarks room g text = .ok (angleMarks g text) ∧
      ∀ marks, Checked.matchDelimiters room g marks text = .ok (matchDelimiters g marks text)) ∧
    ∀ n, (Collector.run g (text.take n)).CountsUnclosed := by
  have hlimit : Nat.pow 2 63 - 1 + 1 < Word.limit := by decide
  have hfits : text.length + 1 < Word.limit := by omega
  refine ⟨fun room => Checked.scan_yields hfits g room,
    fun room => Checked.angleMarks_yields hfits g room,
    fun room => Checked.matchDelimiters_yields hfits g room, ?_, ?_, ?_⟩
  · intro marks hmarks
    exact Checked.trim_eq_ok (by omega)
  · intro room hroom
    exact ⟨fun resolve => (Checked.scan_yields hfits g room resolve).eq_ok hroom,
      (Checked.angleMarks_yields hfits g room).eq_ok hroom,
      fun marks => (Checked.matchDelimiters_yields hfits g room marks).eq_ok hroom⟩
  · intro n
    have hsound := Collector.sound_run g (text.take n)
    exact ⟨hsound.openers_eq, fun k rest hk => hsound.openers_trimSteps hk⟩

/-- A comparison before the end of a statement, a template, and a literal with an escaped quote and
a bracket in it. -/
def statementText : List UInt8 :=
  [0x61, 0x3c, 0x62, 0x3b, 0x63, 0x3c, 0x64, 0x3e, 0x28, 0x22, 0x5c, 0x22, 0x29, 0x22, 0x29]

theorem scan_never_faults_statementText :
    statementText.length ≤ Nat.pow 2 63 - 1 ∧
      Checked.scan (fun _ _ => true) .cpp true statementText =
        .ok [⟨⟨'<', ⟨1, 6⟩, 0⟩, ⟨'>', ⟨1, 8⟩, 0⟩⟩, ⟨⟨'(', ⟨1, 9⟩, 0⟩, ⟨')', ⟨1, 15⟩, 0⟩⟩] ∧
      (Collector.run .cpp (statementText.take 3)).CountsUnclosed ∧
      (Collector.run .cpp (statementText.take 3)).unclosed = 1 := by
  have hlength : statementText.length ≤ Nat.pow 2 63 - 1 := by decide
  obtain ⟨-, -, -, -, hroom, hcounts⟩ := scan_never_faults statementText hlength .cpp
  have hscan := (hroom (fun _ _ => true) fun _ _ => rfl).1 true
  refine ⟨hlength, ?_, hcounts 3, by decide⟩
  rw [hscan]
  decide +kernel

end Nesting
