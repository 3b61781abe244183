import Nesting.Proofs.Checked.Scan

/-!
# What one closer does

Any openers may wait, of any character and depth, when a closer of any character comes. Either
nothing comes of it and the openers stay as they are, or they are cut at the last one of its kind:
that one makes the pair, those below it stay, and those above it are lost.
-/

namespace Nesting

/-! ## 1. Characters that answer each other -/

/-- The two characters are the closing and the opening one of a kind of brackets. -/
def Answers (closer opener : Char) : Prop :=
  (opener, closer) ∈ [('(', ')'), ('[', ']'), ('{', '}'), ('<', '>')]

instance (closer opener : Char) : Decidable (Answers closer opener) :=
  inferInstanceAs (Decidable (_ ∈ _))

section

variable {closer opener opener' : Char}

theorem answers_character (k : Bracket) :
    Answers (k.character .closing) (k.character .opening) := by
  cases k <;> decide

theorem opener?_eq_some_iff : Bracket.opener? closer = some opener ↔ Answers closer opener := by
  constructor
  · intro h
    unfold Bracket.opener? at h
    split at h
    · rename_i k hread
      rw [← Bracket.character_of_read? hread, ← Option.some.inj h]
      exact answers_character k
    · cases h
  · intro h
    unfold Answers at h
    simp only [List.mem_cons, List.not_mem_nil, or_false, Prod.mk.injEq] at h
    rcases h with ⟨rfl, rfl⟩ | ⟨rfl, rfl⟩ | ⟨rfl, rfl⟩ | ⟨rfl, rfl⟩ <;> rfl

theorem Answers.unique (h : Answers closer opener) (h' : Answers closer opener') :
    opener = opener' := by
  rw [← opener?_eq_some_iff] at h h'
  exact Option.some.inj (h.symm.trans h')

theorem Answers.mem_closers (h : Answers closer opener) : closer ∈ [')', ']', '}', '>'] :=
  List.mem_map_of_mem (f := Prod.snd) h

end

/-! ## 2. Where the openers are cut -/

namespace Pending

variable {s : Pending} {d o o' : Delimiter} {below below' above above' : List Delimiter}

/-- The openers that wait, outermost first, are `below`, then `o`, then `above`, and `o` is the last
one that the closer `d` answers. -/
structure CutBy (s : Pending) (d : Delimiter) (below : List Delimiter) (o : Delimiter)
    (above : List Delimiter) : Prop where
  openers : s.toList = below ++ o :: above
  answered : Answers d.character o.character
  last : ∀ e ∈ above, ¬ Answers d.character e.character

theorem CutBy.character_ne (h : s.CutBy d below o above) :
    ∀ e ∈ above, e.character ≠ o.character := by
  intro e he heq
  apply h.last e he
  rw [heq]
  exact h.answered

theorem CutBy.close?_eq_some (h : s.CutBy d below o above) :
    s.close? d = some (⟨o, { d with depth := o.depth }⟩, ⟨below.reverse⟩) :=
  Pending.close?_eq_some h.openers (opener?_eq_some_iff.mpr h.answered) h.character_ne

-- The closer finds only one opener and leaves only one rest, so there is one way to cut.
theorem CutBy.unique (h : s.CutBy d below o above) (h' : s.CutBy d below' o' above') :
    below' = below ∧ o' = o ∧ above' = above := by
  have hclose := h'.close?_eq_some.symm.trans h.close?_eq_some
  simp only [Option.some.injEq, Prod.mk.injEq, Pair.mk.injEq, Pending.mk.injEq] at hclose
  obtain ⟨⟨rfl, -⟩, hbelow⟩ := hclose
  have hbelow := List.reverse_inj.mp hbelow
  have hopeners := h'.openers.symm.trans h.openers
  rw [hbelow] at hopeners
  exact ⟨hbelow, rfl, (List.cons.inj (List.append_cancel_left hopeners)).2⟩

/-- Either no opener is answered and there is no pair, or the openers are cut. -/
theorem cutBy_or_close?_eq_none (s : Pending) (d : Delimiter) :
    ((∀ e ∈ s.toList, ¬ Answers d.character e.character) ∧ s.close? d = none) ∨
      ∃ below o above, s.CutBy d below o above := by
  rcases s.close?_cases d with ⟨hd, hclose⟩ | ⟨c, hd, hnone, hclose⟩ |
    ⟨below, o, above, hd, hs, habove, -⟩
  · refine .inl ⟨fun e _ he => ?_, hclose⟩
    rw [opener?_eq_some_iff.mpr he] at hd
    cases hd
  · refine .inl ⟨fun e he hanswers => ?_, hclose⟩
    exact hnone e he (hanswers.unique (opener?_eq_some_iff.mp hd))
  · have hanswers := opener?_eq_some_iff.mp hd
    exact .inr ⟨below, o, above, hs, hanswers, fun e he h => habove e he (h.unique hanswers)⟩

theorem close?_eq_none_iff :
    s.close? d = none ↔ ∀ e ∈ s.toList, ¬ Answers d.character e.character := by
  rcases s.cutBy_or_close?_eq_none d with ⟨hnone, hclose⟩ | ⟨below, o, above, hcut⟩
  · exact ⟨fun _ => hnone, fun _ => hclose⟩
  · rw [hcut.close?_eq_some]
    refine ⟨fun h => (by cases h), fun h => absurd hcut.answered (h o ?_)⟩
    rw [hcut.openers]
    exact List.mem_append_right _ List.mem_cons_self

/-! ## 3. What is left -/

/-- The closer `d` makes `pair` and leaves the openers `rest`, outermost first. This is so where
openers are kept innermost first, where a text is paired, and where they are kept in a list with
checked look-ups, as long as it fits into memory. -/
structure Leaves (s : Pending) (d : Delimiter) (pair : Option Pair) (rest : List Delimiter) :
    Prop where
  close : s.close? d = pair.map fun p => (p, ⟨rest.reverse⟩)
  step : ∀ (x : Site) (found : List Pair), x.side = .closing → x.delimiter s.depth = d →
    Matching.step ⟨s, found⟩ x = ⟨⟨rest.reverse⟩, pair.toList ++ found⟩
  checked : s.depth < Word.limit → Checked.matchCloser s.toList d = .ok (pair, rest)

theorem matchCloser_toList (hfits : s.depth < Word.limit) :
    Checked.matchCloser s.toList d = .ok (Checked.closed s d) := by
  apply Checked.matchCloser_eq_ok
  unfold toList
  rw [List.length_reverse]
  exact hfits

theorem leaves_of_close?_eq_none (h : s.close? d = none) : s.Leaves d none s.toList where
  close := h
  step := by
    rintro x found hx rfl
    rw [Matching.step_of_close?_eq_none hx h]
    show Matching.mk s found = ⟨⟨s.openers.reverse.reverse⟩, found⟩
    rw [List.reverse_reverse]
  checked := by
    intro hfits
    rw [matchCloser_toList hfits]
    unfold Checked.closed
    rw [h]

theorem CutBy.leaves (h : s.CutBy d below o above) :
    s.Leaves d (some ⟨o, { d with depth := o.depth }⟩) below where
  close := h.close?_eq_some
  step := by
    rintro x found hx rfl
    exact Matching.step_of_close?_eq_some hx h.close?_eq_some
  checked := by
    intro hfits
    rw [matchCloser_toList hfits]
    unfold Checked.closed
    rw [h.close?_eq_some]
    show Except.ok (_, below.reverse.reverse) = _
    rw [List.reverse_reverse]

/-- **One closer.** A closer makes no pair exactly if its character closes nothing or no opener that
waits has the character it answers, and then the openers stay as they are. Otherwise they can be cut
in one way at the last opener that it answers. The openers below are left, and that opener makes
the pair with the closer, which takes its depth. -/
theorem closer_cuts_at_last_answered (s : Pending) (d : Delimiter) :
    (s.close? d = none ↔ d.character ∉ [')', ']', '}', '>'] ∨
      ∀ e ∈ s.toList, ¬ Answers d.character e.character) ∧
    (s.close? d = none → s.Leaves d none s.toList) ∧
    (s.close? d ≠ none → ∃ below o above, s.CutBy d below o above ∧
      (∀ below' o' above', s.CutBy d below' o' above' →
        below' = below ∧ o' = o ∧ above' = above) ∧
      s.Leaves d (some ⟨o, { d with depth := o.depth }⟩) below) := by
  refine ⟨?_, leaves_of_close?_eq_none, fun h => ?_⟩
  · rw [close?_eq_none_iff]
    refine ⟨Or.inr, ?_⟩
    rintro (hcloses | hnone)
    · intro e _ he
      exact hcloses he.mem_closers
    · exact hnone
  · rcases s.cutBy_or_close?_eq_none d with ⟨-, hclose⟩ | ⟨below, o, above, hcut⟩
    · exact absurd hclose h
    · exact ⟨below, o, above, hcut, fun _ _ _ => hcut.unique, hcut.leaves⟩

/-- Two openers of one kind, one of another above them, and depths that are not in order. -/
def repeatedOpeners : Pending :=
  ⟨[⟨'{', ⟨1, 4⟩, 3⟩, ⟨'(', ⟨1, 3⟩, 7⟩, ⟨'[', ⟨1, 2⟩, 1⟩, ⟨'(', ⟨1, 1⟩, 0⟩]⟩

theorem closer_cuts_repeatedOpeners :
    repeatedOpeners.close? ⟨')', ⟨1, 5⟩, 9⟩ ≠ none ∧
      repeatedOpeners.Leaves ⟨')', ⟨1, 5⟩, 9⟩
        (some ⟨⟨'(', ⟨1, 3⟩, 7⟩, ⟨')', ⟨1, 5⟩, 7⟩⟩) [⟨'(', ⟨1, 1⟩, 0⟩, ⟨'[', ⟨1, 2⟩, 1⟩] ∧
      repeatedOpeners.Leaves ⟨'〉', ⟨1, 5⟩, 4⟩ none repeatedOpeners.toList := by
  have hcut : repeatedOpeners.CutBy ⟨')', ⟨1, 5⟩, 9⟩ [⟨'(', ⟨1, 1⟩, 0⟩, ⟨'[', ⟨1, 2⟩, 1⟩]
      ⟨'(', ⟨1, 3⟩, 7⟩ [⟨'{', ⟨1, 4⟩, 3⟩] := ⟨rfl, by decide, by decide⟩
  have hsome : repeatedOpeners.close? ⟨')', ⟨1, 5⟩, 9⟩ ≠ none := by decide
  obtain ⟨-, -, hpair⟩ := closer_cuts_at_last_answered repeatedOpeners ⟨')', ⟨1, 5⟩, 9⟩
  obtain ⟨hnone, hkeeps, -⟩ := closer_cuts_at_last_answered repeatedOpeners ⟨'〉', ⟨1, 5⟩, 4⟩
  obtain ⟨below, o, above, -, hunique, hleaves⟩ := hpair hsome
  obtain ⟨rfl, rfl, -⟩ := hunique _ _ _ hcut
  exact ⟨hsome, hleaves, hkeeps (hnone.mpr (.inl (by decide)))⟩

end Pending

end Nesting
