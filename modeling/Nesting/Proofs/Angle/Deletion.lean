import Mathlib.Data.List.Induction
import Nesting.Proofs.Angle.Trim

/-!
# Which marks are deleted

A deletion walks back from the newest mark and counts closers. Read forwards with a stack, the list
has some openers waiting at its end, and these are the ones that are deleted, the last of them first.
Closers that answer nothing make no difference. Two marks of a list can be equal, so the openers go by
their offsets here.
-/

namespace Nesting.AngleMark

/-! ## 1. The openers that wait, by offset -/

/-- An opener waits from its own offset on, and a closer answers the newest opener that waits, if
there is one. The offsets of those that wait come newest first. -/
def unansweredStep (offsets : List Nat) (entry : AngleMark × Nat) : List Nat :=
  match entry.1.side with
  | .opening => entry.2 :: offsets
  | .closing => offsets.tail

/-- The offsets of the openers that wait when a list has been read to its end, newest first. -/
def unanswered (marks : List AngleMark) : List Nat :=
  marks.zipIdx.foldl unansweredStep []

/-- The list without the marks at the given offsets. -/
def without (offsets : List Nat) (marks : List AngleMark) : List AngleMark :=
  (marks.zipIdx.filter (fun entry => decide (entry.2 ∉ offsets))).map Prod.fst

/-- The list without the newest `n` of the openers that wait. -/
def trimmed (marks : List AngleMark) (n : Nat) : List AngleMark :=
  without ((unanswered marks).take n) marks

theorem unanswered_concat_opening {m : AngleMark} (hm : m.side = .opening)
    (marks : List AngleMark) : unanswered (marks ++ [m]) = marks.length :: unanswered marks := by
  simp [unanswered, unansweredStep, List.zipIdx_append, hm]

theorem unanswered_concat_closing {m : AngleMark} (hm : m.side = .closing)
    (marks : List AngleMark) : unanswered (marks ++ [m]) = (unanswered marks).tail := by
  simp [unanswered, unansweredStep, List.zipIdx_append, hm]

theorem length_unanswered (marks : List AngleMark) :
    (unanswered marks).length = (waiting marks.reverse).length := by
  induction marks using List.reverseRecOn with
  | nil => rfl
  | append_singleton marks m ih =>
    rw [List.reverse_concat]
    cases hside : m.side with
    | opening =>
      rw [unanswered_concat_opening hside, waiting_opening hside, List.length_cons, List.length_cons,
        ih]
    | closing =>
      rw [unanswered_concat_closing hside, waiting_closing hside, List.length_tail, List.length_tail,
        ih]

theorem lt_of_mem_unanswered {marks : List AngleMark} {i : Nat} (hi : i ∈ unanswered marks) :
    i < marks.length := by
  induction marks using List.reverseRecOn with
  | nil => cases hi
  | append_singleton marks m ih =>
    rw [List.length_append, List.length_singleton]
    cases hside : m.side with
    | opening =>
      rw [unanswered_concat_opening hside] at hi
      rcases List.mem_cons.mp hi with rfl | hi
      · omega
      · have hlt := ih hi
        omega
    | closing =>
      rw [unanswered_concat_closing hside] at hi
      have hlt := ih (List.mem_of_mem_tail hi)
      omega

/-- What waits are openers of the list, the newest first. -/
theorem unanswered_openers (marks : List AngleMark) :
    (unanswered marks).Pairwise (· > ·) ∧
      ∀ i ∈ unanswered marks, marks[i]?.map side = some .opening := by
  induction marks using List.reverseRecOn with
  | nil => exact ⟨.nil, fun i hi => absurd hi List.not_mem_nil⟩
  | append_singleton marks m ih =>
    obtain ⟨hsorted, hopening⟩ := ih
    have hold : ∀ i ∈ unanswered marks, (marks ++ [m])[i]?.map side = some .opening := by
      intro i hi
      rw [List.getElem?_append_left (lt_of_mem_unanswered hi)]
      exact hopening i hi
    cases hside : m.side with
    | opening =>
      rw [unanswered_concat_opening hside, List.pairwise_cons, List.forall_mem_cons]
      refine ⟨⟨fun i hi => lt_of_mem_unanswered hi, hsorted⟩, ?_, hold⟩
      rw [List.getElem?_concat_length, Option.map_some, hside]
    | closing =>
      rw [unanswered_concat_closing hside]
      exact ⟨hsorted.tail, fun i hi => hold i (List.mem_of_mem_tail hi)⟩

/-! ## 2. Balanced marks change nothing -/

section

variable {block : List AngleMark}

theorem foldl_unansweredStep (h : WellNested (word block)) (i : Nat) (offsets : List Nat) :
    (block.zipIdx i).foldl unansweredStep offsets = offsets := by
  induction h using WellNested.induction_map generalizing i offsets with
  | nil => rfl
  | @nest o c inside after k ho hc _ _ _ ihin ihafter =>
    have hopening : o.side = .opening := congrArg Prod.snd ho
    have hclosing : c.side = .closing := congrArg Prod.snd hc
    rw [List.zipIdx_append, List.zipIdx_cons, List.zipIdx_cons, List.foldl_append, List.foldl_cons,
      List.foldl_cons, ihin, ihafter]
    simp only [unansweredStep, hopening, hclosing, List.tail_cons]

theorem unanswered_append (h : WellNested (word block)) (marks : List AngleMark) :
    unanswered (marks ++ block) = unanswered marks := by
  unfold unanswered
  rw [List.zipIdx_append, List.foldl_append, foldl_unansweredStep h]

-- Walking back over balanced marks leaves the count of the closers as it was.
theorem dropUnclosed?_append (h : WellNested (word block)) (closers : Nat)
    (older : List AngleMark) : dropUnclosed? closers (block.reverse ++ older) =
      (dropUnclosed? closers older).map (block.reverse ++ ·) := by
  induction h using WellNested.induction_map generalizing closers older with
  | nil => exact Option.map_id'.symm
  | @nest o c inside after k ho hc _ _ _ ihin ihafter =>
    have hopening : o.side = .opening := congrArg Prod.snd ho
    have hclosing : c.side = .closing := congrArg Prod.snd hc
    have hreverse : ∀ older : List AngleMark, (o :: inside ++ c :: after).reverse ++ older =
        after.reverse ++ (c :: (inside.reverse ++ o :: older)) := by
      intro older
      simp
    have hc' : ∀ older, dropUnclosed? closers (c :: older) =
        (dropUnclosed? (closers + 1) older).map (c :: ·) := by
      intro older
      simp only [dropUnclosed?, hclosing]
    have ho' : ∀ older, dropUnclosed? (closers + 1) (o :: older) =
        (dropUnclosed? closers older).map (o :: ·) := by
      intro older
      simp only [dropUnclosed?, hopening]
    rw [hreverse, ihafter, hc', ihin, ho', Option.map_map, Option.map_map, Option.map_map]
    exact congrArg (Option.map · _) (funext fun older => (hreverse older).symm)

end

/-! ## 3. One deletion -/

section

variable {marks before after rest : List AngleMark} {o : AngleMark}

theorem trim?_of_split (ho : o.side = .opening) (hafter : WellNested (word after))
    (before : List AngleMark) : trim? (before ++ o :: after) = some (before ++ after) := by
  unfold trim?
  rw [List.reverse_append, List.reverse_cons, List.append_assoc, List.singleton_append,
    dropUnclosed?_append hafter]
  simp [dropUnclosed?, ho]

/-- Behind the newest opener that waits the marks are balanced, and before it the other openers
wait. -/
theorem exists_split_of_unanswered {i : Nat} {offsets : List Nat}
    (h : unanswered marks = i :: offsets) :
    ∃ before o after, marks = before ++ o :: after ∧ before.length = i ∧ o.side = .opening ∧
      unanswered before = offsets ∧ WellNested (word after) := by
  induction hn : marks.length using Nat.strongRecOn generalizing marks i offsets with
  | ind n ih =>
    rcases List.eq_nil_or_concat marks with rfl | ⟨marks, m, rfl⟩
    · cases h
    rw [List.concat_eq_append] at h hn ⊢
    rw [List.length_append, List.length_singleton] at hn
    cases hside : m.side with
    | opening =>
      rw [unanswered_concat_opening hside] at h
      obtain ⟨rfl, rfl⟩ := List.cons.inj h
      exact ⟨marks, m, [], rfl, rfl, hside, rfl, .nil⟩
    | closing =>
      -- The closer answers the newest opener that waited before it, and the next one is left.
      rw [unanswered_concat_closing hside] at h
      cases hmarks : unanswered marks with
      | nil =>
        rw [hmarks] at h
        cases h
      | cons j older =>
        rw [hmarks, List.tail_cons] at h
        subst h
        obtain ⟨before', o', after', rfl, -, ho', hbefore', hafter'⟩ := ih _ (by omega) hmarks rfl
        rw [List.length_append] at hn
        obtain ⟨before, o, after, rfl, hi, ho, hbefore, hafter⟩ := ih _ (by omega) hbefore' rfl
        refine ⟨before, o, after ++ (o' :: after' ++ [m]), by simp, hi, ho, hbefore, ?_⟩
        have hpair := WellNested.nest .angle hafter' .nil
        have hblock := hafter.append hpair
        simpa [word, ho', hside] using hblock

theorem trim?_eq_none_iff : trim? marks = none ↔ unanswered marks = [] := by
  rw [← List.length_eq_zero_iff, length_unanswered, trim?, Option.map_eq_none_iff]
  constructor
  · intro h
    exact Nat.le_zero.mp (dropUnclosed?_eq_none h)
  · intro h
    cases hdrop : dropUnclosed? 0 marks.reverse with
    | none => rfl
    | some rest =>
      have hlt := (dropUnclosed?_eq_some hdrop).2.1
      omega

theorem without_nil (marks : List AngleMark) : without [] marks = marks := by
  simp [without]

-- Offsets in the first part of a list leave the second part whole.
theorem without_append {offsets : List Nat} (h : ∀ i ∈ offsets, i < before.length)
    (after : List AngleMark) :
    without offsets (before ++ after) = without offsets before ++ after := by
  have hkeep : ∀ entry ∈ after.zipIdx (0 + before.length),
      decide (entry.2 ∉ offsets) = true := by
    intro entry hentry
    have hle := List.le_snd_of_mem_zipIdx hentry
    rw [decide_eq_true_eq]
    intro hmem
    have hlt := h _ hmem
    omega
  unfold without
  rw [List.zipIdx_append, List.filter_append, List.map_append, List.filter_eq_self.mpr hkeep,
    List.zipIdx_map_fst]

theorem without_append_cons {offsets : List Nat} (h : ∀ i ∈ offsets, i < before.length)
    (o : AngleMark) (after : List AngleMark) :
    without (before.length :: offsets) (before ++ o :: after) = without offsets before ++ after := by
  have hsplit : before ++ o :: after = (before ++ [o]) ++ after := by simp
  have hlt : ∀ i ∈ before.length :: offsets, i < (before ++ [o]).length := by
    rw [List.length_append, List.length_singleton, List.forall_mem_cons]
    refine ⟨by omega, fun i hi => ?_⟩
    have hi' := h i hi
    omega
  have hbefore : ∀ entry ∈ before.zipIdx, decide (entry.2 ∉ before.length :: offsets) =
      decide (entry.2 ∉ offsets) := by
    intro entry hentry
    have hne := List.snd_lt_of_mem_zipIdx hentry
    rw [decide_eq_decide, List.mem_cons, not_or]
    exact and_iff_right (by omega)
  rw [hsplit, without_append hlt]
  unfold without
  rw [List.zipIdx_append, List.filter_append, List.filter_congr hbefore]
  simp

/-- **One deletion.** It takes the newest opener that waits, and the others go on waiting. -/
theorem unanswered_of_trim? (h : trim? marks = some rest) :
    (unanswered marks).length = (unanswered rest).length + 1 ∧
      ∀ n, trimmed marks (n + 1) = trimmed rest n := by
  cases hmarks : unanswered marks with
  | nil =>
    rw [trim?_eq_none_iff.mpr hmarks] at h
    cases h
  | cons i offsets =>
    obtain ⟨before, o, after, rfl, rfl, ho, rfl, hafter⟩ := exists_split_of_unanswered hmarks
    rw [trim?_of_split ho hafter] at h
    cases h
    have hrest := unanswered_append hafter before
    refine ⟨by rw [hrest, List.length_cons], fun n => ?_⟩
    have hlt : ∀ i ∈ (unanswered before).take n, i < before.length :=
      fun i hi => lt_of_mem_unanswered (List.mem_of_mem_take hi)
    unfold trimmed
    rw [hmarks, hrest, List.take_succ_cons, without_append_cons hlt, without_append hlt]

end

/-! ## 4. All deletions -/

theorem trimmed_zero (marks : List AngleMark) : trimmed marks 0 = marks :=
  without_nil marks

theorem trimmed_length (marks : List AngleMark) :
    trimmed marks (unanswered marks).length = without (unanswered marks) marks := by
  unfold trimmed
  rw [List.take_length]

-- Induction on the number of deletions made; the next one goes on in the list after the first.
theorem trim?_trimmed {marks : List AngleMark} {n : Nat} (hn : n ≤ (unanswered marks).length) :
    trim? (trimmed marks n) =
      if n < (unanswered marks).length then some (trimmed marks (n + 1)) else none := by
  induction n generalizing marks with
  | zero =>
    rw [trimmed_zero]
    cases htrim : trim? marks with
    | none =>
      rw [trim?_eq_none_iff.mp htrim]
      rfl
    | some rest =>
      obtain ⟨hlen, htrimmed⟩ := unanswered_of_trim? htrim
      rw [htrimmed, trimmed_zero, if_pos (by omega)]
  | succ n ih =>
    cases htrim : trim? marks with
    | none =>
      rw [trim?_eq_none_iff.mp htrim] at hn
      cases hn
    | some rest =>
      obtain ⟨hlen, htrimmed⟩ := unanswered_of_trim? htrim
      rw [htrimmed, htrimmed, ih (by omega), hlen]
      simp only [Nat.add_lt_add_iff_right]

theorem trimSteps_eq_map_trimmed (marks : List AngleMark) :
    trimSteps marks =
      (List.range (unanswered marks).length).map (fun n => trimmed marks (n + 1)) := by
  fun_induction trimSteps marks with
  | case1 marks found =>
    rw [trim?_eq_none_iff.mp found]
    rfl
  | case2 marks rest found _ ih =>
    obtain ⟨hlen, htrimmed⟩ := unanswered_of_trim? found
    simp only [hlen, htrimmed, List.range_succ_eq_map, List.map_cons, List.map_map, trimmed_zero, ih,
      Function.comp_def]

theorem settle_eq_trimmed (newest : List AngleMark) :
    settle newest = ((trimmed newest.reverse (unanswered newest.reverse).length).reverse,
      (unanswered newest.reverse).length) := by
  fun_induction settle newest with
  | case1 newest found =>
    have htrim : trim? newest.reverse = none := by
      rw [trim?, List.reverse_reverse, found]
      rfl
    rw [trim?_eq_none_iff.mp htrim, List.length_nil, trimmed_zero, List.reverse_reverse]
  | case2 newest rest found _ ih =>
    have htrim : trim? newest.reverse = some rest.reverse := by
      rw [trim?, List.reverse_reverse, found]
      rfl
    obtain ⟨hlen, htrimmed⟩ := unanswered_of_trim? htrim
    rw [ih, hlen, htrimmed]
    rfl

/-- **Trimming.** As long as an opener waits, a deletion takes the newest one, so there are as many
deletions as openers that wait, the last opener goes first, and all other marks are left as they
were. Then nothing is left to delete. The collector settles its marks to the same list and counts the
same deletions. -/
theorem deletions_take_unanswered (marks : List AngleMark) :
    ((unanswered marks).Pairwise (· > ·) ∧
        ∀ i ∈ unanswered marks, marks[i]?.map side = some .opening) ∧
      trimmed marks 0 = marks ∧
      (∀ n < (unanswered marks).length,
        trim? (trimmed marks n) = some (trimmed marks (n + 1))) ∧
      trim? (without (unanswered marks) marks) = none ∧
      trimSteps marks =
        (List.range (unanswered marks).length).map (fun n => trimmed marks (n + 1)) ∧
      settle marks.reverse =
        ((without (unanswered marks) marks).reverse, (unanswered marks).length) := by
  have hend := trim?_trimmed (Nat.le_refl (unanswered marks).length)
  have hsettle := settle_eq_trimmed marks.reverse
  rw [trimmed_length, if_neg (Nat.lt_irrefl _)] at hend
  rw [List.reverse_reverse, trimmed_length] at hsettle
  refine ⟨unanswered_openers marks, trimmed_zero marks, fun n hn => ?_, hend,
    trimSteps_eq_map_trimmed marks, hsettle⟩
  rw [trim?_trimmed (Nat.le_of_lt hn), if_pos hn]

/-- A closer that answers nothing, two equal openers of which one is answered, and an opener. -/
def doubledMarks : List AngleMark :=
  [⟨.closing, ⟨1, 1⟩⟩, ⟨.opening, ⟨1, 2⟩⟩, ⟨.opening, ⟨1, 2⟩⟩, ⟨.closing, ⟨1, 3⟩⟩,
    ⟨.opening, ⟨1, 4⟩⟩]

theorem deletions_doubledMarks :
    unanswered doubledMarks = [4, 1] ∧
      trim? (trimmed doubledMarks 1) = some (trimmed doubledMarks 2) ∧
      trimmed doubledMarks 2 =
        [⟨.closing, ⟨1, 1⟩⟩, ⟨.opening, ⟨1, 2⟩⟩, ⟨.closing, ⟨1, 3⟩⟩] ∧
      trim? (trimmed doubledMarks 2) = none ∧
      doubledMarks[4]?.map side = some .opening := by
  obtain ⟨⟨-, hopening⟩, -, hstep, hend, -⟩ := deletions_take_unanswered doubledMarks
  exact ⟨by decide, hstep 1 (by decide), by decide, hend, hopening 4 (by decide)⟩

end Nesting.AngleMark
