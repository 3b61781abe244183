import Nesting.Angle.Collect
import Nesting.Proofs.Pairing.Balanced

/-!
# What trimming leaves

Trimming deletes openers one by one, each time the newest that no closer answers. Read as a stack, a
list of marks has some openers waiting at its end, and trimming it deletes exactly these. Lists are
newest mark first throughout, as the collector keeps them.
-/

namespace Nesting

theorem WellNested.append {a b : List (Bracket × Side)} (ha : WellNested a) (hb : WellNested b) :
    WellNested (a ++ b) := by
  induction ha with
  | nil => exact hb
  | nest k hin _ _ ih =>
    rw [List.append_assoc, List.cons_append]
    exact .nest k hin ih

namespace AngleMark

/-! ## 1. The openers that wait -/

/-- The openers that wait at the end of a list, newest first: a closer answers the newest one that
waits, if there is one. -/
def waiting : List AngleMark → List AngleMark
  | [] => []
  | m :: older =>
    match m.side with
    | .opening => m :: waiting older
    | .closing => (waiting older).tail

/-- The list without the openers that wait, except the newest `closers` of them. -/
def answered (closers : Nat) : List AngleMark → List AngleMark
  | [] => []
  | m :: older =>
    match m.side with
    | .closing => m :: answered (closers + 1) older
    | .opening =>
      match closers with
      | 0 => answered 0 older
      | n + 1 => m :: answered n older

theorem waiting_opening {m : AngleMark} (hm : m.side = .opening) (older : List AngleMark) :
    waiting (m :: older) = m :: waiting older := by
  simp [waiting, hm]

theorem waiting_closing {m : AngleMark} (hm : m.side = .closing) (older : List AngleMark) :
    waiting (m :: older) = (waiting older).tail := by
  simp [waiting, hm]

/-! ## 2. Deleting them -/

section

variable {closers : Nat} {marks rest : List AngleMark}

-- A deletion takes away one of the openers that wait, beyond the newest `closers` of them.
theorem dropUnclosed?_eq_some (h : dropUnclosed? closers marks = some rest) :
    answered closers rest = answered closers marks ∧ closers < (waiting marks).length ∧
      (waiting rest).length + 1 = (waiting marks).length := by
  induction marks generalizing closers rest with
  | nil => simp [dropUnclosed?] at h
  | cons m older ih =>
    unfold dropUnclosed? at h
    cases hside : m.side with
    | closing =>
      simp only [hside] at h
      obtain ⟨r, hr, rfl⟩ := Option.map_eq_some_iff.mp h
      obtain ⟨hans, hlt, hlen⟩ := ih hr
      simp only [answered, waiting, hside, hans, List.length_tail, true_and]
      omega
    | opening =>
      simp only [hside] at h
      cases closers with
      | zero =>
        cases h
        simp [answered, waiting, hside]
      | succ n =>
        obtain ⟨r, hr, rfl⟩ := Option.map_eq_some_iff.mp h
        obtain ⟨hans, hlt, hlen⟩ := ih hr
        simp only [answered, waiting, hside, hans, List.length_cons, true_and]
        omega

theorem dropUnclosed?_eq_none (h : dropUnclosed? closers marks = none) :
    (waiting marks).length ≤ closers := by
  induction marks generalizing closers with
  | nil => simp [waiting]
  | cons m older ih =>
    unfold dropUnclosed? at h
    cases hside : m.side with
    | closing =>
      simp only [hside, Option.map_eq_none_iff] at h
      have hle := ih h
      rw [waiting_closing hside, List.length_tail]
      omega
    | opening =>
      simp only [hside] at h
      cases closers with
      | zero => cases h
      | succ n =>
        rw [Option.map_eq_none_iff] at h
        have hle := ih h
        rw [waiting_opening hside, List.length_cons]
        omega

theorem answered_eq_self (h : (waiting marks).length ≤ closers) :
    answered closers marks = marks := by
  induction marks generalizing closers with
  | nil => rfl
  | cons m older ih =>
    cases hside : m.side with
    | closing =>
      rw [waiting_closing hside, List.length_tail] at h
      have hle : (waiting older).length ≤ closers + 1 := by omega
      simp only [answered, hside, ih hle]
    | opening =>
      rw [waiting_opening hside, List.length_cons] at h
      cases closers with
      | zero => omega
      | succ n =>
        have hle : (waiting older).length ≤ n := by omega
        simp only [answered, hside, ih hle]

theorem waiting_answered (closers : Nat) (marks : List AngleMark) :
    waiting (answered closers marks) = (waiting marks).take closers := by
  induction marks generalizing closers with
  | nil => simp [answered, waiting]
  | cons m older ih =>
    cases hside : m.side with
    | closing =>
      simp only [answered, waiting, hside, ih]
      cases waiting older <;> simp
    | opening =>
      cases closers with
      | zero => simp [answered, waiting, hside, ih]
      | succ n => simp [answered, waiting, hside, ih]

end

/-- **Trimming.** Settling a list of marks deletes the openers that wait, and no others. -/
theorem settle_eq (marks : List AngleMark) :
    settle marks = (answered 0 marks, (waiting marks).length) := by
  fun_induction settle marks with
  | case1 marks found =>
    have hle := dropUnclosed?_eq_none found
    rw [answered_eq_self hle, Nat.le_zero.mp hle]
  | case2 marks rest found _ ih =>
    obtain ⟨hans, -, hlen⟩ := dropUnclosed?_eq_some found
    rw [ih, hans, ← hlen]
    rfl

/-! ## 3. Marks behind settled ones -/

section

variable {base : List AngleMark}

theorem waiting_append (h : waiting base = []) (marks : List AngleMark) :
    waiting (marks ++ base) = waiting marks := by
  induction marks with
  | nil => exact h
  | cons m older ih =>
    cases hside : m.side with
    | closing => rw [List.cons_append, waiting_closing hside, waiting_closing hside, ih]
    | opening => rw [List.cons_append, waiting_opening hside, waiting_opening hside, ih]

-- Where nothing waits, nothing is ever deleted again.
theorem answered_append (h : waiting base = []) (closers : Nat) (marks : List AngleMark) :
    answered closers (marks ++ base) = answered closers marks ++ base := by
  induction marks generalizing closers with
  | nil => exact answered_eq_self (by simp [h])
  | cons m older ih =>
    cases hside : m.side with
    | closing => simp only [List.cons_append, answered, hside, ih]
    | opening =>
      cases closers with
      | zero => simp only [List.cons_append, answered, hside, ih]
      | succ n => simp only [List.cons_append, answered, hside, ih]

end

/-! ## 4. Lists without a stray closer -/

/-- Every closer of the list answers an opener. -/
def Fits : List AngleMark → Prop
  | [] => True
  | m :: older => Fits older ∧ (m.side = .closing → waiting older ≠ [])

theorem Fits.answered {marks : List AngleMark} (h : Fits marks) (closers : Nat) :
    Fits (answered closers marks) := by
  induction marks generalizing closers with
  | nil => exact h
  | cons m older ih =>
    obtain ⟨holder, hm⟩ := h
    cases hside : m.side with
    | closing =>
      simp only [AngleMark.answered, hside]
      refine ⟨ih holder _, fun _ => ?_⟩
      simpa [waiting_answered] using hm hside
    | opening =>
      cases closers with
      | zero => simpa only [AngleMark.answered, hside] using ih holder 0
      | succ n =>
        simp only [AngleMark.answered, hside]
        exact ⟨ih holder n, fun hclosing => by rw [hside] at hclosing; cases hclosing⟩

/-- As many openers wait as there are openers more than closers. -/
theorem Fits.countP_opening {marks : List AngleMark} (h : Fits marks) :
    marks.countP (fun m => decide (m.side = .opening)) =
      marks.countP (fun m => decide (m.side = .closing)) + (waiting marks).length := by
  induction marks with
  | nil => rfl
  | cons m older ih =>
    obtain ⟨holder, hm⟩ := h
    have hcount := ih holder
    cases hside : m.side with
    | opening =>
      simp only [List.countP_cons, waiting, hside, List.length_cons]
      simp
      omega
    | closing =>
      have hpos := List.length_pos_iff.mpr (hm hside)
      simp only [List.countP_cons, waiting, hside, List.length_tail]
      simp
      omega

/-! ## 5. Balanced marks -/

/-- The brackets that a list of marks speaks for. -/
def word (marks : List AngleMark) : List (Bracket × Side) :=
  marks.map (fun m => (.angle, m.side))

/-- A list with openers waiting, newest first, and a well-nested word before and after each. -/
inductive Blocks : List AngleMark → List AngleMark → Prop
  | last {block : List AngleMark} : WellNested (word block.reverse) → Blocks [] block
  | opened {block w older : List AngleMark} {o : AngleMark} : o.side = .opening →
      WellNested (word block.reverse) → Blocks w older → Blocks (o :: w) (block ++ o :: older)

theorem Blocks.append {block w marks : List AngleMark} (h : Blocks w marks)
    (hblock : WellNested (word block.reverse)) : Blocks w (block ++ marks) := by
  have hjoin : ∀ {newer}, WellNested (word newer.reverse) →
      WellNested (word (block ++ newer).reverse) := by
    intro newer hnewer
    rw [List.reverse_append, word, List.map_append]
    exact hnewer.append hblock
  cases h with
  | last hlast => exact .last (hjoin hlast)
  | opened ho hnewer holder =>
    rw [← List.append_assoc]
    exact .opened ho (hjoin hnewer) holder

theorem Fits.blocks {marks : List AngleMark} (h : Fits marks) : Blocks (waiting marks) marks := by
  induction marks with
  | nil => exact .last .nil
  | cons m older ih =>
    obtain ⟨holder, hm⟩ := h
    have hblocks := ih holder
    cases hside : m.side with
    | opening =>
      rw [waiting_opening hside]
      show Blocks (m :: waiting older) ([] ++ m :: older)
      exact .opened hside .nil hblocks
    | closing =>
      rw [waiting_closing hside]
      have hne := hm hside
      generalize waiting older = w at hblocks hne
      -- The newest waiting opener, the block after it and the closer make one more block.
      cases hblocks with
      | last => exact absurd rfl hne
      | @opened block w rest o ho hblock hrest =>
        have hnew : WellNested (word (m :: block ++ [o]).reverse) := by
          have hnest := WellNested.nest .angle hblock .nil
          simpa [word, ho, hside] using hnest
        simpa using hrest.append hnew

/-- Where nothing waits and every closer answers an opener, the marks are balanced. -/
theorem Fits.wellNested {marks : List AngleMark} (h : Fits marks) (hw : waiting marks = []) :
    WellNested (word marks.reverse) := by
  have hblocks := h.blocks
  rw [hw] at hblocks
  cases hblocks with
  | last hlast => exact hlast

end AngleMark

end Nesting
