import Nesting.Proofs.Angle.Collector
import Nesting.Proofs.Angle.Order
import Nesting.Proofs.Checked.Reader

/-!
# Collecting angle marks with checked operations

Here the marks are a list from the oldest to the newest that is trimmed in place by index, and every
deletion takes one off the count of unclosed openers. That the count never runs below zero is not
seen at any of these places: it holds because the count is that of the openers that wait, and a
deletion removes one of them.
-/

namespace Nesting

/-! ## 1. The count of a list of marks -/

namespace AngleMark

def openers (marks : List AngleMark) : Nat :=
  marks.countP fun m => decide (m.side = .opening)

def closers (marks : List AngleMark) : Nat :=
  marks.countP fun m => decide (m.side = .closing)

@[simp] theorem openers_reverse (marks : List AngleMark) : openers marks.reverse = openers marks :=
  List.countP_reverse

@[simp] theorem closers_reverse (marks : List AngleMark) : closers marks.reverse = closers marks :=
  List.countP_reverse

-- A deletion takes an opener.
theorem count_of_dropUnclosed? {n : Nat} {marks rest : List AngleMark}
    (h : dropUnclosed? n marks = some rest) :
    openers rest + 1 = openers marks ∧ closers rest = closers marks := by
  unfold openers closers
  induction marks generalizing n rest with
  | nil => cases h
  | cons m older ih =>
    unfold dropUnclosed? at h
    cases hside : m.side with
    | closing =>
      simp only [hside] at h
      obtain ⟨r, hr, rfl⟩ := Option.map_eq_some_iff.mp h
      have hcount := ih hr
      simp only [List.countP_cons, hside]
      simp
      omega
    | opening =>
      simp only [hside] at h
      cases n with
      | zero =>
        cases h
        simp [hside]
      | succ n =>
        obtain ⟨r, hr, rfl⟩ := Option.map_eq_some_iff.mp h
        have hcount := ih hr
        simp only [List.countP_cons, hside]
        simp
        omega

theorem count_of_trim? {marks rest : List AngleMark} (h : trim? marks = some rest) :
    openers rest + 1 = openers marks ∧ closers rest = closers marks ∧
      (waiting rest.reverse).length + 1 = (waiting marks.reverse).length := by
  obtain ⟨r, hr, rfl⟩ := Option.map_eq_some_iff.mp h
  have hcount := count_of_dropUnclosed? hr
  rw [openers_reverse, closers_reverse] at hcount
  rw [openers_reverse, closers_reverse, List.reverse_reverse]
  exact ⟨hcount.1, hcount.2, (dropUnclosed?_eq_some hr).2.2⟩

-- After `k + 1` deletions the list has as many openers less, and as many less wait.
theorem count_of_trimSteps {marks rest : List AngleMark} {k : Nat}
    (h : (trimSteps marks)[k]? = some rest) :
    openers rest + (k + 1) = openers marks ∧ closers rest = closers marks ∧
      (waiting rest.reverse).length + (k + 1) = (waiting marks.reverse).length := by
  induction k generalizing marks with
  | zero =>
    unfold trimSteps at h
    split at h
    · cases h
    · rename_i first found
      cases h
      exact count_of_trim? found
  | succ k ih =>
    unfold trimSteps at h
    split at h
    · cases h
    · rename_i first found
      have hfirst := count_of_trim? found
      have hnext := ih h
      omega

end AngleMark

/-- **The count.** It is always that of the openers less that of the closers. -/
theorem Collector.Sound.openers_eq {c : Collector} (h : Sound c) :
    AngleMark.openers c.marks = AngleMark.closers c.marks + c.unclosed := by
  rw [h.unclosed]
  exact h.fits.countP_opening

/-- The count allows for every deletion, and is right after it. -/
theorem Collector.Sound.openers_trimSteps {c : Collector} (h : Sound c) {k : Nat}
    {rest : List AngleMark} (hk : (AngleMark.trimSteps c.marks.reverse)[k]? = some rest) :
    k < c.unclosed ∧
      AngleMark.openers rest = AngleMark.closers rest + (c.unclosed - (k + 1)) := by
  have hcount := AngleMark.count_of_trimSteps hk
  have hsound := h.openers_eq
  have hunclosed := h.unclosed
  rw [List.reverse_reverse, AngleMark.openers_reverse, AngleMark.closers_reverse] at hcount
  omega

namespace Checked

/-! ## 2. Trimming by index -/

def remove {α : Type} (l : List α) (i : Nat) : Except Fault (List α) :=
  if i < l.length then .ok (l.eraseIdx i) else .error .outOfBounds

/-- Goes back from the mark before `i` to the opener to delete. `closers` counts the closers passed
that still wait for their opener. -/
def trimFrom (marks : List AngleMark) : Nat → Nat → Except Fault (Option (List AngleMark))
  | 0, _ => .ok none
  | i + 1, closers => do
    let m ← get marks i
    match m.side with
    | .closing =>
      let closers ← add closers 1
      trimFrom marks i closers
    | .opening =>
      if closers = 0 then
        let rest ← remove marks i
        return some rest
      else
        let closers ← sub closers 1
        trimFrom marks i closers

def trim (marks : List AngleMark) : Except Fault (Option (List AngleMark)) :=
  trimFrom marks marks.length 0

section

variable {marks newest older newer : List AngleMark} {n i : Nat}

theorem get_append_cons {α : Type} (l : List α) (x : α) (rest : List α) :
    get (l ++ x :: rest) l.length = .ok x :=
  get_eq_ok (by simp)

theorem remove_append_cons {α : Type} (l : List α) (x : α) (rest : List α) :
    remove (l ++ x :: rest) l.length = .ok (l ++ rest) := by
  unfold remove
  rw [if_pos (by simp), List.eraseIdx_append_of_length_le (Nat.le_refl _), Nat.sub_self]
  rfl

-- The marks before the index are those that the deletion by recursion has left, newest first.
theorem trimFrom_eq_ok (h : older.length + n < Word.limit) :
    trimFrom (older.reverse ++ newer) older.length n =
      .ok ((AngleMark.dropUnclosed? n older).map fun rest => rest.reverse ++ newer) := by
  induction older generalizing n newer with
  | nil => rfl
  | cons m older ih =>
    rw [List.length_cons] at h
    have hmarks : (m :: older).reverse ++ newer = older.reverse ++ m :: newer := by simp
    have hmap : ∀ found : Option (List AngleMark),
        (found.map (m :: ·)).map (fun rest => rest.reverse ++ newer) =
          found.map fun rest => rest.reverse ++ m :: newer := by
      intro found
      cases found <;> simp
    have hget := get_append_cons older.reverse m newer
    have hremove := remove_append_cons older.reverse m newer
    rw [List.length_reverse] at hget hremove
    rw [hmarks]
    unfold AngleMark.dropUnclosed?
    show (get _ older.length >>= _) = _
    rw [hget, ok_bind]
    cases hside : m.side with
    | closing =>
      show (add n 1 >>= _) = _
      rw [add_eq_ok (by omega), ok_bind, ih (by omega), hmap]
    | opening =>
      cases n with
      | zero =>
        show (remove _ older.length >>= _) = _
        rw [hremove]
        rfl
      | succ n =>
        show (sub (n + 1) 1 >>= _) = _
        rw [sub_eq_ok (Nat.le_add_left 1 n), ok_bind, Nat.add_sub_cancel, ih (by omega), hmap]

/-- Trimming by index runs without a fault and deletes the same opener. -/
theorem trim_eq_ok (h : marks.length < Word.limit) : trim marks = .ok (AngleMark.trim? marks) := by
  have hrun : trimFrom (marks.reverse.reverse ++ []) marks.reverse.length 0 = _ :=
    trimFrom_eq_ok (by rw [List.length_reverse]; exact h)
  simp only [List.reverse_reverse, List.append_nil, List.length_reverse] at hrun
  exact hrun

theorem length_of_trimFrom {rest : List AngleMark} (h : trimFrom marks i n = .ok (some rest)) :
    rest.length < marks.length := by
  induction i generalizing n with
  | zero => cases h
  | succ i ih =>
    obtain ⟨m, -, h⟩ := bind_eq_ok.mp h
    cases hside : m.side with
    | closing =>
      simp only [hside] at h
      obtain ⟨more, -, h⟩ := bind_eq_ok.mp h
      exact ih h
    | opening =>
      simp only [hside] at h
      split at h
      · obtain ⟨found, hfound, h⟩ := bind_eq_ok.mp h
        cases h
        unfold remove at hfound
        split at hfound
        · rename_i hi
          cases hfound
          rw [List.length_eraseIdx_of_lt hi]
          omega
        · cases hfound
      · obtain ⟨fewer, -, h⟩ := bind_eq_ok.mp h
        exact ih h

/-- Deletes one opener after the other that no closer answers, and takes each off the count. -/
def settle (marks : List AngleMark) (unclosed : Nat) : Except Fault (List AngleMark × Nat) :=
  match found : trim marks with
  | .error fault => .error fault
  | .ok none => .ok (marks, unclosed)
  | .ok (some rest) => do
    have := length_of_trimFrom found
    let unclosed ← sub unclosed 1
    settle rest unclosed
termination_by marks.length

theorem settle_of_trim_eq_none {unclosed : Nat} (h : trim marks = .ok none) :
    settle marks unclosed = .ok (marks, unclosed) := by
  unfold settle
  split
  · rename_i heq
    rw [h] at heq
    cases heq
  · rfl
  · rename_i heq
    rw [h] at heq
    cases heq

theorem settle_of_trim_eq_some {rest : List AngleMark} {unclosed : Nat}
    (h : trim marks = .ok (some rest)) :
    settle marks unclosed = (do let unclosed ← sub unclosed 1; settle rest unclosed) := by
  rw [settle]
  split
  · rename_i heq
    rw [h] at heq
    cases heq
  · rename_i heq
    rw [h] at heq
    cases heq
  · rename_i heq
    rw [h] at heq
    cases heq
    rfl

theorem trim_reverse (h : newest.length < Word.limit) :
    trim newest.reverse = .ok ((AngleMark.dropUnclosed? 0 newest).map List.reverse) := by
  rw [trim_eq_ok (by rw [List.length_reverse]; exact h), AngleMark.trim?, List.reverse_reverse]

-- Induction on the deletions: each leaves one less that waits, so the count allows for the next.
theorem settle_eq_ok {unclosed : Nat} (h : newest.length < Word.limit)
    (hunclosed : (AngleMark.waiting newest).length ≤ unclosed) :
    settle newest.reverse unclosed =
      .ok ((AngleMark.settle newest).1.reverse, unclosed - (AngleMark.settle newest).2) := by
  fun_induction AngleMark.settle newest generalizing unclosed with
  | case1 marks found =>
    have htrim := trim_reverse h
    rw [found] at htrim
    rw [settle_of_trim_eq_none htrim]
    rfl
  | case2 marks rest found hlen ih =>
    have htrim := trim_reverse h
    rw [found] at htrim
    have hwaiting := (AngleMark.dropUnclosed?_eq_some found).2.2
    rw [settle_of_trim_eq_some htrim, sub_eq_ok (by omega), ok_bind, ih (by omega) (by omega),
      Nat.sub_sub, Nat.add_comm 1]
    rfl

end

/-! ## 3. Collecting -/

structure Collector where
  /-- Oldest first. -/
  marks : List AngleMark
  unclosed : Nat
  deriving DecidableEq, Repr

namespace Collector

def initial : Collector := ⟨[], 0⟩

def settle (c : Collector) : Except Fault Collector := do
  let (marks, unclosed) ← Checked.settle c.marks c.unclosed
  return ⟨marks, unclosed⟩

/-- The side of the mark that the cell at `i` deserves. -/
def side? (c : Collector) (text : List UInt8) (i : Nat) (x : Cell) : Except Fault (Option Side) :=
  match x.kind, Bracket.ofByte? x.byte with
  | .code, some (.angle, .opening) => .ok (some .opening)
  | .code, some (.angle, .closing) => do
    let dash ← follows text i Byte.dash
    return if 0 < c.unclosed ∧ dash = false then some .closing else none
  | _, _ => .ok none

def record (room : Collection → Nat → Bool) (c : Collector) (position : Position) (side : Side) :
    Except Fault Collector := do
  reserve room .angleMarks c.marks.length
  let marks := c.marks ++ [⟨side, position⟩]
  match side with
  | .opening =>
    let unclosed ← add c.unclosed 1
    return ⟨marks, unclosed⟩
  | .closing =>
    let unclosed ← sub c.unclosed 1
    return ⟨marks, unclosed⟩

def settleAt (boundaries : List UInt8) (c : Collector) (x : Cell) : Except Fault Collector :=
  if x.byte ∈ boundaries then c.settle else .ok c

/-- The collector after the cell at `i`. -/
def step (room : Collection → Nat → Bool) (boundaries : List UInt8) (text : List UInt8)
    (c : Collector) (i : Nat) (x : Cell) : Except Fault Collector := do
  let settled ← c.settleAt boundaries x
  let side ← settled.side? text i x
  match side with
  | some side => settled.record room x.position side
  | none => return settled

/-- Before the cell at `i` the collector stands where `m` does. -/
structure Tracks (text : List UInt8) (i : Nat) (c : Collector) (m : Nesting.Collector) : Prop where
  marks : c.marks = m.marks.reverse
  unclosed : c.unclosed = m.unclosed
  last : byteBefore text i 1 = .ok m.last
  sound : m.Sound
  length : m.marks.length ≤ i

section

variable {g : Grammar} {text : List UInt8} {i : Nat} {c : Collector} {m : Nesting.Collector}
  {x : Cell} {side : Side} {room : Collection → Nat → Bool}

theorem tracks_initial (text : List UInt8) : Tracks text 0 initial .initial where
  marks := rfl
  unclosed := rfl
  last := rfl
  sound := Nesting.Collector.sound_initial
  length := Nat.le_refl 0

theorem Tracks.unclosed_le (h : Tracks text i c m) : m.unclosed ≤ i := by
  have hcount := h.sound.openers_eq
  have hle : AngleMark.openers m.marks ≤ m.marks.length := List.countP_le_length
  have hlength := h.length
  omega

theorem Tracks.settle (h : Tracks text i c m) (hi : i < Word.limit) :
    ∃ c', c.settle = .ok c' ∧ Tracks text i c' m.settle := by
  have hlength := h.length
  refine ⟨⟨m.settle.marks.reverse, m.settle.unclosed⟩, ?_, rfl, rfl, h.last, h.sound.settle, ?_⟩
  · unfold Collector.settle
    rw [h.marks, h.unclosed, settle_eq_ok (by omega) (Nat.le_of_eq h.sound.unclosed.symm)]
    rfl
  · exact Nat.le_trans m.settle_marks_sublist.length_le hlength

theorem Tracks.settleAt (h : Tracks text i c m) (hi : i < Word.limit) (boundaries : List UInt8)
    (x : Cell) : ∃ c', c.settleAt boundaries x = .ok c' ∧
      Tracks text i c' (if x.byte ∈ boundaries then m.settle else m) := by
  unfold Collector.settleAt
  by_cases hboundary : x.byte ∈ boundaries
  · rw [if_pos hboundary, if_pos hboundary]
    exact h.settle hi
  · rw [if_neg hboundary, if_neg hboundary]
    exact ⟨c, rfl, h⟩

theorem Tracks.side? (h : Tracks text i c m) (x : Cell) : c.side? text i x = .ok (m.side? x) := by
  unfold Collector.side? Nesting.Collector.side?
  cases x.kind with
  | skipped => rfl
  | code =>
    cases Bracket.ofByte? x.byte with
    | none => rfl
    | some found =>
      obtain ⟨bracket, side⟩ := found
      cases bracket with
      | angle =>
        cases side with
        | opening => rfl
        | closing =>
          show (follows text i Byte.dash >>= _) = _
          rw [follows_eq_ok h.last, ok_bind, h.unclosed, pure_eq_ok]
          simp only [beq_eq_false_iff_ne]
      | round | square | curly => rfl

-- The count has room for one opener more, and a closer is marked only while it is positive.
theorem Tracks.record (h : Tracks text i c m) (hi : i + 1 < Word.limit)
    (hside : m.side? x = some side) (position : Position) :
    Yields room (c.record room position side)
      (· = ⟨(m.record position side).marks.reverse, (m.record position side).unclosed⟩) := by
  have hle := h.unclosed_le
  refine (yields_reserve room .angleMarks c.marks.length).bind fun _ _ => ?_
  cases side with
  | opening =>
    show Yields room (add c.unclosed 1 >>= _) _
    rw [h.unclosed, h.marks, add_eq_ok (by omega)]
    exact yields_ok (by rw [← List.reverse_cons]; rfl)
  | closing =>
    have hpos := Nesting.Collector.unclosed_pos_of_side? hside
    show Yields room (sub c.unclosed 1 >>= _) _
    rw [h.unclosed, h.marks, sub_eq_ok hpos]
    exact yields_ok (by rw [← List.reverse_cons]; rfl)

/-- **One cell.** The collector takes it without a fault, other than for want of room. -/
theorem Tracks.step (h : Tracks text i c m) (htext : text.length + 1 < Word.limit)
    (hx : (cells g text)[i]? = some x) :
    Yields room (c.step room g.boundaries text i x)
      (Tracks text (i + 1) · (m.step g.boundaries x)) := by
  obtain ⟨hbyte, -⟩ := byte_position_of_getElem?_cells hx
  obtain ⟨hi, -⟩ := List.getElem?_eq_some_iff.mp hbyte
  obtain ⟨c', hok, h'⟩ := h.settleAt (by omega) g.boundaries x
  unfold Collector.step Nesting.Collector.step
  rw [hok, ok_bind, h'.side?, ok_bind]
  generalize (if x.byte ∈ g.boundaries then m.settle else m) = settled at h' ⊢
  simp only
  have hlength := h'.length
  cases hside : settled.side? x with
  | none =>
    exact yields_ok ⟨h'.marks, h'.unclosed, byteBefore_succ hbyte,
      ⟨h'.sound.fits, h'.sound.unclosed⟩, Nat.le_succ_of_le hlength⟩
  | some side =>
    have hsound := h'.sound.record hside x.position
    refine (h'.record (by omega) hside x.position).mono fun c'' hc'' => ?_
    subst hc''
    refine ⟨rfl, rfl, byteBefore_succ hbyte, ⟨hsound.fits, hsound.unclosed⟩, ?_⟩
    cases side <;> exact Nat.succ_le_succ hlength

end

end Collector

/-- The angle brackets of a text that are delimiters, in the order of the text. -/
def angleMarks (room : Collection → Nat → Bool) (g : Grammar) (text : List UInt8) :
    Except Fault (List AngleMark) := do
  if g.supportsAngles then
    let c ← pass g text (Collector.step room g.boundaries text) .initial
    return c.marks
  else return []

/-- **Collecting.** The marks of a text are collected without a fault, other than for want of
room. -/
theorem angleMarks_yields {text : List UInt8} (htext : text.length + 1 < Word.limit) (g : Grammar)
    (room : Collection → Nat → Bool) :
    Yields room (angleMarks room g text) (· = Nesting.angleMarks g text) := by
  unfold angleMarks Nesting.angleMarks
  by_cases hg : g.supportsAngles = true
  · rw [if_pos hg, if_pos hg]
    have hpass : Yields room (pass g text (Collector.step room g.boundaries text) .initial) _ :=
      pass_yields (Collector.Tracks text) (Nesting.Collector.step g.boundaries) htext
        (Collector.tracks_initial text) fun i x c m hx h => h.step htext hx
    exact hpass.bind fun c hc => yields_ok hc.marks
  · rw [if_neg hg, if_neg hg]
    exact yields_ok rfl

end Checked

end Nesting
