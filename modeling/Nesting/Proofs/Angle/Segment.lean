import Mathlib.Data.List.Induction
import Nesting.Proofs.Angle.Collector

/-!
# Marks by segment

What the collector does to a text, said without it: the text is cut into segments at every byte that
ends a statement, and in each segment a stack pairs the angle brackets. The marks of the text are
the paired brackets of all segments and the openers that wait in the last one.
-/

namespace Nesting

/-! ## 1. Segments of a text -/

/-- The angle bracket at an offset: a code byte, and not the head of an arrow. -/
def angleAt (g : Grammar) (text : List UInt8) (i : Nat) : Option AngleMark :=
  match (Lexer.classes g text)[i]?, text[i]?.bind Bracket.ofByte? with
  | some .code, some (.angle, .opening) => some ⟨.opening, placeAt text i⟩
  | some .code, some (.angle, .closing) =>
    if (text.take i).getLast? = some Byte.dash then none else some ⟨.closing, placeAt text i⟩
  | _, _ => none

/-- It is a `<` of the code, or a `>` of the code without a dash before it. -/
theorem angleAt_eq_some_iff {g : Grammar} {text : List UInt8} {i : Nat} {m : AngleMark} :
    angleAt g text i = some m ↔
      (Lexer.classes g text)[i]? = some .code ∧ text[i]? = some (Bracket.angle.byte m.side) ∧
        m.position = placeAt text i ∧
        (m.side = .closing → (text.take i).getLast? ≠ some Byte.dash) := by
  obtain ⟨side, p⟩ := m
  rw [← bind_ofByte?_eq_some_iff]
  unfold angleAt
  split
  · rename_i hclass hbyte
    rw [hclass, hbyte]
    cases side <;> simp [eq_comm]
  · rename_i hclass hbyte
    rw [hclass, hbyte]
    by_cases hdash : (text.take i).getLast? = some Byte.dash
    · cases side <;> simp [hdash]
    · cases side <;> simp [hdash, eq_comm]
  · rename_i hopening hclosing
    refine ⟨fun h => (by cases h), fun h => ?_⟩
    cases side with
    | opening => exact absurd h.2.1 (hopening h.1)
    | closing => exact absurd h.2.1 (hclosing h.1)

/-- The angle brackets of the segments into which the bytes that end a statement cut the text. -/
def segments (g : Grammar) (text : List UInt8) : List (List AngleMark) :=
  ((List.range text.length).splitOnP (endsStatement g text)).map (List.filterMap (angleAt g text))

/-! ## 2. Pairing in a segment -/

/-- The openers of a segment that wait, newest first, and its pairs. -/
structure AngleStack where
  waiting : List AngleMark
  pairs : List (AngleMark × AngleMark)

namespace AngleStack

/-- An opener waits, and a closer is paired with the newest opener that waits, if there is one. -/
def step (s : AngleStack) (m : AngleMark) : AngleStack :=
  match m.side, s.waiting with
  | .opening, _ => { s with waiting := m :: s.waiting }
  | .closing, o :: rest => ⟨rest, (o, m) :: s.pairs⟩
  | .closing, [] => s

def run (segment : List AngleMark) : AngleStack :=
  segment.foldl step ⟨[], []⟩

def isPaired (s : AngleStack) (m : AngleMark) : Bool :=
  s.pairs.any (fun p => decide (p.1 = m ∨ p.2 = m))

end AngleStack

/-- The angle brackets of a segment that are paired, and those in the list `others`. -/
def keptAngles (segment others : List AngleMark) : List AngleMark :=
  segment.filter (fun m => (AngleStack.run segment).isPaired m || decide (m ∈ others))

/-- Of every segment the paired angle brackets, and of the last one also the openers that wait. -/
def collected : List (List AngleMark) → List AngleMark
  | [] => []
  | [last] => keptAngles last (AngleStack.run last).waiting
  | segment :: next :: later => keptAngles segment [] ++ collected (next :: later)

namespace AngleStack

theorem run_concat (segment : List AngleMark) (m : AngleMark) :
    run (segment ++ [m]) = (run segment).step m := by
  simp [run]

theorem step_opening {m : AngleMark} (hm : m.side = .opening) (s : AngleStack) :
    s.step m = ⟨m :: s.waiting, s.pairs⟩ := by
  simp [step, hm]

theorem step_closing {m o : AngleMark} {rest : List AngleMark} {s : AngleStack}
    (hm : m.side = .closing) (hs : s.waiting = o :: rest) :
    s.step m = ⟨rest, (o, m) :: s.pairs⟩ := by
  simp [step, hm, hs]

theorem step_stray {m : AngleMark} {s : AngleStack} (hm : m.side = .closing)
    (hs : s.waiting = []) : s.step m = s := by
  simp [step, hm, hs]

-- What waits or is paired was read.
theorem mem_of_mem_run (segment : List AngleMark) :
    (∀ m ∈ (run segment).waiting, m ∈ segment) ∧
      ∀ p ∈ (run segment).pairs, p.1 ∈ segment ∧ p.2 ∈ segment := by
  induction segment using List.reverseRecOn with
  | nil => exact ⟨fun m hm => hm, fun p hp => absurd hp List.not_mem_nil⟩
  | append_singleton segment m ih =>
    obtain ⟨hwaiting, hpairs⟩ := ih
    rw [run_concat]
    cases hside : m.side with
    | opening =>
      rw [step_opening hside]
      grind
    | closing =>
      cases hw : (run segment).waiting with
      | nil =>
        rw [step_stray hside hw]
        grind
      | cons o rest =>
        rw [step_closing hside hw]
        grind

end AngleStack

theorem not_isPaired_of_not_mem {segment : List AngleMark} {m : AngleMark} (hm : m ∉ segment) :
    (AngleStack.run segment).isPaired m = false := by
  rw [AngleStack.isPaired, List.any_eq_false]
  intro p hp heq
  rw [decide_eq_true_eq] at heq
  obtain ⟨hfst, hsnd⟩ := (AngleStack.mem_of_mem_run segment).2 p hp
  rcases heq with rfl | rfl
  · exact hm hfst
  · exact hm hsnd

-- One more angle bracket keeps what was kept, if the pairs and the openers left agree on it.
theorem keptAngles_concat {segment others' : List AngleMark} {m : AngleMark}
    (others : List AngleMark)
    (h : ∀ x ∈ segment,
      ((AngleStack.run (segment ++ [m])).isPaired x || decide (x ∈ others')) =
        ((AngleStack.run segment).isPaired x || decide (x ∈ others))) :
    keptAngles (segment ++ [m]) others' = keptAngles segment others ++
      if (AngleStack.run (segment ++ [m])).isPaired m || decide (m ∈ others') then [m] else [] := by
  unfold keptAngles
  rw [List.filter_append, List.filter_congr h, List.filter_singleton, Bool.cond_eq_ite]

/-! ## 3. The collector in a segment -/

/-- The marks, newest first, of a segment as far as it was read: whatever number of waiting openers
is left, the rest are the paired angle brackets. -/
structure Kept (marks segment : List AngleMark) : Prop where
  waiting : AngleMark.waiting marks = (AngleStack.run segment).waiting
  answered : ∀ k, (AngleMark.answered k marks).reverse =
    keptAngles segment ((AngleStack.run segment).waiting.take k)

namespace Kept

open AngleMark

variable {marks segment : List AngleMark} {m : AngleMark}

theorem nil : Kept [] [] := ⟨rfl, fun _ => rfl⟩

theorem reverse_eq (h : Kept marks segment) :
    marks.reverse = keptAngles segment (AngleStack.run segment).waiting := by
  have hall := h.answered (AngleMark.waiting marks).length
  rw [answered_eq_self (Nat.le_refl _), h.waiting, List.take_length] at hall
  exact hall

theorem opening (h : Kept marks segment) (hm : m.side = .opening) (hnew : m ∉ segment) :
    Kept (m :: marks) (segment ++ [m]) := by
  have hrun := AngleStack.run_concat segment m
  rw [AngleStack.step_opening hm] at hrun
  have hne : ∀ x ∈ segment, x ≠ m := fun x hx heq => hnew (heq ▸ hx)
  have hpaired : ∀ x, (AngleStack.run (segment ++ [m])).isPaired x =
      (AngleStack.run segment).isPaired x := fun x => by rw [hrun]; rfl
  refine ⟨by rw [waiting_opening hm, h.waiting, hrun], fun k => ?_⟩
  cases k with
  | zero =>
    rw [keptAngles_concat [] (fun x _ => by rw [hpaired]; simp), hpaired,
      not_isPaired_of_not_mem hnew]
    simpa [AngleMark.answered, hm] using h.answered 0
  | succ n =>
    rw [hrun, List.take_succ_cons, keptAngles_concat ((AngleStack.run segment).waiting.take n)
      (fun x hx => by rw [hpaired]; simp [hne x hx])]
    simpa [AngleMark.answered, hm] using h.answered n

theorem closing (h : Kept marks segment) (hm : m.side = .closing) (hnew : m ∉ segment)
    (hw : AngleMark.waiting marks ≠ []) : Kept (m :: marks) (segment ++ [m]) := by
  obtain ⟨o, rest, hrest⟩ := List.exists_cons_of_ne_nil hw
  rw [h.waiting] at hrest
  have hrun := AngleStack.run_concat segment m
  rw [AngleStack.step_closing hm hrest] at hrun
  have hne : ∀ x ∈ segment, m ≠ x := fun x hx heq => hnew (heq ▸ hx)
  have hpaired : ∀ x, (AngleStack.run (segment ++ [m])).isPaired x =
      (decide (o = x ∨ m = x) || (AngleStack.run segment).isPaired x) :=
    fun x => by rw [hrun]; rfl
  refine ⟨by rw [waiting_closing hm, h.waiting, hrun, hrest]; rfl, fun k => ?_⟩
  -- The opener that the closer answers no longer waits, but is paired now.
  rw [hrun, keptAngles_concat ((o :: rest).take (k + 1))
    (fun x hx => by rw [hpaired]; simp [hne x hx, eq_comm]; grind), hpaired]
  simpa [AngleMark.answered, hm, hrest] using h.answered (k + 1)

theorem stray (h : Kept marks segment) (hm : m.side = .closing) (hnew : m ∉ segment)
    (hw : AngleMark.waiting marks = []) : Kept marks (segment ++ [m]) := by
  rw [h.waiting] at hw
  have hrun := AngleStack.run_concat segment m
  rw [AngleStack.step_stray hm hw] at hrun
  refine ⟨by rw [h.waiting, hrun], fun k => ?_⟩
  rw [hrun, keptAngles_concat _ (fun x _ => by rw [hrun]), hrun, not_isPaired_of_not_mem hnew, hw]
  simpa [hw] using h.answered k

end Kept

/-- The angle bracket that a cell is after the byte `before`. -/
def Cell.angle? (before : Option UInt8) (x : Cell) : Option AngleMark :=
  match x.kind, Bracket.ofByte? x.byte with
  | .code, some (.angle, .opening) => some ⟨.opening, x.position⟩
  | .code, some (.angle, .closing) =>
    if before = some Byte.dash then none else some ⟨.closing, x.position⟩
  | _, _ => none

theorem Cell.eq_of_angle? {before : Option UInt8} {x : Cell} {m : AngleMark}
    (h : x.angle? before = some m) : m = ⟨m.side, x.position⟩ := by
  unfold angle? at h
  split at h
  · cases h
    rfl
  · split at h
    · cases h
    · cases h
      rfl
  · cases h

namespace Collector

theorem side?_eq_bind (c : Collector) (x : Cell) :
    c.side? x = (x.angle? c.last).bind
      (fun m => if m.side = .opening ∨ 0 < c.unclosed then some m.side else none) := by
  unfold side? Cell.angle?
  cases x.kind with
  | skipped => rfl
  | code =>
    cases Bracket.ofByte? x.byte with
    | none => rfl
    | some b =>
      obtain ⟨k, side⟩ := b
      cases k with
      | angle =>
        cases side with
        | opening => rfl
        | closing => by_cases hdash : c.last = some Byte.dash <;> simp [hdash]
      | _ => rfl

-- A cell of the segment keeps the marks what they should be.
theorem kept_step {c : Collector} {segment : List AngleMark} {boundaries : List UInt8} {x : Cell}
    (hc : c.Sound) (h : Kept c.marks segment) (hx : x.byte ∉ boundaries)
    (hnew : ∀ m ∈ segment, m.position ≠ x.position) :
    Kept (c.step boundaries x).marks (segment ++ (x.angle? c.last).toList) := by
  have hside := c.side?_eq_bind x
  cases hangle : x.angle? c.last with
  | none =>
    rw [hangle] at hside
    rw [step_of_side?_eq_none hx hside, Option.toList_none, List.append_nil]
    exact h
  | some m =>
    have hm := Cell.eq_of_angle? hangle
    have hmem : m ∉ segment := fun hin => hnew m hin (congrArg AngleMark.position hm)
    rw [hangle, Option.bind_some] at hside
    rw [Option.toList_some]
    cases hms : m.side with
    | opening =>
      rw [if_pos (.inl hms), hms] at hside
      rw [step_of_side?_eq_some hx hside]
      show Kept (⟨.opening, x.position⟩ :: c.marks) _
      rw [← hms, ← hm]
      exact h.opening hms hmem
    | closing =>
      have hopening : ¬ m.side = .opening := by
        rw [hms]
        decide
      by_cases hpos : 0 < c.unclosed
      · rw [if_pos (.inr hpos), hms] at hside
        rw [step_of_side?_eq_some hx hside]
        show Kept (⟨.closing, x.position⟩ :: c.marks) _
        rw [← hms, ← hm]
        apply h.closing hms hmem
        rw [hc.unclosed] at hpos
        exact List.ne_nil_of_length_pos hpos
      · rw [if_neg (not_or.mpr ⟨hopening, hpos⟩)] at hside
        rw [step_of_side?_eq_none hx hside]
        apply h.stray hms hmem
        rw [hc.unclosed] at hpos
        exact List.eq_nil_of_length_eq_zero (by omega)

end Collector

/-! ## 4. The collector through a text -/

theorem angle?_of_getElem?_cells (g : Grammar) (text : List UInt8) (i : Nat) :
    (cells g text)[i]?.bind (Cell.angle? (text.take i).getLast?) = angleAt g text i := by
  unfold angleAt
  rw [getElem?_cells, getElem?_classes]
  cases text[i]? with
  | none => rfl
  | some b =>
    simp only [Option.map_some, Option.bind_some, Cell.angle?]
    cases (Lexer.run g (text.take i)).classify g b with
    | skipped => rfl
    | code =>
      cases Bracket.ofByte? b with
      | none => rfl
      | some b =>
        obtain ⟨k, side⟩ := b
        cases k with
        | angle => cases side <;> rfl
        | _ => rfl

theorem drop_cells (g : Grammar) {text : List UInt8} {k : Nat} (hk : k < text.length) :
    ∃ x : Cell, (cells g text).drop k = x :: (cells g text).drop (k + 1) ∧ x.byte = text[k] ∧
      x.position = placeAt text k ∧ x.angle? (text.take k).getLast? = angleAt g text k := by
  have hcell := getElem?_cells g text k
  have hangle := angle?_of_getElem?_cells g text k
  have hlen : k < (cells g text).length := by
    rw [length_cells]
    exact hk
  rw [hcell, List.getElem?_eq_getElem hk, Option.map_some, Option.bind_some] at hangle
  rw [List.getElem?_eq_getElem hlen, List.getElem?_eq_getElem hk, Option.map_some,
    Option.some.injEq] at hcell
  rw [List.drop_eq_getElem_cons hlen, hcell]
  exact ⟨_, rfl, rfl, rfl, hangle⟩

theorem collected_cons {later : List (List AngleMark)} (h : later ≠ []) (segment : List AngleMark) :
    collected (segment :: later) = keptAngles segment [] ++ collected later := by
  cases later with
  | nil => exact absurd rfl h
  | cons next later => rfl

/-- The segments of the `n` bytes from the offset `k` on. -/
def segmentsFrom (g : Grammar) (text : List UInt8) (k n : Nat) : List (List AngleMark) :=
  ((List.range' k n).splitOnP (endsStatement g text)).map (List.filterMap (angleAt g text))

section

variable {g : Grammar} {text : List UInt8} {k : Nat}

theorem segmentsFrom_ne_nil (g : Grammar) (text : List UInt8) (k n : Nat) :
    segmentsFrom g text k n ≠ [] := by
  unfold segmentsFrom
  rw [Ne, List.map_eq_nil_iff]
  exact List.splitOnP_ne_nil _ _

theorem segmentsFrom_of_endsStatement (hk : endsStatement g text k = true) (n : Nat) :
    segmentsFrom g text k (n + 1) = [] :: segmentsFrom g text (k + 1) n := by
  unfold segmentsFrom
  rw [List.range'_succ, List.splitOnP_cons_eq_if_modifyHead, if_pos hk, List.map_cons,
    List.filterMap_nil]

theorem segmentsFrom_of_not_endsStatement (hk : endsStatement g text k = false) (n : Nat) :
    segmentsFrom g text k (n + 1) =
      (segmentsFrom g text (k + 1) n).modifyHead ((angleAt g text k).toList ++ ·) := by
  unfold segmentsFrom
  rw [List.range'_succ, List.splitOnP_cons_eq_if_modifyHead, if_neg (by simp [hk])]
  cases (List.range' (k + 1) n).splitOnP (endsStatement g text) with
  | nil => rfl
  | cons first later =>
    rw [List.modifyHead_cons, List.map_cons, List.map_cons, List.modifyHead_cons,
      List.filterMap_cons]
    cases angleAt g text k <;> rfl

end

-- With the angle bracket at `k` all that was read lies before the next place.
theorem position_lt_of_mem_append_angleAt {g : Grammar} {text : List UInt8} {k : Nat}
    {segment : List AngleMark} (hk : k < text.length)
    (hold : ∀ m ∈ segment, m.position < placeAt text k) :
    ∀ m ∈ segment ++ (angleAt g text k).toList, m.position < placeAt text (k + 1) := by
  have hlater : placeAt text k < placeAt text (k + 1) := placeAt_lt_placeAt (by omega) hk
  intro m hm
  rcases List.mem_append.mp hm with hm | hm
  · exact Position.lt_trans (hold m hm) hlater
  · rw [(angleAt_eq_some_iff.mp (Option.mem_toList.mp hm)).2.2.1]
    exact hlater

-- Induction on the number of bytes to come. The segment at hand is the one that the last end of a
-- statement has opened; at the next one its marks are settled, and the run goes on behind them.
theorem foldl_step_segments (g : Grammar) (text : List UInt8) (n : Nat) {k : Nat} {c : Collector}
    {segment : List AngleMark} (hk : k + n = text.length) (hc : c.Sound)
    (h : Kept c.marks segment) (hlast : c.last = (text.take k).getLast?)
    (hold : ∀ m ∈ segment, m.position < placeAt text k) :
    (((cells g text).drop k).foldl (Collector.step g.boundaries) c).marks.reverse =
      collected ((segmentsFrom g text k n).modifyHead (segment ++ ·)) := by
  induction n generalizing k c segment with
  | zero =>
    have hdrop : (cells g text).drop k = [] := by
      rw [List.drop_eq_nil_iff, length_cells]
      omega
    rw [hdrop]
    show c.marks.reverse = collected [segment ++ []]
    rw [List.append_nil]
    exact h.reverse_eq
  | succ n ih =>
    have hlt : k < text.length := by omega
    obtain ⟨x, hdrop, hbyte, hplace, hangle⟩ := drop_cells g hlt
    have hends : endsStatement g text k = decide (x.byte ∈ g.boundaries) := by
      unfold endsStatement
      rw [List.getElem?_eq_getElem hlt, Option.any_some, hbyte]
    have hnext : some x.byte = (text.take (k + 1)).getLast? := by
      rw [List.take_succ_eq_append_getElem hlt, List.getLast?_concat, hbyte]
    rw [hdrop, List.foldl_cons]
    by_cases hx : x.byte ∈ g.boundaries
    · have hwaiting : AngleMark.waiting (AngleMark.answered 0 c.marks) = [] :=
        AngleMark.waiting_answered 0 c.marks
      have hrest := ih (c := Collector.mk [] 0 (some x.byte)) (by omega) ⟨trivial, rfl⟩ Kept.nil
        hnext (fun m hm => absurd hm List.not_mem_nil)
      rw [show (fun s : List AngleMark => [] ++ s) = id from rfl, List.modifyHead_id, id] at hrest
      rw [hc.step_of_boundary hx, Collector.foldl_step_behind hwaiting,
        segmentsFrom_of_endsStatement (hends.trans (decide_eq_true hx)), List.modifyHead_cons,
        List.append_nil, collected_cons (segmentsFrom_ne_nil g text _ _), ← hrest]
      show (_ ++ AngleMark.answered 0 c.marks).reverse = _
      rw [List.reverse_append, h.answered 0, List.take_zero]
    · have hstep := Collector.kept_step hc h hx (fun m hm heq => by
        have hbefore := hold m hm
        rw [heq, hplace] at hbefore
        exact Position.lt_irrefl _ hbefore)
      rw [hlast, hangle] at hstep
      have hold' := position_lt_of_mem_append_angleAt (g := g) hlt hold
      rw [segmentsFrom_of_not_endsStatement (hends.trans (decide_eq_false hx)),
        List.modifyHead_modifyHead, ih (by omega) (hc.step g x) hstep hnext hold']
      congr 2
      funext s
      exact List.append_assoc _ _ _

/-- **Segments.** The marks of a text are the paired angle brackets of all its segments and the
openers that wait in the last one, in the order of the text, and they are balanced after every byte
that ends a statement. -/
theorem angleMarks_eq_collected (g : Grammar) (hg : g.supportsAngles = true) (text : List UInt8) :
    angleMarks g text = collected (segments g text) ∧
      ∀ n, endsStatement g text n = true →
        WellNested (AngleMark.word (angleMarks g (text.take (n + 1)))) := by
  refine ⟨?_, fun n hn => ?_⟩
  · have h := foldl_step_segments g text text.length (k := 0) (by omega) Collector.sound_initial
      Kept.nil rfl (fun m hm => absurd hm List.not_mem_nil)
    rw [show (fun s : List AngleMark => [] ++ s) = id from rfl, List.modifyHead_id, id,
      segmentsFrom, ← List.range_eq_range', List.drop_zero] at h
    rw [angleMarks_eq_reverse_run hg]
    exact h
  · rw [angleMarks_eq_reverse_run hg]
    exact (Collector.sound_run g _).fits.wellNested (Collector.waiting_run_of_endsStatement hn)

/-- Comparisons, a statement end in a comment, an arrow in a template argument, and a template left
open. -/
def comparisonText : List UInt8 :=
  [0x61, 0x3c, 0x62, 0x2f, 0x2a, 0x3b, 0x2a, 0x2f, 0x63, 0x3e, 0x64, 0x3c, 0x65, 0x2d, 0x3e,
    0x66, 0x3e, 0x3b, 0x67, 0x3e, 0x68, 0x3c, 0x69, 0x3c, 0x6a, 0x3e]

theorem angleMarks_comparisonText :
    angleMarks .cpp comparisonText =
        [⟨.opening, ⟨1, 12⟩⟩, ⟨.closing, ⟨1, 17⟩⟩, ⟨.opening, ⟨1, 22⟩⟩, ⟨.opening, ⟨1, 24⟩⟩,
          ⟨.closing, ⟨1, 26⟩⟩] ∧
      endsStatement .cpp comparisonText 17 = true ∧
        WellNested (AngleMark.word (angleMarks .cpp (comparisonText.take 18))) := by
  have hends : endsStatement .cpp comparisonText 17 = true := by decide
  obtain ⟨hmarks, hbalanced⟩ := angleMarks_eq_collected .cpp rfl comparisonText
  refine ⟨hmarks.trans ?_, hends, hbalanced 17 hends⟩
  decide +kernel

end Nesting
