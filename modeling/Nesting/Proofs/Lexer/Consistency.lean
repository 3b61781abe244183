import Mathlib.Data.List.Induction
import Nesting.Proofs.Checked.Lexer

/-!
# States of the lexer

The lexer on words keeps its flags apart, so that most of what its fields can hold together makes no
sense: a line comment inside a literal, say, or a block comment that was opened nowhere. This file
shows that no text leads there.
-/

namespace Nesting

/-! ## 1. What the lexer knows of the text -/

/-- The byte at `i` was read and is `b`, and `a` stands before it. -/
structure EndsPair (read : List UInt8) (a b : UInt8) (i : Nat) : Prop where
  second : read[i]? = some b
  positive : 1 ≤ i
  first : read[i - 1]? = some a

section

variable {read : List UInt8} {a b : UInt8} {i : Nat}

theorem EndsPair.lt_length (h : EndsPair read a b i) : i < read.length :=
  (List.getElem?_eq_some_iff.mp h.second).1

theorem EndsPair.concat (h : EndsPair read a b i) (c : UInt8) : EndsPair (read ++ [c]) a b i := by
  have hi := h.lt_length
  refine ⟨?_, h.positive, ?_⟩
  · rw [List.getElem?_append_left hi]
    exact h.second
  · rw [List.getElem?_append_left (by omega)]
    exact h.first

theorem endsPair_concat (hlast : read.getLast? = some a) (b : UInt8) :
    EndsPair (read ++ [b]) a b read.length := by
  rw [List.getLast?_eq_getElem?] at hlast
  have hlength := (List.getElem?_eq_some_iff.mp hlast).1
  refine ⟨List.getElem?_concat_length, by omega, ?_⟩
  rw [List.getElem?_append_left hlength]
  exact hlast

end

/-- Each of the stars, innermost first, opened a comment inside those that were open already. -/
structure OpenComments (g : Grammar) (read : List UInt8) (stars : List Nat) : Prop where
  ordered : stars.Pairwise (· > ·)
  opened : ∀ i ∈ stars, EndsPair read Byte.slash Byte.star i
  flat : g ≠ .rust → stars.length ≤ 1

section

variable {g : Grammar} {read : List UInt8} {stars : List Nat}

theorem OpenComments.concat (h : OpenComments g read stars) (b : UInt8) :
    OpenComments g (read ++ [b]) stars :=
  ⟨h.ordered, fun i hi => (h.opened i hi).concat b, h.flat⟩

theorem OpenComments.cons (h : OpenComments g read stars)
    (hlast : read.getLast? = some Byte.slash) (hflat : g ≠ .rust → stars = []) :
    OpenComments g (read ++ [Byte.star]) (read.length :: stars) where
  ordered := List.pairwise_cons.mpr ⟨fun i hi => (h.opened i hi).lt_length, h.ordered⟩
  opened := List.forall_mem_cons.mpr ⟨endsPair_concat hlast _, (h.concat _).opened⟩
  flat := by
    intro hg
    rw [hflat hg]
    exact Nat.le_refl 1

theorem OpenComments.tail (h : OpenComments g read stars) : OpenComments g read stars.tail where
  ordered := h.ordered.tail
  opened := fun i hi => h.opened i (List.mem_of_mem_tail hi)
  flat := by
    intro hg
    have hle := h.flat hg
    rw [List.length_tail]
    omega

end

namespace Lexer

/-- What holds of the lexer after it has read `read`. -/
structure Sound (g : Grammar) (read : List UInt8) (s : Lexer) : Prop where
  offset : s.offset = read.length
  last : s.last = read.getLast?
  region : Checked.Lexer.HasRegion g s.region
  comments : OpenComments g read s.region.stars
  closed : ∀ i, s.closedAt = some i → EndsPair read Byte.star Byte.slash i
  short : ∀ body, s.region = .char body → body ≤ 1

section

variable {g : Grammar} {read : List UInt8} {s : Lexer} {b : UInt8}

theorem sound_initial (g : Grammar) : initial.Sound g [] where
  offset := rfl
  last := rfl
  region := by
    cases g with
    | generic => rfl
    | c | cpp => exact Region.noConfusion
    | rust => trivial
  comments := ⟨List.Pairwise.nil, fun _ h => absurd h List.not_mem_nil, fun _ => Nat.zero_le 1⟩
  closed := fun _ h => (by cases h)
  short := fun _ => Region.noConfusion

theorem Sound.getLast?_of_followsSlash (h : s.Sound g read) (hslash : s.followsSlash = true) :
    read.getLast? = some Byte.slash := by
  unfold followsSlash at hslash
  rw [Bool.and_eq_true, beq_iff_eq, h.last] at hslash
  exact hslash.1

theorem Sound.endsPair_of_endsComment (h : s.Sound g read) (hends : s.endsComment b = true) :
    EndsPair (read ++ [b]) Byte.star Byte.slash s.offset := by
  have hcloses : b = Byte.slash ∧ s.last = some Byte.star := by
    unfold endsComment at hends
    split at hends
    · unfold closesComment at hends
      rw [Bool.and_eq_true, Bool.and_eq_true, beq_iff_eq, beq_iff_eq] at hends
      exact hends.1
    · cases hends
  rw [h.offset, hcloses.1]
  exact endsPair_concat (h.last.symm.trans hcloses.2) _

/-- One byte keeps it all. -/
theorem Sound.advance (h : s.Sound g read) (b : UInt8) :
    (s.advance g b).Sound g (read ++ [b]) where
  offset := by rw [offset_advance, h.offset, List.length_append, List.length_singleton]
  last := by rw [last_advance, List.getLast?_concat]
  region := h.region.rule b
  comments := by
    have hmoves : Moves g s b (s.rule g b) := moves_rule h.region.code
    rw [region_advance]
    rcases hmoves.stars with hsame | ⟨rfl, hslash, hflat, hopen⟩ | ⟨-, hclose⟩
    · rw [hsame]
      exact h.comments.concat b
    · rw [hopen, h.offset]
      exact h.comments.cons (h.getLast?_of_followsSlash hslash) hflat
    · rw [hclose]
      exact h.comments.tail.concat b
  closed := by
    intro i hi
    by_cases hends : s.endsComment b = true
    · have hoffset : s.offset = i := by
        simpa only [Lexer.advance, hends, if_true, Option.some.injEq] using hi
      rw [← hoffset]
      exact h.endsPair_of_endsComment hends
    · rw [closedAt_advance (Bool.eq_false_iff.mpr hends)] at hi
      exact (h.closed i hi).concat b
  short := by
    intro body hbody
    rw [region_advance] at hbody
    exact (moves_rule h.region.code).body_le h.short hbody

theorem Sound.code_of_classify (h : s.Sound g read) (hcode : s.classify g b = .code) :
    (s.advance g b).region = .code :=
  (moves_rule h.region.code).code_of_code hcode

theorem sound_run (g : Grammar) (read : List UInt8) : (run g read).Sound g read := by
  induction read using List.reverseRecOn with
  | nil => exact sound_initial g
  | append_singleton read b ih =>
    rw [run_append]
    exact ih.advance b

end

end Lexer

/-! ## 2. Flags that fit together -/

namespace Checked.Lexer

/-- The flags and counters of a lexer that has read `read` fit together and are true of it. -/
structure Consistent (g : Grammar) (read : List UInt8) (w : Lexer) : Prop where
  comment : w.lineComment = true → w.stars = []
  literal : w.literal ≠ none → w.lineComment = false ∧ w.stars = []
  /-- From the outermost comment to the innermost. -/
  ordered : w.stars.reverse.Pairwise (· < ·)
  opened : ∀ i ∈ w.stars, EndsPair read Byte.slash Byte.star i
  flat : g ≠ .rust → w.stars.length ≤ 1
  plain : g = .generic → w.stars = []
  closed : ∀ i, w.closedAt = some i → EndsPair read Byte.star Byte.slash i
  escape : w.literal = some .byteEscape → g = .rust
  short : w.literal = some .char → w.length ≤ 1

/-- In no comment and in no literal. -/
structure Outside (w : Lexer) : Prop where
  line : w.lineComment = false
  block : w.stars = []
  literal : w.literal = none

/-- The lexer after the first `n` bytes of `text`. -/
def feed (g : Grammar) (text : List UInt8) : Nat → Except Fault Lexer
  | 0 => .ok initial
  | n + 1 => do
    let w ← feed g text n
    let (_, next) ← w.classify g text n
    return next

variable {g : Grammar} {text read : List UInt8} {s : Nesting.Lexer} {w next : Lexer}
  {n : Nat}

theorem consistent_inRegion (h : s.Sound g read) (hn : ∀ body, s.region = .char body → n = body) :
    (inRegion s.region s.closedAt n).Consistent g read where
  comment := by
    intro hline
    rw [show s.region = .lineComment from beq_iff_eq.mp hline]
    rfl
  literal := by
    intro hliteral
    cases hr : s.region with
    | string | char | byteEscape => exact ⟨rfl, rfl⟩
    | code | lineComment | blockComment =>
      rw [hr] at hliteral
      exact absurd rfl hliteral
  ordered := List.pairwise_reverse.mpr h.comments.ordered
  opened := h.comments.opened
  flat := h.comments.flat
  plain := by
    rintro rfl
    have hr : s.region = .code := h.region
    rw [hr]
    rfl
  closed := h.closed
  escape := by
    intro hescape
    have hregion := h.region
    cases hr : s.region with
    | byteEscape =>
      rw [hr] at hregion
      cases g with
      | generic => cases hregion
      | c | cpp => exact absurd rfl hregion
      | rust => rfl
    | code | lineComment | blockComment | string | char =>
      rw [hr] at hescape
      cases hescape
  short := by
    intro hchar
    cases hr : s.region with
    | char body =>
      show n ≤ 1
      rw [hn body hr]
      exact h.short body hr
    | code | lineComment | blockComment | string | byteEscape =>
      rw [hr] at hchar
      cases hchar

theorem Mirrors.consistent (h : w.Mirrors g text n s) (hs : s.Sound g read) :
    w.Consistent g read := by
  rw [h.same]
  exact consistent_inRegion hs h.counts

theorem Mirrors.outside (h : w.Mirrors g text n s) (hcode : s.region = .code) : w.Outside := by
  rw [h.same, hcode]
  exact ⟨rfl, rfl, rfl⟩

theorem Mirrors.outside_of_classify (h : w.Mirrors g text n s) (hs : s.Sound g read)
    (htext : text.length + 1 < Word.limit) (hn : n < text.length)
    (hclassify : w.classify g text n = .ok (.code, next)) : next.Outside := by
  obtain ⟨w', hok, hmirrors⟩ := h.classify (List.getElem?_eq_getElem hn) (by omega)
  rw [hok, Except.ok.injEq, Prod.mk.injEq] at hclassify
  obtain ⟨hcode, rfl⟩ := hclassify
  exact hmirrors.outside (hs.code_of_classify hcode)

-- The two lexers stay side by side, so the checked one never stops.
theorem feed_mirrors (htext : text.length + 1 < Word.limit) (hn : n ≤ text.length) :
    ∃ w, feed g text n = .ok w ∧ w.Mirrors g text n (Nesting.Lexer.run g (text.take n)) := by
  induction n with
  | zero => exact ⟨initial, rfl, mirrors_initial g text⟩
  | succ n ih =>
    obtain ⟨w, hfeed, hmirrors⟩ := ih (by omega)
    obtain ⟨next, hclassify, hnext⟩ :=
      hmirrors.classify (List.getElem?_eq_getElem hn) (by omega)
    refine ⟨next, ?_, ?_⟩
    · show (feed g text n >>= _) = _
      rw [hfeed, ok_bind, hclassify]
      rfl
    · rw [List.take_succ_eq_append_getElem hn, Nesting.Lexer.run_append]
      exact hnext

end Checked.Lexer

/-! ## 3. Every state -/

/-- The state of the lexer as flags and counters. -/
def Lexer.flags (s : Lexer) : Checked.Lexer :=
  .inRegion s.region s.closedAt (match s.region with
    | .char body => body
    | _ => 0)

section

variable {g : Grammar} {read : List UInt8} {s : Lexer}

theorem Lexer.Sound.consistent (h : s.Sound g read) : s.flags.Consistent g read := by
  apply Checked.Lexer.consistent_inRegion h
  intro body hbody
  rw [hbody]

theorem Lexer.outside_flags (h : s.region = .code) : s.flags.Outside := by
  unfold flags
  rw [h]
  exact ⟨rfl, rfl, rfl⟩

end

/-- **States.** After any number of bytes of any text the state of the lexer is consistent with what
was read, and after a byte of the code it is in no comment and in no literal. On a text that fits
into memory the lexer that keeps its flags apart gets through all of it and is in the same state. -/
theorem lexer_state_is_consistent (g : Grammar) (text : List UInt8) (n : Nat) :
    (Lexer.run g (text.take n)).flags.Consistent g (text.take n) ∧
    (∀ b, (Lexer.run g (text.take n)).classify g b = .code →
      ((Lexer.run g (text.take n)).advance g b).flags.Outside) ∧
    (text.length ≤ Nat.pow 2 63 - 1 → n ≤ text.length →
      ∃ w, Checked.Lexer.feed g text n = .ok w ∧
        w = { (Lexer.run g (text.take n)).flags with length := w.length } ∧
        w.Consistent g (text.take n) ∧
        (n < text.length → ∀ next, w.classify g text n = .ok (.code, next) → next.Outside)) := by
  have hsound := Lexer.sound_run g (text.take n)
  refine ⟨hsound.consistent, ?_, ?_⟩
  · intro b hcode
    exact Lexer.outside_flags (hsound.code_of_classify hcode)
  · intro htext hn
    have hlimit : Nat.pow 2 63 - 1 + 1 < Word.limit := by decide
    obtain ⟨w, hfeed, hmirrors⟩ :=
      Checked.Lexer.feed_mirrors (g := g) (show text.length + 1 < Word.limit by omega) hn
    refine ⟨w, hfeed, hmirrors.same, hmirrors.consistent hsound, ?_⟩
    intro hlt next hclassify
    exact hmirrors.outside_of_classify hsound (by omega) hlt hclassify

/-- A comment with two others in it, of which the first is closed and the second holds an
apostrophe. -/
def doubledComments : List UInt8 := [0x2f, 0x2a, 0x2f, 0x2a, 0x2a, 0x2f, 0x2f, 0x2a, 0x27]

theorem lexer_state_of_doubledComments :
    doubledComments.length ≤ Nat.pow 2 63 - 1 ∧
      Checked.Lexer.feed .rust doubledComments 9 = .ok ⟨false, [7, 1], some 5, none, 0⟩ ∧
      Checked.Lexer.Consistent .rust doubledComments ⟨false, [7, 1], some 5, none, 0⟩ := by
  have hlength : doubledComments.length ≤ Nat.pow 2 63 - 1 := by decide
  have hstate : Checked.Lexer.feed .rust doubledComments 9 =
      .ok ⟨false, [7, 1], some 5, none, 0⟩ := by decide +kernel
  obtain ⟨-, -, hfeed⟩ := lexer_state_is_consistent .rust doubledComments 9
  obtain ⟨w, hw, -, hconsistent, -⟩ := hfeed hlength (by decide)
  rw [hstate, Except.ok.injEq] at hw
  subst hw
  exact ⟨hlength, hstate, hconsistent⟩

end Nesting
