import Nesting.Proofs.Angle.Collector

/-!
# Marks are used where they were made

The cells of a text are read twice. The first reading makes marks and takes some of them back, the
second uses up the marks from the front and compares nothing but places. What the second reading
keeps is `Awaits`: the marks left belong to cells that are still to come. So it never finds a mark
behind it, and each mark is used up by the cell that made it.
-/

namespace Nesting

def AngleMark.site (m : AngleMark) : Site :=
  ⟨.angle, m.side, m.position⟩

/-- The angle brackets among some delimiters. -/
def angleSites (xs : List Site) : List Site :=
  xs.filter (fun x => decide (x.bracket = .angle))

/-! ## 1. One cell uses up a mark or leaves the marks alone -/

namespace SiteFinder

/-- The cell takes the first mark left for its own place. -/
structure Uses (f : SiteFinder) (x : Cell) (m : AngleMark) : Prop where
  marks : f.marks = m :: (f.step x).marks
  found : (f.step x).found = m.site :: f.found

/-- The cell uses no mark up and is no angle bracket that counts. -/
structure Passes (f : SiteFinder) (x : Cell) : Prop where
  marks : (f.step x).marks = f.marks
  found : angleSites (f.step x).found = angleSites f.found

/-- The marks left are marks of the cells to come, in their order. -/
def Awaits (f : SiteFinder) (xs : List Cell) : Prop :=
  f.marks.Sublist (xs.filterMap Cell.mark?)

variable {f : SiteFinder} {x : Cell} {xs : List Cell} {m : AngleMark}

theorem Awaits.exists_position (h : f.Awaits xs) (hm : m ∈ f.marks) :
    ∃ y ∈ xs, m.position = y.position := by
  obtain ⟨y, hy, hmark⟩ := List.mem_filterMap.mp (h.subset hm)
  exact ⟨y, hy, (Cell.mark?_eq_some_iff.mp hmark).2.2⟩

theorem Awaits.lt_position (h : f.Awaits xs) (hx : ∀ y ∈ xs, x.position < y.position)
    (hm : m ∈ f.marks) : x.position < m.position := by
  obtain ⟨y, hy, hpos⟩ := h.exists_position hm
  rw [hpos]
  exact hx y hy

theorem skipTo_eq_self {p : Position} (h : ∀ m ∈ f.marks, p ≤ m.position) : f.skipTo p = f := by
  obtain ⟨marks, found⟩ := f
  cases marks with
  | nil => rfl
  | cons m rest =>
    have hm : ¬ m.position < p := Position.not_lt.mpr (h m List.mem_cons_self)
    unfold skipTo
    rw [List.dropWhile_cons_of_neg (by simpa using hm)]

-- Nothing that waits lies behind the next cell.
theorem Awaits.skipTo_eq_self (h : f.Awaits (x :: xs)) (hx : ∀ y ∈ xs, x.position < y.position) :
    f.skipTo x.position = f := by
  apply SiteFinder.skipTo_eq_self
  intro m hm
  obtain ⟨y, hy, hpos⟩ := h.exists_position hm
  rw [hpos]
  rcases List.mem_cons.mp hy with rfl | hy
  · exact Position.le_refl _
  · exact Position.le_iff_lt_or_eq.mpr (Or.inl (hx y hy))

theorem uses_of_mark? {rest : List AngleMark} (hmarks : f.marks = m :: rest)
    (hmark : x.mark? = some m) : f.Uses x m := by
  obtain ⟨hkind, hbyte, hpos⟩ := Cell.mark?_eq_some_iff.mp hmark
  have hskip : f.skipTo x.position = f := by
    unfold skipTo
    rw [hmarks, List.dropWhile_cons_of_neg (by simp [hpos]), ← hmarks]
  have hstep : f.step x = ⟨rest, m.site :: f.found⟩ := by
    unfold step
    rw [hkind, hbyte]
    simp only [hskip]
    unfold take AngleMark.site
    simp [Bracket.isPlain, hmarks, hpos]
  constructor
  · rw [hstep, hmarks]
  · rw [hstep]

-- Before all the marks left, an angle bracket does not count.
theorem take_of_lt (h : ∀ m ∈ f.marks, x.position < m.position) {k : Bracket} {side : Side}
    (hk : k.isPlain = false) : f.take ⟨k, side, x.position⟩ = f := by
  unfold take
  rw [hk]
  cases hmarks : f.marks with
  | nil => rfl
  | cons m rest =>
    have hlt : x.position < m.position := h m (hmarks ▸ List.mem_cons_self)
    have hne : m.position ≠ x.position := by
      intro heq
      rw [heq] at hlt
      exact Position.lt_irrefl _ hlt
    simp [hne]

theorem passes_of_step_eq (h : f.step x = f) : f.Passes x := by
  constructor
  · rw [h]
  · rw [h]

theorem passes_of_lt (h : ∀ m ∈ f.marks, x.position < m.position) : f.Passes x := by
  have hskip : f.skipTo x.position = f :=
    skipTo_eq_self fun m hm => Position.le_iff_lt_or_eq.mpr (Or.inl (h m hm))
  cases hkind : x.kind with
  | skipped =>
    apply passes_of_step_eq
    unfold step
    rw [hkind]
  | code =>
    cases hbyte : Bracket.ofByte? x.byte with
    | none =>
      apply passes_of_step_eq
      unfold step
      rw [hkind, hbyte]
      exact hskip
    | some b =>
      obtain ⟨k, side⟩ := b
      have hstep : f.step x = f.take ⟨k, side, x.position⟩ := by
        unfold step
        rw [hkind, hbyte]
        simp only [hskip]
      cases hk : k.isPlain with
      | false => exact passes_of_step_eq (hstep.trans (take_of_lt h hk))
      | true =>
        have hplain : k ≠ .angle := by
          rintro rfl
          cases hk
        have htake : f.step x = ⟨f.marks, ⟨k, side, x.position⟩ :: f.found⟩ := by
          rw [hstep]
          unfold take
          rw [if_pos hk]
        constructor
        · rw [htake]
        · rw [htake]
          unfold angleSites
          rw [List.filter_cons_of_neg (by simpa using hplain)]

/-- The next cell uses up the first mark left, which is its own, or it passes the marks by. Either
way the marks left then belong to the cells after it. -/
theorem Awaits.step (h : f.Awaits (x :: xs)) (hx : ∀ y ∈ xs, x.position < y.position) :
    (f.step x).Awaits xs ∧ (f.Passes x ∨ ∃ m, x.mark? = some m ∧ f.Uses x m) := by
  have hpass : f.Awaits xs → (f.step x).Awaits xs ∧ f.Passes x := by
    intro hxs
    have hpasses := passes_of_lt fun m hm => hxs.lt_position hx hm
    unfold Awaits
    rw [hpasses.marks]
    exact ⟨hxs, hpasses⟩
  unfold Awaits at h
  cases hmark : x.mark? with
  | none =>
    rw [List.filterMap_cons_none hmark] at h
    exact ⟨(hpass h).1, Or.inl (hpass h).2⟩
  | some m =>
    rw [List.filterMap_cons_some hmark] at h
    rcases List.sublist_cons_iff.mp h with hxs | ⟨rest, hmarks, hrest⟩
    · exact ⟨(hpass hxs).1, Or.inl (hpass hxs).2⟩
    · have huses := uses_of_mark? hmarks hmark
      have hleft : (f.step x).marks = rest := by
        have heq := huses.marks
        rw [hmarks, List.cons.injEq] at heq
        exact heq.2.symm
      refine ⟨?_, Or.inr ⟨m, rfl, huses⟩⟩
      unfold Awaits
      rw [hleft]
      exact hrest

end SiteFinder

/-! ## 2. Both readings, byte by byte -/

/-- The collector after the first `n` bytes of a text. -/
def collectorAt (g : Grammar) (text : List UInt8) (n : Nat) : Collector :=
  ((cells g text).take n).foldl (Collector.step g.boundaries) .initial

/-- The finder after the first `n` bytes of a text whose marks it was given. -/
def finderAt (g : Grammar) (text : List UInt8) (n : Nat) : SiteFinder :=
  ((cells g text).take n).foldl SiteFinder.step ⟨angleMarks g text, []⟩

/-- The cell gives the collector a new mark. -/
def Collector.Makes (g : Grammar) (c : Collector) (x : Cell) (m : AngleMark) : Prop :=
  (c.step g.boundaries x).marks = m :: c.marks

section

variable {g : Grammar} {text : List UInt8} {n : Nat} {x : Cell} {m : AngleMark}

theorem foldl_take_succ {σ α : Type} (step : σ → α → σ) (s : σ) {l : List α} {a : α}
    (ha : l[n]? = some a) : (l.take (n + 1)).foldl step s = step ((l.take n).foldl step s) a := by
  rw [List.take_add_one, ha, List.foldl_append]
  rfl

theorem collectorAt_succ (hx : (cells g text)[n]? = some x) :
    collectorAt g text (n + 1) = (collectorAt g text n).step g.boundaries x :=
  foldl_take_succ _ _ hx

theorem finderAt_succ (hx : (cells g text)[n]? = some x) :
    finderAt g text (n + 1) = (finderAt g text n).step x :=
  foldl_take_succ _ _ hx

theorem drop_cells_eq_cons (hx : (cells g text)[n]? = some x) :
    (cells g text).drop n = x :: (cells g text).drop (n + 1) := by
  obtain ⟨hn, rfl⟩ := List.getElem?_eq_some_iff.mp hx
  exact List.drop_eq_getElem_cons hn

theorem position_lt_of_mem_drop (hx : (cells g text)[n]? = some x) :
    ∀ y ∈ (cells g text).drop (n + 1), x.position < y.position := by
  have hsorted := (pairwise_position_cells g text).sublist (List.drop_sublist n _)
  rw [drop_cells_eq_cons hx] at hsorted
  exact (List.pairwise_cons.mp hsorted).1

/-- After any number of bytes the marks left belong to the cells to come. -/
theorem awaits_finderAt (hn : n ≤ text.length) :
    (finderAt g text n).Awaits ((cells g text).drop n) := by
  induction n with
  | zero => exact angleMarks_sublist g text
  | succ n ih =>
    obtain ⟨x, hx⟩ := exists_getElem?_cells g hn
    have hawaits := ih (by omega)
    rw [drop_cells_eq_cons hx] at hawaits
    rw [finderAt_succ hx]
    exact (hawaits.step (position_lt_of_mem_drop hx)).1

theorem marks_finderAt_length (g : Grammar) (text : List UInt8) :
    (finderAt g text text.length).marks = [] := by
  have hawaits := awaits_finderAt (g := g) (Nat.le_refl text.length)
  rw [List.drop_eq_nil_of_le (by rw [length_cells])] at hawaits
  exact List.sublist_nil.mp hawaits

theorem awaits_finderAt_cons (hx : (cells g text)[n]? = some x) :
    (finderAt g text n).Awaits (x :: (cells g text).drop (n + 1)) := by
  obtain ⟨hn, -⟩ := List.getElem?_eq_some_iff.mp (byte_position_of_getElem?_cells hx).1
  rw [← drop_cells_eq_cons hx]
  exact awaits_finderAt (Nat.le_of_lt hn)

theorem skipTo_finderAt (hx : (cells g text)[n]? = some x) :
    (finderAt g text n).skipTo x.position = finderAt g text n :=
  (awaits_finderAt_cons hx).skipTo_eq_self (position_lt_of_mem_drop hx)

theorem finderAt_cases (hx : (cells g text)[n]? = some x) :
    (finderAt g text n).Passes x ∨ ∃ m, x.mark? = some m ∧ (finderAt g text n).Uses x m :=
  ((awaits_finderAt_cons hx).step (position_lt_of_mem_drop hx)).2

/-! ## 3. Every mark is used -/

-- Induction on the number of bytes to come: the marks change only when one is used, and at the end
-- none is left.
theorem exists_uses (k : Nat) (hk : n + k = text.length) (hm : m ∈ (finderAt g text n).marks) :
    ∃ i x, (cells g text)[i]? = some x ∧ x.mark? = some m ∧ (finderAt g text i).Uses x m := by
  induction k generalizing n with
  | zero =>
    rw [Nat.add_zero] at hk
    rw [hk, marks_finderAt_length] at hm
    exact absurd hm List.not_mem_nil
  | succ k ih =>
    have hn : n < text.length := by omega
    obtain ⟨x, hx⟩ := exists_getElem?_cells g hn
    have hlater := ih (n := n + 1) (by omega)
    rw [finderAt_succ hx] at hlater
    rcases finderAt_cases hx with hpass | ⟨m', hmark, huses⟩
    · rw [← hpass.marks] at hm
      exact hlater hm
    · rw [huses.marks] at hm
      rcases List.mem_cons.mp hm with rfl | hm
      · exact ⟨n, x, hx, hmark, huses⟩
      · exact hlater hm

-- The angle brackets found so far and the marks left make up the marks of the text.
theorem angleSites_finderAt (hn : n ≤ text.length) :
    (angleSites (finderAt g text n).found).reverse ++ (finderAt g text n).marks.map AngleMark.site =
      (angleMarks g text).map AngleMark.site := by
  induction n with
  | zero => rfl
  | succ n ih =>
    obtain ⟨x, hx⟩ := exists_getElem?_cells g hn
    rw [finderAt_succ hx, ← ih (by omega)]
    rcases finderAt_cases hx with hpass | ⟨m, hmark, huses⟩
    · rw [hpass.marks, hpass.found]
    · have hfound : angleSites (m.site :: (finderAt g text n).found) =
          m.site :: angleSites (finderAt g text n).found := List.filter_cons_of_pos rfl
      rw [huses.marks, huses.found, hfound, List.reverse_cons, List.append_assoc, List.map_cons,
        List.singleton_append]

theorem angleSites_finderAt_length (g : Grammar) (text : List UInt8) :
    angleSites (finderAt g text text.length).found.reverse =
      (angleMarks g text).map AngleMark.site := by
  have hall := angleSites_finderAt (g := g) (Nat.le_refl text.length)
  rw [marks_finderAt_length, List.map_nil, List.append_nil] at hall
  rw [← hall]
  exact List.filter_reverse

theorem matchDelimiters_angleMarks (g : Grammar) (text : List UInt8) :
    matchDelimiters g (angleMarks g text) text =
      pairUp (finderAt g text text.length).found.reverse := by
  unfold finderAt
  rw [List.take_of_length_le (by rw [length_cells])]
  rfl

/-! ## 4. Every mark was made -/

theorem Collector.step_cases (g : Grammar) (c : Collector) (x : Cell) :
    (c.step g.boundaries x).marks.Sublist c.marks ∨ ∃ m, x.mark? = some m ∧ c.Makes g x m := by
  by_cases hb : x.byte ∈ g.boundaries
  · rw [step_of_boundary hb]
    exact Or.inl c.settle_marks_sublist
  · cases hside : c.side? x with
    | none =>
      rw [step_of_side?_eq_none hb hside]
      exact Or.inl (List.Sublist.refl _)
    | some side =>
      refine Or.inr ⟨_, mark?_of_side? hside, ?_⟩
      unfold Makes
      rw [step_of_side?_eq_some hb hside]
      cases side <;> rfl

theorem exists_makes (hn : n ≤ text.length) (hm : m ∈ (collectorAt g text n).marks) :
    ∃ i x, (cells g text)[i]? = some x ∧ x.mark? = some m ∧ (collectorAt g text i).Makes g x m := by
  induction n with
  | zero => exact absurd hm List.not_mem_nil
  | succ n ih =>
    obtain ⟨x, hx⟩ := exists_getElem?_cells g hn
    rw [collectorAt_succ hx] at hm
    rcases (collectorAt g text n).step_cases g x with hsub | ⟨m', hmark, hmakes⟩
    · exact ih (by omega) (hsub.subset hm)
    · have hcons : m ∈ m' :: (collectorAt g text n).marks := hmakes ▸ hm
      rcases List.mem_cons.mp hcons with rfl | hold
      · exact ⟨n, x, hx, hmark, hmakes⟩
      · exact ih (by omega) hold

theorem mem_collectorAt_length (hm : m ∈ angleMarks g text) :
    m ∈ (collectorAt g text text.length).marks := by
  unfold angleMarks at hm
  split at hm
  · unfold collectorAt
    rw [List.take_of_length_le (by rw [length_cells])]
    exact List.mem_reverse.mp hm
  · exact absurd hm List.not_mem_nil

end

theorem map_toChar_eq_some_iff {text : List UInt8} {i : Nat} {b : UInt8} {side : Side}
    (hb : text[i]? = some b) (hread : Bracket.ofByte? b = some (.angle, side)) (side' : Side) :
    text[i]?.map Byte.toChar = some (Bracket.angle.character side') ↔ side = side' := by
  have hchar : Bracket.angle.character side = Byte.toChar b := Bracket.character_of_read? hread
  rw [hb, Option.map_some, ← hchar, Option.some.injEq]
  cases side <;> cases side' <;> decide

/-- **Agreement of the two readings.** When the pairs of a text are made with its own marks, no mark
is left at the end and none is skipped on the way. Each is used up at the byte that made it, an
opener at `<` and a closer at `>`, and no other angle bracket is a delimiter. -/
theorem marks_used_where_made (g : Grammar) (text : List UInt8) :
    matchDelimiters g (angleMarks g text) text =
        pairUp (finderAt g text text.length).found.reverse ∧
      angleSites (finderAt g text text.length).found.reverse =
        (angleMarks g text).map AngleMark.site ∧
      (finderAt g text text.length).marks = [] ∧
      (∀ n x, (cells g text)[n]? = some x →
        (finderAt g text n).skipTo x.position = finderAt g text n) ∧
      ∀ m ∈ angleMarks g text, ∃ i x, (cells g text)[i]? = some x ∧
        (collectorAt g text i).Makes g x m ∧ (finderAt g text i).Uses x m ∧
          (text[i]?.map Byte.toChar = some '<' ↔ m.side = .opening) ∧
          (text[i]?.map Byte.toChar = some '>' ↔ m.side = .closing) := by
  refine ⟨matchDelimiters_angleMarks g text, angleSites_finderAt_length g text,
    marks_finderAt_length g text, fun n x hx => skipTo_finderAt hx, ?_⟩
  intro m hm
  obtain ⟨i, x, hx, hmark, huses⟩ := exists_uses text.length (Nat.zero_add _) hm
  obtain ⟨j, y, hy, hmark', hmakes⟩ :=
    exists_makes (Nat.le_refl text.length) (mem_collectorAt_length hm)
  obtain ⟨-, hread, hpos⟩ := Cell.mark?_eq_some_iff.mp hmark
  obtain ⟨hbyte, hplace⟩ := byte_position_of_getElem?_cells hx
  obtain ⟨hbyte', hplace'⟩ := byte_position_of_getElem?_cells hy
  obtain ⟨hi, -⟩ := List.getElem?_eq_some_iff.mp hbyte
  obtain ⟨hj, -⟩ := List.getElem?_eq_some_iff.mp hbyte'
  -- A mark has one place, and a place one offset.
  have hij : i = j := by
    apply (placeAt_inj (Nat.le_of_lt hi) (Nat.le_of_lt hj)).mp
    rw [← hplace, ← hplace', ← hpos, ← (Cell.mark?_eq_some_iff.mp hmark').2.2]
  subst hij
  have hxy : x = y := by
    rw [hx] at hy
    exact Option.some.inj hy
  subst hxy
  exact ⟨i, x, hx, hmakes, huses, map_toChar_eq_some_iff hbyte hread .opening,
    map_toChar_eq_some_iff hbyte hread .closing⟩

/-- A comparison, a lifetime in angle brackets, and an arrow. -/
def lifetimeText : List UInt8 :=
  [0x61, 0x3c, 0x62, 0x7c, 0x66, 0x3c, 0x27, 0x63, 0x3e, 0x2d, 0x3e]

theorem marks_used_lifetimeText :
    angleMarks .rust lifetimeText = [⟨.opening, ⟨1, 6⟩⟩, ⟨.closing, ⟨1, 9⟩⟩] ∧
      ∃ i x, (cells .rust lifetimeText)[i]? = some x ∧
        (collectorAt .rust lifetimeText i).Makes .rust x ⟨.closing, ⟨1, 9⟩⟩ ∧
          (finderAt .rust lifetimeText i).Uses x ⟨.closing, ⟨1, 9⟩⟩ := by
  have hmarks : angleMarks .rust lifetimeText =
      [⟨.opening, ⟨1, 6⟩⟩, ⟨.closing, ⟨1, 9⟩⟩] := by decide +kernel
  obtain ⟨-, -, -, -, hused⟩ := marks_used_where_made .rust lifetimeText
  obtain ⟨i, x, hx, hmakes, huses, -⟩ := hused ⟨.closing, ⟨1, 9⟩⟩ (by rw [hmarks]; decide)
  exact ⟨hmarks, i, x, hx, hmakes, huses⟩

end Nesting
