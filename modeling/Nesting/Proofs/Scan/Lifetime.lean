import Nesting.Proofs.Lexer.CharLiteral
import Nesting.Proofs.Scan.Prefix

/-!
# Lifetimes

A lifetime or a label is an apostrophe and a name. The lexer takes the apostrophe for the start of a
literal and the first byte of the name for its character, and gives up with the byte after that. From
there on it is where it would be if the apostrophe were a letter, so the rest of the text is read in
the same way, and so are the delimiters in it.
-/

namespace Nesting

namespace Byte

abbrev lowerA : UInt8 := 0x61
abbrev underscore : UInt8 := 0x5f

/-- An ASCII letter of either case, or an underscore. -/
def beginsName (b : UInt8) : Bool :=
  (0x41 ≤ b && b ≤ 0x5a) || (0x61 ≤ b && b ≤ 0x7a) || b == underscore

theorem ne_of_beginsName {b x : UInt8} (hb : beginsName b = true) (hx : beginsName x = false) :
    b ≠ x := by
  rintro rfl
  rw [hx] at hb
  cases hb

end Byte

theorem Bracket.ofByte?_of_beginsName {b : UInt8} (hb : Byte.beginsName b = true) :
    Bracket.ofByte? b = none := by
  cases hread : Bracket.ofByte? b with
  | none => rfl
  | some found =>
    obtain ⟨k, side⟩ := found
    -- The byte of a bracket begins no name.
    have hname : Byte.beginsName (k.byte side) = false := by
      cases k <;> cases side <;> decide
    exact absurd (Bracket.ofByte?_eq_some_iff.mp hread) (Byte.ne_of_beginsName hb hname)

/-! ## 1. The two lexers -/

namespace Lexer

/-- The lexer `s` has read a lifetime's apostrophe and the first byte of its name, and perhaps line
ends, and `t` has read the same with a letter for the apostrophe. -/
structure Trails (s t : Lexer) : Prop where
  region : s.region = .char 1
  region' : t.region = .code
  closedAt : s.closedAt = t.closedAt
  offset : s.offset = t.offset
  last : s.last = t.last
  notSlash : s.last ≠ some Byte.slash
  notBackslash : s.last ≠ some Byte.backslash

variable {s t : Lexer} {b c : UInt8}

theorem rule_of_beginsName (hr : s.region = .code) (hb : Byte.beginsName b = true) :
    s.rule .rust b = (.code, .code) := by
  show s.nestedRule b = _
  rw [nestedRule_of_code hr (Byte.ne_of_beginsName hb (by decide))]
  apply fromCode_of_plain (Byte.ne_of_beginsName hb (by decide))
    (Byte.ne_of_beginsName hb (by decide))
  rintro (heq | heq)
  · exact absurd heq (Byte.ne_of_beginsName hb (by decide))
  · exact absurd heq (Byte.ne_of_beginsName hb (by decide))

/-- The apostrophe and the first byte of the name leave nothing between the two lexers but their
regions. -/
theorem trails_of_code (hr : s.region = .code) (hc : Byte.beginsName c = true) :
    Trails ((s.advance .rust Byte.apostrophe).advance .rust c)
      ((s.advance .rust Byte.lowerA).advance .rust c) := by
  have hslash : c ≠ Byte.slash := Byte.ne_of_beginsName hc (by decide)
  have hbackslash : c ≠ Byte.backslash := Byte.ne_of_beginsName hc (by decide)
  have hopened : (s.advance .rust Byte.apostrophe).region = .char 0 := by
    rw [region_advance]
    show (s.nestedRule _).2 = _
    rw [nestedRule_of_code hr (by decide)]
    rfl
  have hletter : (s.advance .rust Byte.lowerA).region = .code := by
    rw [region_advance, rule_of_beginsName hr (by decide)]
  have hclosed : ∀ q, q ≠ Byte.slash →
      ((s.advance .rust q).advance .rust c).closedAt = s.closedAt := by
    intro q hq
    rw [closedAt_advance (endsComment_of_ne_slash _ hslash),
      closedAt_advance (endsComment_of_ne_slash _ hq)]
  exact {
    region := by
      rw [region_advance, rule_rust_of_char hopened (Byte.ne_of_beginsName hc (by decide)),
        charRule_of_one (fun _ => by rw [last_advance]; decide) (by decide)
          (fun heq => absurd heq (Byte.ne_of_beginsName hc (by decide)))
          (fun heq => absurd heq hbackslash)]
    region' := by rw [region_advance, rule_of_beginsName hletter hc]
    closedAt := by rw [hclosed _ (by decide), hclosed _ (by decide)]
    offset := rfl
    last := rfl
    notSlash := by simpa using hslash
    notBackslash := by simpa using hbackslash }

namespace Trails

theorem newline (h : Trails s t) :
    s.classify .rust Byte.newline = t.classify .rust Byte.newline ∧
      Trails (s.advance .rust Byte.newline) (t.advance .rust Byte.newline) := by
  have hclosed : ∀ u : Lexer, (u.advance .rust Byte.newline).closedAt = u.closedAt :=
    fun u => closedAt_advance (endsComment_of_ne_slash u (by decide)) .rust
  refine ⟨rfl, {
    region := ?_
    region' := ?_
    closedAt := by rw [hclosed, hclosed, h.closedAt]
    offset := by rw [offset_advance, offset_advance, h.offset]
    last := rfl
    notSlash := by rw [last_advance]; decide
    notBackslash := by rw [last_advance]; decide }⟩
  · show s.region.afterNewline = _
    rw [h.region]
    rfl
  · show t.region.afterNewline = _
    rw [h.region']
    rfl

/-- The first byte that is no newline ends the literal and is code for both lexers. If it is no quote,
they are the same from then on. -/
theorem rejoin (h : Trails s t) (hb : b ≠ Byte.newline) (ha : b ≠ Byte.apostrophe)
    (hq : b ≠ Byte.quote) :
    s.classify .rust b = t.classify .rust b ∧ s.advance .rust b = t.advance .rust b := by
  have hs : s.rule .rust b = (.code, .code) := by
    rw [rule_rust_of_char h.region hb]
    exact charRule_of_full fun _ => h.notBackslash
  have ht : t.rule .rust b = (.code, .code) := by
    have hfollows : t.followsSlash = false := by
      unfold followsSlash
      rw [← h.last, beq_eq_false_iff_ne.mpr h.notSlash, Bool.false_and]
    show t.nestedRule b = _
    rw [nestedRule_of_code h.region' hb, fromCode_of_plain ha hq (fun _ => hfollows)]
  have hends : s.endsComment b = false := endsComment_of_stars (by rw [h.region]; rfl)
  have hends' : t.endsComment b = false := endsComment_of_stars (by rw [h.region']; rfl)
  refine ⟨by rw [classify, classify, hs, ht], ?_⟩
  simp only [Lexer.advance, hs, ht, hends, hends', h.closedAt, h.offset, h.last]

end Trails

end Lexer

/-! ## 2. The text after a lifetime -/

/-- After any line ends comes a byte, and it is no quote. -/
def GoesOnUnquoted (post : List UInt8) : Prop :=
  ∃ b, post.find? (· != Byte.newline) = some b ∧ b ≠ Byte.apostrophe ∧ b ≠ Byte.quote

theorem Reader.cells_of_trails {r r' : Reader} (hlexer : Lexer.Trails r.lexer r'.lexer)
    (hplace : r.position = r'.position) {post : List UInt8} (hpost : GoesOnUnquoted post) :
    r.cells .rust post = r'.cells .rust post := by
  induction post generalizing r r' with
  | nil => rfl
  | cons b post ih =>
    have hnext : (r.advance .rust b).position = (r'.advance .rust b).position := by
      show r.position.advance b = r'.position.advance b
      rw [hplace]
    obtain ⟨first, hfind, ha, hq⟩ := hpost
    rw [cells_cons, cells_cons]
    by_cases hb : b = Byte.newline
    · subst hb
      rw [List.find?_cons_of_neg (by simp)] at hfind
      obtain ⟨hclass, htrails⟩ := hlexer.newline
      have hcell : r.cell .rust Byte.newline = r'.cell .rust Byte.newline := by
        unfold cell
        rw [hplace, hclass]
      rw [hcell, ih htrails hnext ⟨first, hfind, ha, hq⟩]
    · rw [List.find?_cons_of_pos (by simpa using hb), Option.some.injEq] at hfind
      subst hfind
      obtain ⟨hclass, hsame⟩ := hlexer.rejoin hb ha hq
      have hcell : r.cell .rust b = r'.cell .rust b := by
        unfold cell
        rw [hplace, hclass]
      have hreader : r.advance .rust b = r'.advance .rust b := by
        unfold advance at hnext ⊢
        rw [hsame]
        exact congrArg _ hnext
      rw [hcell, hreader]

/-- A byte that is no bracket and ends no statement. -/
def IsOrdinary (g : Grammar) (b : UInt8) : Prop :=
  Bracket.ofByte? b = none ∧ b ∉ g.boundaries

theorem isOrdinary_of_beginsName {b : UInt8} (hb : Byte.beginsName b = true) :
    IsOrdinary .rust b := by
  refine ⟨Bracket.ofByte?_of_beginsName hb, fun hmem => ?_⟩
  have hother : Grammar.rust.boundaries.any Byte.beginsName = false := by decide
  exact List.any_eq_false.mp hother b hmem hb

theorem Cell.site?_of_isOrdinary {g : Grammar} {x : Cell} (hx : IsOrdinary g x.byte)
    (counts : Position → Bool) : x.site? counts = none := by
  unfold site?
  rw [hx.1]
  cases x.kind <;> rfl

theorem Collector.step_of_isOrdinary {g : Grammar} {x : Cell} (hx : IsOrdinary g x.byte)
    (c : Collector) : c.step g.boundaries x = { c with last := some x.byte } := by
  apply step_of_side?_eq_none hx.2
  unfold side?
  rw [hx.1]
  cases x.kind <;> rfl

section

variable {g : Grammar} {text : List UInt8} {before after : List Cell} {x y : Cell}

theorem sites_of_isOrdinary (hcells : cells g text = before ++ x :: y :: after)
    (hx : IsOrdinary g x.byte) (hy : IsOrdinary g y.byte) (marks : List AngleMark) :
    sites marks (cells g text) =
      (before ++ after).filterMap (Cell.site? (AngleMark.speaksFor marks)) := by
  rw [sites_eq_filterMap, hcells, List.filterMap_append, List.filterMap_append,
    List.filterMap_cons_none (Cell.site?_of_isOrdinary hx _),
    List.filterMap_cons_none (Cell.site?_of_isOrdinary hy _)]

theorem angleMarks_of_isOrdinary (hg : g.supportsAngles = true)
    (hcells : cells g text = before ++ x :: y :: after) (hx : IsOrdinary g x.byte)
    (hy : IsOrdinary g y.byte) :
    angleMarks g text = (after.foldl (Collector.step g.boundaries)
      { before.foldl (Collector.step g.boundaries) .initial with
        last := some y.byte }).marks.reverse := by
  rw [angleMarks_eq_reverse_run hg, Collector.run, hcells, List.foldl_append, List.foldl_cons,
    List.foldl_cons, Collector.step_of_isOrdinary hx, Collector.step_of_isOrdinary hy]

theorem getElem?_classes_of_cells (hcells : cells g text = before ++ x :: y :: after) (i : Nat) :
    (Lexer.classes g text)[before.length + 2 + i]? = after[i]?.map Cell.kind := by
  have hindex : before.length + 2 + i - before.length = i + 2 := by omega
  rw [getElem?_classes_eq_map_kind, hcells, List.getElem?_append_right (by omega), hindex]
  rfl

end

/-- After the lifetime the cells are the same as with a letter for the apostrophe. -/
theorem exists_cells_lifetime {pre post : List UInt8} {c : UInt8}
    (hcode : (Lexer.run .rust pre).region = .code)
    (hc : Byte.beginsName c = true) (hpost : GoesOnUnquoted post) :
    ∃ after, ∀ q, q = Byte.apostrophe ∨ q = Byte.lowerA →
      ∃ x y : Cell, cells .rust (pre ++ q :: c :: post) = cells .rust pre ++ x :: y :: after ∧
        x.byte = q ∧ y.byte = c := by
  let r := pre.foldl (Reader.advance .rust) .initial
  have hr : r.lexer = Lexer.run .rust pre := by
    show (pre.foldl (Reader.advance .rust) .initial).lexer = _
    rw [Reader.foldl_advance]
    rfl
  have htrails := Lexer.trails_of_code (hr ▸ hcode) hc
  have hafter : ((r.advance .rust Byte.apostrophe).advance .rust c).cells .rust post =
      ((r.advance .rust Byte.lowerA).advance .rust c).cells .rust post := by
    refine Reader.cells_of_trails ?_ ?_ hpost
    · exact htrails
    · rfl
  refine ⟨((r.advance .rust Byte.apostrophe).advance .rust c).cells .rust post, fun q hq =>
    ⟨r.cell .rust q, (r.advance .rust q).cell .rust c, ?_, rfl, rfl⟩⟩
  rw [cells_append, cellsAfter, Reader.cells_cons, Reader.cells_cons]
  rcases hq with rfl | rfl
  · rfl
  · rw [hafter]

/-- **Lifetimes.** Let an apostrophe and the first byte of a name stand in the code, and let no quote
come next, nor after line ends. Every byte after these two has the class that it has with the letter
`a` for the apostrophe. The delimiters are the same, whatever marks are given, and so are the pairs of
a scan. -/
theorem lifetime_hides_nothing (pre post : List UInt8) (c : UInt8)
    (hcode : (Lexer.run .rust pre).region = .code) (hc : Byte.beginsName c = true)
    (hpost : GoesOnUnquoted post) :
    (∀ i, (Lexer.classes .rust (pre ++ Byte.apostrophe :: c :: post))[pre.length + 2 + i]? =
        (Lexer.classes .rust (pre ++ Byte.lowerA :: c :: post))[pre.length + 2 + i]?) ∧
      (∀ marks, sites marks (cells .rust (pre ++ Byte.apostrophe :: c :: post)) =
        sites marks (cells .rust (pre ++ Byte.lowerA :: c :: post))) ∧
      ∀ resolve, scan .rust resolve (pre ++ Byte.apostrophe :: c :: post) =
        scan .rust resolve (pre ++ Byte.lowerA :: c :: post) := by
  obtain ⟨after, hafter⟩ := exists_cells_lifetime hcode hc hpost
  obtain ⟨x, y, hcells, hx, hy⟩ := hafter Byte.apostrophe (.inl rfl)
  obtain ⟨x', y', hcells', hx', hy'⟩ := hafter Byte.lowerA (.inr rfl)
  have ox : IsOrdinary .rust x.byte := by
    rw [hx]
    exact ⟨by decide, by decide⟩
  have ox' : IsOrdinary .rust x'.byte := hx' ▸ isOrdinary_of_beginsName (by decide)
  have oy : IsOrdinary .rust y.byte := hy ▸ isOrdinary_of_beginsName hc
  have oy' : IsOrdinary .rust y'.byte := hy' ▸ isOrdinary_of_beginsName hc
  have hsites : ∀ marks, sites marks (cells .rust (pre ++ Byte.apostrophe :: c :: post)) =
      sites marks (cells .rust (pre ++ Byte.lowerA :: c :: post)) := by
    intro marks
    rw [sites_of_isOrdinary hcells ox oy, sites_of_isOrdinary hcells' ox' oy']
  have hmarks : angleMarks .rust (pre ++ Byte.apostrophe :: c :: post) =
      angleMarks .rust (pre ++ Byte.lowerA :: c :: post) := by
    rw [angleMarks_of_isOrdinary rfl hcells ox oy, angleMarks_of_isOrdinary rfl hcells' ox' oy', hy,
      hy']
  refine ⟨fun i => ?_, hsites, fun resolve => ?_⟩
  · rw [← length_cells .rust pre, getElem?_classes_of_cells hcells,
      getElem?_classes_of_cells hcells']
  · unfold scan scanMarks matchDelimiters
    rw [hmarks, hsites]

/-- The end of a line and of an angle bracket, a comment with an apostrophe, and brackets. -/
def lifetimeRest : List UInt8 := [0x0a, 0x3e, 0x2f, 0x2f, 0x27, 0x0a, 0x28, 0x29]

theorem lifetime_before_lifetimeRest :
    (Lexer.run .rust [0x66, 0x3c]).region = .code ∧ Byte.beginsName 0x62 = true ∧
      GoesOnUnquoted lifetimeRest ∧
      (Lexer.classes .rust ([0x66, 0x3c] ++ Byte.apostrophe :: 0x62 :: lifetimeRest))[5]? =
        some .code ∧
      (scan .rust true ([0x66, 0x3c] ++ Byte.apostrophe :: 0x62 :: lifetimeRest)).map Pair.text =
        ["<1.2->2.1@0", "(3.1-)3.2@0"] := by
  have hpost : GoesOnUnquoted lifetimeRest := ⟨0x3e, by decide, by decide, by decide⟩
  obtain ⟨hclasses, -, hscan⟩ := lifetime_hides_nothing [0x66, 0x3c] lifetimeRest 0x62
    (by decide) (by decide) hpost
  refine ⟨by decide, by decide, hpost, (hclasses 1).trans (by decide), ?_⟩
  rw [hscan true]
  decide +kernel

end Nesting
