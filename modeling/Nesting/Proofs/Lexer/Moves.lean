import Nesting.Lexer.Transition

/-!
# What one byte can do to the region

The rules differ from grammar to grammar, but what they can do to the region of the lexer is little:
it stays, it is left for the code, or the code is left for a comment or a literal. This is said once
here, and what a run keeps of the open comments and literals is read off it.
-/

namespace Nesting

theorem Region.stars_inComments (stars : List Nat) : (inComments stars).stars = stars := by
  cases stars <;> rfl

theorem Region.eq_blockComment_of_stars {region : Region} {star : Nat} {outer : List Nat}
    (h : region.stars = star :: outer) : region = .blockComment star outer := by
  cases region with
  | blockComment inner around =>
    obtain ⟨rfl, rfl⟩ := List.cons.inj h
    rfl
  | code | lineComment | string | char | byteEscape => cases h

/-! ## 1. The moves -/

namespace Lexer

/-- The class of a byte `b` and the region after it, as far as they are possible from `s`. -/
inductive Moves (g : Grammar) (s : Lexer) (b : UInt8) : ByteClass × Region → Prop where
  /-- A byte of the code, or one that ends a literal and is code itself. -/
  | code (hout : s.region.stars = []) : Moves g s b (.code, .code)
  | stay {region : Region} (hr : s.region = region) : Moves g s b (.skipped, region)
  /-- The end of a line comment, or of a literal by a byte that still belongs to it. -/
  | leave (hout : s.region.stars = []) : Moves g s b (.skipped, .code)
  | enter {region : Region} (hr : s.region = .code)
      (hregion : region ∈ [.lineComment, .string, .char 0]) : Moves g s b (.skipped, region)
  | openBlock {stars : List Nat} (hstars : s.region.stars = stars) (hb : b = Byte.star)
      (hslash : s.followsSlash = true) (hflat : g ≠ .rust → stars = []) :
      Moves g s b (.skipped, .blockComment s.offset stars)
  | closeBlock {star : Nat} {outer : List Nat} (hr : s.region = .blockComment star outer)
      (hcloses : s.closesComment star b = true) : Moves g s b (.skipped, .inComments outer)
  | count {body : Nat} (hr : s.region = .char body) (hbody : body ≠ 1) :
      Moves g s b (.skipped, .char (body + 1))
  | escape {body : Nat} (hg : g = .rust) (hr : s.region = .char body) :
      Moves g s b (.skipped, .byteEscape)

variable {g : Grammar} {s : Lexer} {b : UInt8} {star : Nat} {outer : List Nat}

theorem moves_afterNewline : Moves g s b (.skipped, s.region.afterNewline) := by
  cases hr : s.region with
  | lineComment => exact .leave (by rw [hr]; rfl)
  | code | blockComment | string | char | byteEscape => exact .stay hr

theorem moves_fromCode (hr : s.region = .code) : Moves g s b (s.fromCode b) := by
  have hout : s.region.stars = [] := by
    rw [hr]
    rfl
  unfold fromCode
  split
  · rename_i hopens
    rw [Bool.and_eq_true, beq_iff_eq] at hopens
    exact .openBlock hout hopens.1 hopens.2 fun _ => rfl
  · split
    · exact .enter hr (by simp)
    · split
      · exact .enter hr (by simp)
      · split
        · exact .enter hr (by simp)
        · exact .code hout

theorem moves_closing (hr : s.region = .blockComment star outer) :
    Moves g s b (.skipped,
      if s.closesComment star b then .inComments outer else .blockComment star outer) := by
  split
  · rename_i hcloses
    exact .closeBlock hr hcloses
  · exact .stay hr

theorem moves_flatRule : Moves g s b (s.flatRule b) := by
  unfold flatRule
  split
  · exact moves_afterNewline
  cases hr : s.region with
  | code => exact moves_fromCode hr
  | blockComment star outer => exact moves_closing hr
  | lineComment | byteEscape => exact .stay hr
  | string | char =>
    dsimp only
    split
    · exact .leave (by rw [hr]; rfl)
    · exact .stay hr

theorem moves_charRule {body : Nat} (hr : s.region = .char body) :
    Moves .rust s b (s.charRule body b) := by
  have hcode : Moves .rust s b (.code, .code) := .code (by rw [hr]; rfl)
  unfold charRule
  split
  · exact .escape rfl hr
  · split
    · exact hcode
    · rename_i hfull
      split
      · exact hcode
      · split
        · exact .stay hr
        · exact .count hr (by simpa using hfull)

theorem moves_nestedRule : Moves .rust s b (s.nestedRule b) := by
  unfold nestedRule
  split
  · exact moves_afterNewline
  cases hr : s.region with
  | code => exact moves_fromCode hr
  | lineComment => exact .stay hr
  | blockComment star outer =>
    dsimp only
    split
    · rename_i hopens
      rw [Bool.and_eq_true, beq_iff_eq] at hopens
      exact .openBlock (by rw [hr]; rfl) hopens.1 hopens.2 fun h => absurd rfl h
    · exact moves_closing hr
  | char body => exact moves_charRule hr
  | string | byteEscape =>
    dsimp only
    split
    · exact .code (by rw [hr]; rfl)
    · exact .stay hr

/-- **One byte.** The rules of every grammar do nothing else to the region. -/
theorem moves_rule (h : g = .generic → s.region = .code) : Moves g s b (s.rule g b) := by
  cases g with
  | generic =>
    have hr := h rfl
    show Moves .generic s b (.code, s.region)
    rw [hr]
    exact .code (by rw [hr]; rfl)
  | c | cpp => exact moves_flatRule
  | rust => exact moves_nestedRule

/-! ## 2. What follows from them -/

variable {out : ByteClass × Region}

theorem Moves.code_of_code (h : Moves g s b out) (hcode : out.1 = .code) : out.2 = .code := by
  cases h with
  | code => rfl
  | _ => cases hcode

-- The stars stay, or the byte opens one more comment, or it closes the innermost.
theorem Moves.stars (h : Moves g s b out) :
    out.2.stars = s.region.stars ∨
    (b = Byte.star ∧ s.followsSlash = true ∧ (g ≠ .rust → s.region.stars = []) ∧
      out.2.stars = s.offset :: s.region.stars) ∨
    (s.endsComment b = true ∧ out.2.stars = s.region.stars.tail) := by
  cases h with
  | code hout | leave hout => exact .inl hout.symm
  | stay hr => exact .inl (congrArg Region.stars hr.symm)
  | enter hr hregion =>
    left
    rw [hr]
    simp only [List.mem_cons, List.not_mem_nil, or_false] at hregion
    rcases hregion with rfl | rfl | rfl <;> rfl
  | openBlock hstars hb hslash hflat =>
    subst hstars
    exact .inr (.inl ⟨hb, hslash, hflat, rfl⟩)
  | closeBlock hr hcloses =>
    right; right
    unfold endsComment
    rw [hr]
    exact ⟨hcloses, Region.stars_inComments _⟩
  | count hr | escape _ hr =>
    left
    rw [hr]
    rfl

theorem Moves.mem_stars (h : Moves g s b out) (hstar : star ∈ out.2.stars) :
    star = s.offset ∨ star ∈ s.region.stars := by
  rcases h.stars with hsame | ⟨-, -, -, hopen⟩ | ⟨-, hclose⟩
  · rw [hsame] at hstar
    exact .inr hstar
  · rw [hopen] at hstar
    exact List.mem_cons.mp hstar
  · rw [hclose] at hstar
    exact .inr (List.mem_of_mem_tail hstar)

theorem Moves.of_byteEscape (h : Moves g s b out) (hescape : out.2 = .byteEscape) :
    g = .rust ∨ s.region = .byteEscape := by
  cases h with
  | stay hr => exact .inr (hr.trans hescape)
  | escape hg => exact .inl hg
  | code | leave | openBlock | count => cases hescape
  | closeBlock =>
    have hstars := congrArg Region.stars hescape
    rw [Region.stars_inComments] at hstars
    subst hstars
    cases hescape
  | enter _ hregion =>
    simp only [List.mem_cons, List.not_mem_nil, or_false] at hregion
    rcases hregion with rfl | rfl | rfl <;> cases hescape

theorem Moves.body_le (h : Moves g s b out) (hshort : ∀ body, s.region = .char body → body ≤ 1)
    {body : Nat} (hbody : out.2 = .char body) : body ≤ 1 := by
  cases h with
  | stay hr => exact hshort body (hr.trans hbody)
  | code | leave | openBlock | escape => cases hbody
  | closeBlock =>
    have hstars := congrArg Region.stars hbody
    rw [Region.stars_inComments] at hstars
    subst hstars
    cases hbody
  | enter _ hregion =>
    simp only [List.mem_cons, List.not_mem_nil, or_false] at hregion
    rcases hregion with rfl | rfl | rfl
    · cases hbody
    · cases hbody
    · cases hbody
      exact Nat.zero_le 1
  | count hr hne =>
    have hle := hshort _ hr
    cases hbody
    omega

end Lexer

end Nesting
