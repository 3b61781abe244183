import Nesting.Proofs.Lexer.Moves
import Nesting.Proofs.Lexer.Token

/-!
# Block comments that nest

In `rust` a block comment ends when as many closers as openers were read. The body is cut into
pieces from the left, so that no byte belongs to two of them: `/*/` is an opener and a slash, and
`*/*` is a closer and a star. The lexer knows no pieces. It keeps the stars of the open comments and
the slash that closed the last one, which is enough to count in the same way.
-/

namespace Nesting

/-! ## 1. Pieces of a comment -/

/-- An opener, a closer, or a byte that is part of neither. -/
inductive CommentPiece where
  | opening
  | closing
  | plain (b : UInt8)
  deriving DecidableEq, Repr

namespace CommentPiece

def bytes : CommentPiece → List UInt8
  | .opening => [Byte.slash, Byte.star]
  | .closing => [Byte.star, Byte.slash]
  | .plain b => [b]

/-- How many comments are open after a piece, if `depth` were open before it. -/
def count (depth : Nat) : CommentPiece → Nat
  | .opening => depth + 1
  | .closing => depth - 1
  | .plain _ => depth

/-- What may follow the piece, so that it was cut off as early as it could be. -/
def Before (rest : List UInt8) : CommentPiece → Prop
  | .plain b => (b = Byte.slash → rest.head? ≠ some Byte.star) ∧
      (b = Byte.star → rest.head? ≠ some Byte.slash)
  | _ => True

end CommentPiece

/-- The pieces of a comment's text, cut off from the left. -/
def commentPieces : List UInt8 → List CommentPiece
  | [] => []
  | [b] => [.plain b]
  | a :: b :: rest =>
    if a = Byte.slash ∧ b = Byte.star then .opening :: commentPieces rest
    else if a = Byte.star ∧ b = Byte.slash then .closing :: commentPieces rest
    else .plain a :: commentPieces (b :: rest)

/-- How many comments are open after some pieces of the text that follows a first opener. -/
def depthAfter (ps : List CommentPiece) : Nat :=
  ps.foldl CommentPiece.count 1

theorem flatMap_bytes_commentPieces (text : List UInt8) :
    (commentPieces text).flatMap CommentPiece.bytes = text := by
  fun_induction commentPieces text with
  | case1 => rfl
  | case2 b => rfl
  | case3 a b rest h ih =>
    obtain ⟨rfl, rfl⟩ := h
    exact congrArg (Byte.slash :: Byte.star :: ·) ih
  | case4 a b rest _ h ih =>
    obtain ⟨rfl, rfl⟩ := h
    exact congrArg (Byte.star :: Byte.slash :: ·) ih
  | case5 a b rest _ _ ih => exact congrArg (a :: ·) ih

-- The first piece with what it was cut off from.
theorem commentPieces_eq_cons {text : List UInt8} {p : CommentPiece} {ps : List CommentPiece}
    (h : commentPieces text = p :: ps) :
    ∃ rest, text = p.bytes ++ rest ∧ commentPieces rest = ps ∧ p.Before rest := by
  fun_cases commentPieces text with
  | case1 => cases h
  | case2 b =>
    cases h
    exact ⟨[], rfl, rfl, by simp [CommentPiece.Before]⟩
  | case3 a b rest hopen =>
    obtain ⟨rfl, rfl⟩ := hopen
    cases h
    exact ⟨rest, rfl, rfl, trivial⟩
  | case4 a b rest hopen hclose =>
    obtain ⟨rfl, rfl⟩ := hclose
    cases h
    exact ⟨rest, rfl, rfl, trivial⟩
  | case5 a b rest hopen hclose =>
    rw [commentPieces, if_neg hopen, if_neg hclose] at h
    cases h
    refine ⟨b :: rest, rfl, rfl, fun ha hb => hopen ⟨ha, ?_⟩, fun ha hb => hclose ⟨ha, ?_⟩⟩
    · simpa using hb
    · simpa using hb

/-! ## 2. The lexer through one byte -/

namespace Lexer

variable {s : Lexer} {b : UInt8} {star : Nat} {stars outer : List Nat} {rest : List UInt8}

/-- The lexer stands in the block comments opened at `stars`, innermost first, and in nothing
else. -/
structure Within (stars : List Nat) (s : Lexer) : Prop where
  region : s.region = .inComments stars
  behind : ∀ star ∈ stars, star < s.offset
  closed : s.ClosedBehind

/-- The byte before `rest` neither opens nor closes a comment together with the byte after it. -/
def Seam (s : Lexer) (rest : List UInt8) : Prop :=
  (rest.head? = some Byte.star → s.followsSlash = false) ∧
    (rest.head? = some Byte.slash → s.endsComment Byte.slash = false)

theorem Within.stars_eq (h : Within stars s) : s.region.stars = stars := by
  rw [h.region]
  cases stars <;> rfl

-- A newline is neither a star nor a slash, so it needs no case of its own.
theorem rule_rust_of_blockComment (hr : s.region = .blockComment star outer) (b : UInt8) :
    s.rule .rust b = (.skipped,
      if b == Byte.star && s.followsSlash then .blockComment s.offset (star :: outer)
      else if s.closesComment star b then .inComments outer
      else .blockComment star outer) := by
  show s.nestedRule b = _
  unfold nestedRule
  rw [hr]
  by_cases hb : b = Byte.newline
  · subst hb
    rfl
  · rw [if_neg (by simpa using hb)]

theorem Within.endsComment_eq (h : Within (star :: outer) s) (b : UInt8) :
    s.endsComment b = s.closesComment star b := by
  unfold endsComment
  rw [h.region]
  rfl

theorem Within.classify (h : Within (star :: outer) s) (b : UInt8) :
    s.classify .rust b = .skipped := by
  unfold Lexer.classify
  rw [rule_rust_of_blockComment h.region]

-- Reading on keeps the stars behind.
theorem Within.advance (h : Within (star :: outer) s) {stars : List Nat}
    (hregion : (s.advance .rust b).region = .inComments stars)
    (hbehind : ∀ x ∈ stars, x ≤ s.offset) : Within stars (s.advance .rust b) where
  region := hregion
  behind := by
    intro x hx
    have hle := hbehind x hx
    rw [offset_advance]
    omega
  closed := h.closed.advance .rust b

theorem Within.advance_plain (h : Within (star :: outer) s) (hseam : s.Seam (b :: rest)) :
    Within (star :: outer) (s.advance .rust b) ∧ s.endsComment b = false := by
  have hopens : (b == Byte.star && s.followsSlash) = false := by
    by_cases hb : b = Byte.star
    · rw [hseam.1 (by rw [hb]; rfl), Bool.and_false]
    · simp [hb]
  have hends : s.endsComment b = false := by
    by_cases hb : b = Byte.slash
    · rw [hb]
      exact hseam.2 (by rw [hb]; rfl)
    · simp [h.endsComment_eq, closesComment, hb]
  refine ⟨h.advance ?_ fun x hx => Nat.le_of_lt (h.behind x hx), hends⟩
  rw [region_advance, rule_rust_of_blockComment h.region, ← h.endsComment_eq, hopens, hends]
  rfl

theorem Within.advance_star (h : Within (star :: outer) s) (hslash : s.followsSlash = true) :
    Within (s.offset :: star :: outer) (s.advance .rust Byte.star) := by
  apply h.advance
  · rw [region_advance, rule_rust_of_blockComment h.region, hslash]
    rfl
  · intro x hx
    rcases List.mem_cons.mp hx with rfl | hx
    · exact Nat.le_refl _
    · exact Nat.le_of_lt (h.behind x hx)

theorem Within.advance_slash (h : Within (star :: outer) s)
    (hends : s.endsComment Byte.slash = true) :
    Within outer (s.advance .rust Byte.slash) ∧
      (s.advance .rust Byte.slash).followsSlash = false := by
  constructor
  · apply h.advance
    · rw [region_advance, rule_rust_of_blockComment h.region, ← h.endsComment_eq, hends]
      rfl
    · intro x hx
      exact Nat.le_of_lt (h.behind x (List.mem_cons_of_mem _ hx))
  · rw [followsSlash_advance h.closed, hends]
    rfl

/-! ## 3. The lexer through one piece -/

-- The byte read last decides about the seam, as long as it has closed nothing.
theorem Within.seam_advance (h : Within (star :: outer) s)
    (hstar : b = Byte.slash → rest.head? ≠ some Byte.star)
    (hslash : b = Byte.star → rest.head? ≠ some Byte.slash) : (s.advance .rust b).Seam rest := by
  constructor
  · intro hhead
    have hb : b ≠ Byte.slash := fun hb => hstar hb hhead
    rw [followsSlash_advance h.closed]
    simp [hb]
  · intro hhead
    have hb : b ≠ Byte.star := fun hb => hslash hb hhead
    unfold endsComment
    split
    · simp [closesComment, hb]
    · rfl

-- The slash of an opener does not close the comment around it, and its star is not the star of a
-- closer.
theorem Within.advance_opening (h : Within (star :: outer) s)
    (hseam : s.Seam (Byte.slash :: Byte.star :: rest)) :
    Within (star :: outer) (s.advance .rust Byte.slash) ∧
      Within ((s.offset + 1) :: star :: outer)
        ((s.advance .rust Byte.slash).advance .rust Byte.star) ∧
      ((s.advance .rust Byte.slash).advance .rust Byte.star).Seam rest := by
  obtain ⟨hslash, hends⟩ := h.advance_plain hseam
  have hfollows : (s.advance .rust Byte.slash).followsSlash = true := by
    rw [followsSlash_advance h.closed, hends]
    rfl
  have hstar := hslash.advance_star hfollows
  refine ⟨hslash, hstar, ?_, ?_⟩
  · intro _
    rfl
  · intro _
    rw [hstar.endsComment_eq]
    simp [closesComment]

theorem Within.advance_closing (h : Within (star :: outer) s)
    (hseam : s.Seam (Byte.star :: Byte.slash :: rest)) :
    Within (star :: outer) (s.advance .rust Byte.star) ∧
      Within outer ((s.advance .rust Byte.star).advance .rust Byte.slash) ∧
      ((s.advance .rust Byte.star).advance .rust Byte.slash).followsSlash = false ∧
      ((s.advance .rust Byte.star).advance .rust Byte.slash).Seam rest := by
  obtain ⟨hstar, -⟩ := h.advance_plain hseam
  -- The star of the closer is read after the one that opened the comment.
  have hends : (s.advance .rust Byte.star).endsComment Byte.slash = true := by
    have hbehind : star < s.offset := h.behind star (List.mem_cons_self ..)
    rw [hstar.endsComment_eq]
    simp [closesComment]
    omega
  obtain ⟨hslash, hfollows⟩ := hstar.advance_slash hends
  refine ⟨hstar, hslash, hfollows, fun _ => hfollows, fun _ => ?_⟩
  unfold endsComment
  split
  · rfl
  · rfl

/-! ## 4. The lexer through a comment -/

/-- Every one of the bytes is read inside a block comment and skipped. -/
def SkipsWithin (s : Lexer) : List UInt8 → Prop
  | [] => True
  | b :: more => (s.region.stars ≠ [] ∧ s.classify .rust b = .skipped) ∧
      (s.advance .rust b).SkipsWithin more

theorem SkipsWithin.append {bytes more : List UInt8} (h : s.SkipsWithin bytes)
    (hmore : (bytes.foldl (Lexer.advance .rust) s).SkipsWithin more) :
    s.SkipsWithin (bytes ++ more) := by
  induction bytes generalizing s with
  | nil => exact hmore
  | cons b bytes ih => exact ⟨h.1, ih h.2 hmore⟩

theorem Within.skips (h : Within (star :: outer) s) (b : UInt8) :
    s.region.stars ≠ [] ∧ s.classify .rust b = .skipped := by
  refine ⟨?_, h.classify b⟩
  rw [h.stars_eq]
  exact List.cons_ne_nil _ _

/-- The lexer after some pieces of a comment, before the rest of it: as many comments are open as
the pieces leave, and if none is, the slash read last opens no comment. -/
structure AfterPieces (depth : Nat) (rest : List UInt8) (s : Lexer) : Prop where
  within : ∃ stars, Within stars s ∧ stars.length = depth
  seam : s.Seam rest
  closed : depth = 0 → s.followsSlash = false

-- One piece, by its three kinds.
theorem AfterPieces.piece {depth : Nat} {p : CommentPiece}
    (h : AfterPieces depth (p.bytes ++ rest) s) (hdepth : depth ≠ 0) (hp : p.Before rest) :
    s.SkipsWithin p.bytes ∧
      AfterPieces (p.count depth) rest (p.bytes.foldl (Lexer.advance .rust) s) := by
  obtain ⟨stars, hwithin, rfl⟩ := h.within
  cases stars with
  | nil => exact absurd rfl hdepth
  | cons star outer =>
    cases p with
    | opening =>
      obtain ⟨hslash, hstar, hseam⟩ := hwithin.advance_opening h.seam
      refine ⟨⟨hwithin.skips _, hslash.skips _, trivial⟩, ⟨_, hstar, rfl⟩, hseam, ?_⟩
      intro hzero
      cases hzero
    | closing =>
      obtain ⟨hstar, hslash, hfollows, hseam⟩ := hwithin.advance_closing h.seam
      exact ⟨⟨hwithin.skips _, hstar.skips _, trivial⟩, ⟨_, hslash, rfl⟩, hseam, fun _ => hfollows⟩
    | plain b =>
      obtain ⟨hnext, -⟩ := hwithin.advance_plain h.seam
      refine ⟨⟨hwithin.skips _, trivial⟩, ⟨_, hnext, rfl⟩, hwithin.seam_advance hp.1 hp.2, ?_⟩
      intro hzero
      cases hzero

-- Induction on the pieces; the depth has to be positive before each of them.
theorem AfterPieces.pieces {depth : Nat} {ps : List CommentPiece} {text : List UInt8}
    (h : AfterPieces depth text s) (hps : ps <+: commentPieces text)
    (hopen : ∀ n < ps.length, (ps.take n).foldl CommentPiece.count depth ≠ 0) :
    s.SkipsWithin (ps.flatMap CommentPiece.bytes) ∧ ∃ rest,
      AfterPieces (ps.foldl CommentPiece.count depth) rest
        ((ps.flatMap CommentPiece.bytes).foldl (Lexer.advance .rust) s) := by
  induction ps generalizing depth text s with
  | nil => exact ⟨trivial, text, h⟩
  | cons p ps ih =>
    obtain ⟨more, hmore⟩ := hps
    obtain ⟨rest, rfl, hrest, hp⟩ := commentPieces_eq_cons hmore.symm
    obtain ⟨hskips, hafter⟩ := h.piece (hopen 0 (Nat.zero_lt_succ _)) hp
    have hopen' : ∀ n < ps.length, (ps.take n).foldl CommentPiece.count (p.count depth) ≠ 0 :=
      fun n hn => hopen (n + 1) (Nat.succ_lt_succ hn)
    obtain ⟨hskips', rest', hafter'⟩ := ih hafter ⟨more, hrest.symm⟩ hopen'
    rw [List.flatMap_cons, List.foldl_append]
    exact ⟨hskips.append hskips', rest', hafter'⟩

/-! ## 5. Where a comment starts and ends -/

-- Only code leads into a block comment, and only by a star.
theorem opens_of_stars (hout : s.region.stars = []) (hin : (s.advance .rust b).region.stars ≠ []) :
    b = Byte.star ∧ (s.advance .rust b).region = .blockComment s.offset [] := by
  have hmoves : Moves .rust s b (s.rule .rust b) := moves_rule Grammar.noConfusion
  rw [region_advance] at hin ⊢
  rcases hmoves.stars with hsame | ⟨hb, -, -, hopen⟩ | ⟨-, hclose⟩
  · rw [hsame] at hin
    exact absurd hout hin
  · rw [hout] at hopen
    exact ⟨hb, Region.eq_blockComment_of_stars hopen⟩
  · rw [hclose, hout] at hin
    exact absurd rfl hin

theorem afterPieces_of_opens (hc : s.ClosedBehind) (hb : b = Byte.star)
    (hr : (s.advance .rust b).region = .blockComment s.offset []) (text : List UInt8) :
    AfterPieces 1 text (s.advance .rust b) where
  within := by
    refine ⟨[s.offset], ⟨hr, ?_, hc.advance .rust b⟩, rfl⟩
    intro x hx
    rw [List.mem_singleton.mp hx, offset_advance]
    omega
  seam := by
    subst hb
    refine ⟨fun _ => rfl, fun _ => ?_⟩
    unfold endsComment
    rw [hr]
    simp [closesComment]
  closed := by
    intro hzero
    cases hzero

end Lexer

theorem depthAfter_concat (ps : List CommentPiece) (p : CommentPiece) :
    depthAfter (ps ++ [p]) = p.count (depthAfter ps) := by
  unfold depthAfter
  rw [List.foldl_append]
  rfl

-- Only a closer brings the depth down to zero.
theorem getLast?_of_depthAfter_eq_zero {ps : List CommentPiece}
    (hopen : ∀ n < ps.length, depthAfter (ps.take n) ≠ 0) (hzero : depthAfter ps = 0) :
    (ps.flatMap CommentPiece.bytes).getLast? = some Byte.slash := by
  rcases List.eq_nil_or_concat ps with rfl | ⟨qs, p, rfl⟩
  · cases hzero
  · rw [List.concat_eq_append] at *
    have hqs := hopen qs.length (by simp)
    rw [List.take_left, ← Nat.pos_iff_ne_zero] at hqs
    rw [depthAfter_concat] at hzero
    cases p with
    | opening => cases hzero
    | closing => simp [CommentPiece.bytes]
    | plain b => exact absurd hzero (Nat.ne_of_gt hqs)

/-- **Nested comments.** Let a byte lead from outside into a block comment, and cut the text after it
into pieces. Through the piece with which the depth first reaches zero every byte is skipped inside a
block comment, and after every piece as many comments are open as the depth says. That piece ends with
a slash after which the lexer is back in the code, and which opens no comment with the byte after
it. -/
theorem comments_nest_by_pieces (pre body : List UInt8) (b : UInt8)
    (hout : (Lexer.run .rust pre).region.stars = [])
    (hin : (Lexer.run .rust (pre ++ [b])).region.stars ≠ []) :
    b = Byte.star ∧ (commentPieces body).flatMap CommentPiece.bytes = body ∧
      ∀ ps, ps <+: commentPieces body → (∀ n < ps.length, depthAfter (ps.take n) ≠ 0) →
        let read := ps.flatMap CommentPiece.bytes
        let s := Lexer.run .rust (pre ++ b :: read)
        (Lexer.run .rust (pre ++ [b])).SkipsWithin read ∧
          s.region.stars.length = depthAfter ps ∧
          (depthAfter ps = 0 → s.region = .code ∧ read.getLast? = some Byte.slash ∧
            ∀ c, c = Byte.slash ∨ c = Byte.star → s.rule .rust c = (.code, .code)) := by
  have hstep : Lexer.run .rust (pre ++ [b]) = (Lexer.run .rust pre).advance .rust b := by
    rw [Lexer.run_append]
    rfl
  rw [hstep] at hin ⊢
  obtain ⟨hb, hr⟩ := Lexer.opens_of_stars hout hin
  refine ⟨hb, flatMap_bytes_commentPieces body, fun ps hps hopen => ?_⟩
  have hstart := Lexer.afterPieces_of_opens (Lexer.closedBehind_run .rust pre) hb hr body
  obtain ⟨hskips, rest, hafter⟩ := hstart.pieces hps hopen
  have hrun : Lexer.run .rust (pre ++ b :: ps.flatMap CommentPiece.bytes) =
      (ps.flatMap CommentPiece.bytes).foldl (Lexer.advance .rust)
        ((Lexer.run .rust pre).advance .rust b) := by
    rw [Lexer.run_append]
    rfl
  obtain ⟨stars, hwithin, hlength⟩ := hafter.within
  simp only [hrun]
  refine ⟨hskips, by rw [hwithin.stars_eq, hlength]; rfl, fun hzero => ?_⟩
  have hnil : stars = [] := List.length_eq_zero_iff.mp (hlength.trans hzero)
  have hcode := hwithin.region
  rw [hnil] at hcode
  refine ⟨hcode, getLast?_of_depthAfter_eq_zero hopen hzero, fun c hc => ?_⟩
  have hfollows := hafter.closed hzero
  have hplain : c ≠ Byte.newline ∧ c ≠ Byte.apostrophe ∧ c ≠ Byte.quote := by
    rcases hc with rfl | rfl <;> decide
  show Lexer.nestedRule _ c = _
  rw [Lexer.nestedRule_of_code hcode hplain.1]
  exact Lexer.fromCode_of_plain hplain.2.1 hplain.2.2 fun _ => hfollows

/-- The body of a comment with an opener whose star stands before a slash, quotes, a doubled star
before a closer, and a closer before a star. -/
def overlappingText : List UInt8 :=
  [0x2f, 0x2a, 0x2f, 0x27, 0x2a, 0x2a, 0x2f, 0x22, 0x2a, 0x2f, 0x2a, 0x28]

theorem comments_nest_overlappingText :
    (Lexer.run .rust [0x2f]).region.stars = [] ∧
      (Lexer.run .rust [0x2f, 0x2a]).region.stars = [1] ∧
      commentPieces overlappingText = [.opening, .plain 0x2f, .plain 0x27, .plain 0x2a, .closing,
        .plain 0x22, .closing, .plain 0x2a, .plain 0x28] ∧
      (Lexer.run .rust ([0x2f, 0x2a] ++ overlappingText.take 10)).region = .code ∧
      (Lexer.run .rust ([0x2f, 0x2a] ++ overlappingText.take 10)).rule .rust 0x2a =
        (.code, .code) := by
  obtain ⟨-, -, hpieces⟩ := comments_nest_by_pieces [0x2f] overlappingText 0x2a
    (by decide) (by decide)
  obtain ⟨-, -, hend⟩ := hpieces ((commentPieces overlappingText).take 7) (List.take_prefix 7 _)
    (by decide)
  obtain ⟨hcode, -, hnext⟩ := hend (by decide)
  exact ⟨by decide, by decide, by decide, hcode, hnext 0x2a (.inr rfl)⟩

end Nesting
