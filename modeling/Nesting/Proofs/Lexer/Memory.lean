import Nesting.Proofs.Place

/-!
# What the lexer remembers

Beside its region the lexer keeps offsets and two bytes to look back at. Most of it can be
forgotten: whether a slash can open a comment and whether a byte is escaped follow from one byte and
the state before it. The one fact needed for this is that the slash of the last closed comment lies
behind.
-/

namespace Nesting.Lexer

/-! ## 1. Runs from any state -/

/-- The class of every byte of a text that is read from the state `s` on. -/
def classesFrom (g : Grammar) (s : Lexer) (text : List UInt8) : List ByteClass :=
  List.zipWith (classify g) (text.scanl (advance g) s) text

theorem classes_eq_classesFrom (g : Grammar) (text : List UInt8) :
    classes g text = classesFrom g initial text := rfl

@[simp] theorem classesFrom_nil (g : Grammar) (s : Lexer) : classesFrom g s [] = [] := by
  simp [classesFrom]

@[simp] theorem classesFrom_cons (g : Grammar) (s : Lexer) (b : UInt8) (text : List UInt8) :
    classesFrom g s (b :: text) = s.classify g b :: classesFrom g (s.advance g b) text := by
  simp [classesFrom]

theorem classesFrom_append (g : Grammar) (s : Lexer) (text more : List UInt8) :
    classesFrom g s (text ++ more) =
      classesFrom g s text ++ classesFrom g (text.foldl (advance g) s) more := by
  induction text generalizing s with
  | nil => simp
  | cons b text ih => simp [ih]

@[simp] theorem length_classesFrom (g : Grammar) (s : Lexer) (text : List UInt8) :
    (classesFrom g s text).length = text.length := by
  simp [classesFrom]

/-! ## 2. The last closed comment -/

/-- The slash that last closed a block comment was read already. -/
def ClosedBehind (s : Lexer) : Prop :=
  ∀ i, s.closedAt = some i → i < s.offset

theorem closedBehind_initial : initial.ClosedBehind := by
  intro i hi
  cases hi

theorem ClosedBehind.advance {s : Lexer} (h : s.ClosedBehind) (g : Grammar) (b : UInt8) :
    (s.advance g b).ClosedBehind := by
  intro i hi
  show i < s.offset + 1
  by_cases hb : s.endsComment b = true
  · simp only [Lexer.advance, hb, if_true, Option.some.injEq] at hi
    omega
  · simp only [Lexer.advance, hb] at hi
    have hlt := h i hi
    omega

theorem ClosedBehind.foldl {s : Lexer} (h : s.ClosedBehind) (g : Grammar) (text : List UInt8) :
    (text.foldl (Lexer.advance g) s).ClosedBehind := by
  induction text generalizing s with
  | nil => exact h
  | cons b text ih => exact ih (h.advance g b)

theorem closedBehind_run (g : Grammar) (text : List UInt8) : (run g text).ClosedBehind :=
  closedBehind_initial.foldl g text

/-! ## 3. Looking back after one byte -/

theorem endsComment_of_ne_slash (s : Lexer) {b : UInt8} (hb : b ≠ Byte.slash) :
    s.endsComment b = false := by
  unfold endsComment
  split
  · simp [closesComment, hb]
  · rfl

theorem endsComment_of_stars {s : Lexer} {b : UInt8} (hr : s.region.stars = []) :
    s.endsComment b = false := by
  unfold endsComment
  split
  · rename_i hregion
    rw [hregion] at hr
    cases hr
  · rfl

theorem closedAt_advance {s : Lexer} {b : UInt8} (h : s.endsComment b = false) (g : Grammar) :
    (s.advance g b).closedAt = s.closedAt := by
  simp [Lexer.advance, h]

@[simp] theorem last_advance (g : Grammar) (s : Lexer) (b : UInt8) :
    (s.advance g b).last = some b := rfl

@[simp] theorem offset_advance (g : Grammar) (s : Lexer) (b : UInt8) :
    (s.advance g b).offset = s.offset + 1 := rfl

@[simp] theorem region_advance (g : Grammar) (s : Lexer) (b : UInt8) :
    (s.advance g b).region = (s.rule g b).2 := rfl

theorem isEscaped_advance (g : Grammar) (s : Lexer) (b : UInt8) :
    (s.advance g b).isEscaped = (b == Byte.backslash && s.last != some Byte.backslash) := rfl

-- A slash can open a comment unless it has just closed one.
theorem followsSlash_advance {s : Lexer} (h : s.ClosedBehind) (g : Grammar) (b : UInt8) :
    (s.advance g b).followsSlash = (b == Byte.slash && !s.endsComment b) := by
  unfold followsSlash
  rw [last_advance, offset_advance, Nat.add_sub_cancel]
  by_cases hb : s.endsComment b = true
  · simp [Lexer.advance, hb]
  · have hne : s.closedAt ≠ some s.offset := by
      intro heq
      exact Nat.lt_irrefl _ (h _ heq)
    simp [Lexer.advance, hb, hne]

end Nesting.Lexer
