import Nesting.Angle.Mark
import Nesting.Lexer.Cell

/-!
# Collecting angle marks

One pass over the cells finds the angle brackets of generics and templates. An opening angle is
marked on trust and a closing one only if it can answer an opener. At the end of a statement the
openers that are still open turn out to be comparisons, and their marks are deleted.
-/

namespace Nesting

/-- The marks made so far. -/
structure Collector where
  /-- Newest first. -/
  marks : List AngleMark
  /-- How many of the marked openers wait for a closer. -/
  unclosed : Nat
  last : Option UInt8
  deriving DecidableEq, Repr

namespace Collector

def initial : Collector := ⟨[], 0, none⟩

/-- Deletes the marks of the openers that are still open. -/
def settle (c : Collector) : Collector :=
  let (marks, deleted) := AngleMark.settle c.marks
  { c with marks, unclosed := c.unclosed - deleted }

/-- The side of the mark that a cell deserves. A closing angle must have an opener to answer, and
the head of an arrow is none. -/
def side? (c : Collector) (x : Cell) : Option Side :=
  match x.kind, Bracket.ofByte? x.byte with
  | .code, some (.angle, .opening) => some .opening
  | .code, some (.angle, .closing) =>
    if 0 < c.unclosed ∧ c.last ≠ some Byte.dash then some .closing else none
  | _, _ => none

/-- One more mark. -/
def record (c : Collector) (position : Position) : Side → Collector
  | .opening => { c with marks := ⟨.opening, position⟩ :: c.marks, unclosed := c.unclosed + 1 }
  | .closing => { c with marks := ⟨.closing, position⟩ :: c.marks, unclosed := c.unclosed - 1 }

/-- The collector after a cell. A boundary settles the marks wherever it occurs, in comments and
literals too. -/
def step (boundaries : List UInt8) (c : Collector) (x : Cell) : Collector :=
  -- Boundaries are no angle brackets, so a cell is settled or marked and never both.
  let settled := if x.byte ∈ boundaries then c.settle else c
  let marked := match settled.side? x with
    | some side => settled.record x.position side
    | none => settled
  { marked with last := some x.byte }

end Collector

/-- The angle brackets of a text that are delimiters, in the order of the text. A grammar without
angle brackets has none. -/
def angleMarks (g : Grammar) (text : List UInt8) : List AngleMark :=
  if g.supportsAngles then
    ((cells g text).foldl (Collector.step g.boundaries) .initial).marks.reverse
  else []

end Nesting
