import Nesting.Position.Text

/-!
# Windows

The part of a text that is worth painting: what the editor shows, and a margin of lines above and
below.
-/

namespace Nesting

/-- The places from `top` to `bottom`, both included. -/
structure Window where
  top : Position
  bottom : Position
  deriving DecidableEq, Repr

namespace Window

/-- Whether a place lies in the window. -/
def contains (w : Window) (p : Position) : Bool :=
  w.top ≤ p && p ≤ w.bottom

/-- Whether one of the ends of a span lies in the window, or the window lies in the span. -/
def overlaps (w : Window) (first last : Position) : Bool :=
  w.contains first || w.contains last || (first ≤ w.top && w.bottom ≤ last)

/-- The window of an editor that shows `lines` lines and `columns` columns from `top` on, with a
margin of lines on both sides. It starts at the first line of the text at the earliest, and it is
an error if its end does not fit a word. -/
def ofView (top : Position) (lines columns margin : Nat) : Except Error Window := do
  -- The screen first, then the margin below it: each sum has to fit a word.
  let lastLine ← Word.add top.line lines
  let lastColumn ← Word.add top.column columns
  let bottomLine ← Word.add lastLine margin
  return ⟨⟨max (top.line - margin) 1, top.column⟩, ⟨bottomLine, lastColumn⟩⟩

end Window

/-- Two words: how many lines and columns an editor shows. -/
def parseSize (text : String) : Except Error (Nat × Nat) :=
  match readPair? text with
  | some size => .ok size
  | none => .error (.invalidSize text)

end Nesting
