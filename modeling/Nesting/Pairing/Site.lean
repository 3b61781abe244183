import Nesting.Angle.Mark
import Nesting.Delimiter
import Nesting.Lexer.Cell

/-!
# Delimiter sites

The places of a text where a bracket acts as a delimiter: every round, square or curly bracket
that is code, and the angle brackets that a list of marks speaks for. The marks are used up from
the front while the text is read, so a mark behind the current place is lost, and the side that a
mark gives is not looked at.
-/

namespace Nesting

/-- A bracket that acts as a delimiter. -/
structure Site where
  bracket : Bracket
  side : Side
  position : Position
  deriving DecidableEq, Repr

namespace Site

/-- The delimiter that a site is at a given depth. -/
def delimiter (x : Site) (depth : Nat) : Delimiter :=
  ⟨x.bracket.character x.side, x.position, depth⟩

end Site

/-- The sites found so far. -/
structure SiteFinder where
  /-- The marks that are not used up, in the order in which they were given. -/
  marks : List AngleMark
  /-- Newest first. -/
  found : List Site
  deriving DecidableEq, Repr

namespace SiteFinder

/-- The marks without those at the front that lie before `place`. -/
def skipTo (f : SiteFinder) (place : Position) : SiteFinder :=
  { f with marks := f.marks.dropWhile (fun m => decide (m.position < place)) }

/-- Records a bracket. An angle bracket counts only if the first mark left is for its place, and
uses that mark up. -/
def take (f : SiteFinder) (x : Site) : SiteFinder :=
  -- Plain brackets need no mark and use none up.
  if x.bracket.isPlain then { f with found := x :: f.found }
  else match f.marks with
    | [] => f
    | m :: rest => if m.position = x.position then ⟨rest, x :: f.found⟩ else f

/-- The finder after a cell. Cells that are not code leave it as it is. -/
def step (f : SiteFinder) (x : Cell) : SiteFinder :=
  match x.kind with
  | .skipped => f
  | .code =>
    match Bracket.ofByte? x.byte with
    | none => f.skipTo x.position
    | some (bracket, side) => (f.skipTo x.position).take ⟨bracket, side, x.position⟩

end SiteFinder

/-- The delimiter sites of a list of cells, in order. -/
def sites (marks : List AngleMark) (cells : List Cell) : List Site :=
  (cells.foldl SiteFinder.step ⟨marks, []⟩).found.reverse

end Nesting
