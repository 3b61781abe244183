import Nesting.Delimiter
import Nesting.Paint.Palette
import Nesting.Paint.Window

/-!
# Highlighting

The colored ranges of a window: the delimiters themselves by depth, and, as the mode asks, the
background of the pair around the cursor or of every pair. Pairs are painted from the last found
to the first, so that an outer pair comes before the pairs inside it and these are drawn over it.
-/

namespace Nesting

/-- What is painted beside the delimiters themselves. -/
inductive Mode where
  | delimiters
  | cursor
  | scopes
  deriving DecidableEq, Repr

/-- Modes are numbered on the command line. -/
def Mode.parse : String → Except Error Mode
  | "0" => .ok .delimiters
  | "1" => .ok .cursor
  | "2" => .ok .scopes
  | text => .error (.invalidMode text)

/-- A colored span, both ends included. -/
structure Range where
  first : Position
  last : Position
  face : String
  deriving DecidableEq, Repr

/-- Everything but the pairs that decides what is painted. -/
structure Request where
  mode : Mode
  cursor : Position
  window : Window
  palette : Palette
  /-- The background of the pair around the cursor. -/
  cursorColor : String
  deriving DecidableEq, Repr

namespace Range

/-- A single character in a foreground color. -/
def single (position : Position) (face : String) : Range :=
  ⟨position, position, face⟩

/-- The span of a pair on a background color. -/
def behind (pair : Pair) (color : String) : Range :=
  ⟨pair.opener.position, pair.closer.position, "default," ++ color⟩

end Range

namespace Request

/-- Whether some of a pair can be seen. -/
def shows (r : Request) (pair : Pair) : Bool :=
  r.window.overlaps pair.opener.position pair.closer.position

/-- The ends of a pair that lie in the window, in the color of its depth. -/
def ends (r : Request) (pair : Pair) : List Range :=
  match r.palette.foregroundAt pair.depth with
  | none => []
  | some color =>
    ([pair.opener.position, pair.closer.position].filter r.window.contains).map
      (Range.single · color)

/-- The background of a pair that can be seen, in the color of its depth. -/
def scope (r : Request) (pair : Pair) : List Range :=
  match r.mode, r.palette.backgroundAt pair.depth with
  | .scopes, some color => if r.shows pair then [Range.behind pair color] else []
  | _, _ => []

/-- The pair around the cursor: the first one found, because inner pairs are closed first. -/
def cursorPair? (r : Request) (pairs : List Pair) : Option Pair :=
  match r.mode with
  | .cursor => pairs.find? (·.encloses r.cursor)
  | _ => none

/-- The background of the pair around the cursor, if it can be seen. -/
def cursorScope (r : Request) (pairs : List Pair) : List Range :=
  match r.cursorPair? pairs with
  | some pair => if r.shows pair then [Range.behind pair r.cursorColor] else []
  | none => []

/-- The ranges to paint for the pairs of a text, given in the order of their closers. -/
def ranges (r : Request) (pairs : List Pair) : List Range :=
  pairs.reverse.flatMap (fun pair => r.ends pair ++ r.scope pair) ++ r.cursorScope pairs

end Request

end Nesting
