import Nesting.Bracket
import Nesting.Position.Text

/-!
# Delimiters and pairs

A delimiter is a bracket of the text with its place and its nesting depth, and a pair is an
opening delimiter with the closing one that answers it.
-/

namespace Nesting

/-- A character of the text with its place and nesting depth. -/
structure Delimiter where
  character : Char
  position : Position
  depth : Nat
  deriving DecidableEq, Repr

/-- An opening delimiter and the closing one that answers it. -/
structure Pair where
  opener : Delimiter
  closer : Delimiter
  deriving DecidableEq, Repr

namespace Delimiter

/-- The delimiter that a byte of the text is. -/
def ofByte (b : UInt8) (position : Position) (depth : Nat) : Delimiter :=
  ⟨Byte.toChar b, position, depth⟩

/-- The character with its place. -/
def placed (d : Delimiter) : String :=
  d.character.toString ++ d.position.text

/-- The character with its place and depth. -/
def text (d : Delimiter) : String :=
  d.placed ++ "@" ++ Nat.repr d.depth

end Delimiter

namespace Pair

/-- The depth of a pair is that of its opener. -/
def depth (p : Pair) : Nat := p.opener.depth

/-- Both ends with their places, and the depth. -/
def text (p : Pair) : String :=
  p.opener.placed ++ "-" ++ p.closer.placed ++ "@" ++ Nat.repr p.depth

/-- Whether a place lies between the two ends, both included. -/
def encloses (p : Pair) (place : Position) : Bool :=
  p.opener.position ≤ place && place ≤ p.closer.position

end Pair

end Nesting
