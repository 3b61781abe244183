import Nesting.Byte

/-!
# The state of the lexer

The lexer reads a text byte by byte and knows at every point which region it stands in. Beside
the region it keeps what its rules look back at: the two bytes before, how many bytes were read,
and where a block comment was last closed.
-/

namespace Nesting

/-- Whether a byte is part of the code, or of a comment, a literal or a line end. -/
inductive ByteClass where
  | code
  | skipped
  deriving DecidableEq, Repr

/-- What the lexer stands in. -/
inductive Region where
  | code
  | lineComment
  /-- A block comment: the offset of the star that opened it, and those of the comments around it,
  innermost first. -/
  | blockComment (star : Nat) (outer : List Nat)
  /-- A literal in double quotes. -/
  | string
  /-- A literal in apostrophes with the number of its body's characters read so far. -/
  | char (body : Nat)
  /-- The digits of a byte escape in a literal in apostrophes. -/
  | byteEscape
  deriving DecidableEq, Repr

namespace Region

/-- A line or block comment. -/
def isComment : Region → Bool
  | .lineComment | .blockComment .. => true
  | _ => false

/-- A literal of any kind. -/
def isLiteral : Region → Bool
  | .string | .char _ | .byteEscape => true
  | _ => false

/-- The stars of the open block comments, innermost first. -/
def stars : Region → List Nat
  | .blockComment star outer => star :: outer
  | _ => []

/-- The region inside the given block comments, innermost first. -/
def inComments : List Nat → Region
  | [] => .code
  | star :: outer => .blockComment star outer

/-- A newline ends a line comment and nothing else. -/
def afterNewline : Region → Region
  | .lineComment => .code
  | region => region

end Region

/-- The lexer between two bytes. -/
structure Lexer where
  region : Region
  /-- The offset of the slash that last closed a block comment. -/
  closedAt : Option Nat
  /-- How many bytes were read. -/
  offset : Nat
  last : Option UInt8
  beforeLast : Option UInt8
  deriving DecidableEq, Repr

namespace Lexer

/-- The lexer before the first byte. -/
def initial : Lexer where
  region := .code
  closedAt := none
  offset := 0
  last := none
  beforeLast := none

/-- Whether the byte before is a slash that can open a comment: one that has just closed a block
comment cannot. -/
def followsSlash (s : Lexer) : Bool :=
  s.last == some Byte.slash && s.closedAt != some (s.offset - 1)

/-- Whether the byte to come is escaped: a backslash stands before it, and not two. -/
def isEscaped (s : Lexer) : Bool :=
  s.last == some Byte.backslash && s.beforeLast != some Byte.backslash

/-- Whether `b` is the slash that closes the block comment opened at `star`. The opening star
itself does not count as the closing one. -/
def closesComment (s : Lexer) (star : Nat) (b : UInt8) : Bool :=
  b == Byte.slash && s.last == some Byte.star && s.offset != star + 1

/-- Whether `b` closes the innermost open block comment. -/
def endsComment (s : Lexer) (b : UInt8) : Bool :=
  match s.region with
  | .blockComment star _ => s.closesComment star b
  | _ => false

end Lexer

end Nesting
