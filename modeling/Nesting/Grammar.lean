import Nesting.Byte

/-!
# Grammars

The lexical grammars that decide which bytes of a text are code: what opens a comment or a
literal, and whether angle brackets may be delimiters.
-/

namespace Nesting

/-- The lexical grammar of a text. In `generic` every byte is code. -/
inductive Grammar where
  | generic
  | c
  | cpp
  | rust
  deriving DecidableEq, Repr

namespace Grammar

/-- The name of a grammar. -/
def name : Grammar → String
  | .generic => "generic"
  | .c => "c"
  | .cpp => "cpp"
  | .rust => "rust"

/-- The grammar with exactly this name. -/
def ofName? : String → Option Grammar
  | "generic" => some .generic
  | "c" => some .c
  | "cpp" => some .cpp
  | "rust" => some .rust
  | _ => none

/-- The grammar of an editor's file type. A type without a grammar of its own is plain text. -/
def ofFiletype (filetype : String) : Grammar :=
  (ofName? filetype).getD .generic

/-- The user's own names for file types. -/
abbrev Aliases := List (String × Grammar)

/-- The grammar of a file type, where an alias goes before the name itself. -/
def resolve (aliases : Aliases) (filetype : String) : Grammar :=
  (aliases.lookup filetype).getD (ofFiletype filetype)

/-- Whether `<` and `>` can be delimiters. -/
def supportsAngles : Grammar → Bool
  | .cpp | .rust => true
  | .generic | .c => false

/-- The bytes that end a statement: an angle bracket still open there was a comparison. -/
def boundaries : Grammar → List UInt8
  | .c | .cpp => [Byte.semicolon, Byte.leftBrace]
  | .rust => [Byte.leftBrace, Byte.bar, Byte.caret, Byte.exclamation]
  | .generic => []

end Grammar

end Nesting
