import Nesting.Grammar
import Nesting.Lexer.State

/-!
# The rules of the lexer

For every grammar, how a byte is classified and which region follows it. The rules agree outside
comments and literals and differ inside: block comments nest in one grammar and not in the other,
the closing quote of a literal is skipped or code, and an apostrophe opens a literal that runs to
the next one or that gives up after a character.
-/

namespace Nesting.Lexer

/-! ## 1. Outside comments and literals -/

/-- A slash opens a comment by the star or slash after it, a quote opens a literal, and any other
byte is code. -/
def fromCode (s : Lexer) (b : UInt8) : ByteClass × Region :=
  if b == Byte.star && s.followsSlash then (.skipped, .blockComment s.offset [])
  else if b == Byte.slash && s.followsSlash then (.skipped, .lineComment)
  else if b == Byte.apostrophe then (.skipped, .char 0)
  else if b == Byte.quote then (.skipped, .string)
  else (.code, .code)

/-! ## 2. Flat comments, closed literals -/

/-- The rules for `c` and `cpp`. A block comment holds no other, and a literal runs through the
next quote of its kind that is not escaped. -/
def flatRule (s : Lexer) (b : UInt8) : ByteClass × Region :=
  if b == Byte.newline then (.skipped, s.region.afterNewline)
  else match s.region with
    | .code => s.fromCode b
    | .lineComment => (.skipped, .lineComment)
    | .blockComment star outer =>
      (.skipped, if s.closesComment star b then .inComments outer else .blockComment star outer)
    | .string => (.skipped, if b == Byte.quote && !s.isEscaped then .code else .string)
    | .char body => (.skipped, if b == Byte.apostrophe && !s.isEscaped then .code else .char body)
    -- Only the rules below enter a byte escape.
    | .byteEscape => (.skipped, .byteEscape)

/-! ## 3. Nested comments, lifetimes -/

/-- A byte of a literal in apostrophes of which `body` characters were read. After one character
the next byte ends the literal whatever it is, so that a lifetime hides nothing. A backslash that
no backslash precedes counts as no character, and `\x` turns to the byte escape. -/
def charRule (s : Lexer) (body : Nat) (b : UInt8) : ByteClass × Region :=
  if b == Byte.lowerX && s.last == some Byte.backslash then (.skipped, .byteEscape)
  -- The body is complete, so this byte is the closing quote or no literal was meant.
  else if body == 1 then (.code, .code)
  else if b == Byte.apostrophe && !s.isEscaped then (.code, .code)
  else if b == Byte.backslash && s.last != some Byte.backslash then (.skipped, .char body)
  else (.skipped, .char (body + 1))

/-- The rules for `rust`. Block comments nest, and the byte that closes a literal is code. -/
def nestedRule (s : Lexer) (b : UInt8) : ByteClass × Region :=
  if b == Byte.newline then (.skipped, s.region.afterNewline)
  else match s.region with
    | .code => s.fromCode b
    | .lineComment => (.skipped, .lineComment)
    -- A star opens and a slash closes, so at most one of the two tests holds.
    | .blockComment star outer =>
      (.skipped,
        if b == Byte.star && s.followsSlash then .blockComment s.offset (star :: outer)
        else if s.closesComment star b then .inComments outer
        else .blockComment star outer)
    | .string =>
      if b == Byte.quote && !s.isEscaped then (.code, .code) else (.skipped, .string)
    | .char body => s.charRule body b
    | .byteEscape =>
      if b == Byte.apostrophe || !Byte.isHexDigit b then (.code, .code)
      else (.skipped, .byteEscape)

/-! ## 4. One byte -/

/-- The class of the byte `b` and the region after it. -/
def rule (g : Grammar) (s : Lexer) (b : UInt8) : ByteClass × Region :=
  match g with
  | .generic => (.code, s.region)
  | .c | .cpp => s.flatRule b
  | .rust => s.nestedRule b

/-- The class of the byte `b`. -/
def classify (g : Grammar) (s : Lexer) (b : UInt8) : ByteClass :=
  (s.rule g b).1

/-- The lexer after the byte `b`. -/
def advance (g : Grammar) (s : Lexer) (b : UInt8) : Lexer where
  region := (s.rule g b).2
  closedAt := if s.endsComment b then some s.offset else s.closedAt
  offset := s.offset + 1
  last := some b
  beforeLast := s.last

/-- The lexer after all of `text`. -/
def run (g : Grammar) (text : List UInt8) : Lexer :=
  text.foldl (advance g) initial

/-- The states through which the lexer passes, the first before any byte. -/
def states (g : Grammar) (text : List UInt8) : List Lexer :=
  text.scanl (advance g) initial

/-- The class of every byte of `text`. -/
def classes (g : Grammar) (text : List UInt8) : List ByteClass :=
  List.zipWith (classify g) (states g text) text

@[simp] theorem length_states (g : Grammar) (text : List UInt8) :
    (states g text).length = text.length + 1 := by
  simp [states]

@[simp] theorem length_classes (g : Grammar) (text : List UInt8) :
    (classes g text).length = text.length := by
  simp [classes]

@[simp] theorem run_nil (g : Grammar) : run g [] = initial := rfl

theorem run_append (g : Grammar) (text more : List UInt8) :
    run g (text ++ more) = more.foldl (advance g) (run g text) := by
  simp [run]

/-- As many bytes were read as the text has. -/
@[simp] theorem offset_run (g : Grammar) (text : List UInt8) :
    (run g text).offset = text.length := by
  have h : ∀ (s : Lexer), (text.foldl (advance g) s).offset = s.offset + text.length := by
    induction text with
    | nil => simp
    | cons b text ih => intro s; simp [ih, advance]; omega
  simpa [run, initial] using h initial

end Nesting.Lexer
