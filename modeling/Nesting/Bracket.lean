import Nesting.Byte

/-!
# Brackets

The four kinds of brackets and the two sides of each.
-/

namespace Nesting

/-- A kind of bracket. -/
inductive Bracket where
  | round
  | square
  | curly
  | angle
  deriving DecidableEq, Repr

/-- The side of a bracket that opens a pair or the one that closes it. -/
inductive Side where
  | opening
  | closing
  deriving DecidableEq, Repr

namespace Bracket

/-- The character of a bracket. -/
def character : Bracket → Side → Char
  | .round, .opening => '('
  | .round, .closing => ')'
  | .square, .opening => '['
  | .square, .closing => ']'
  | .curly, .opening => '{'
  | .curly, .closing => '}'
  | .angle, .opening => '<'
  | .angle, .closing => '>'

/-- The bracket that a character is. -/
def read? : Char → Option (Bracket × Side)
  | '(' => some (.round, .opening)
  | ')' => some (.round, .closing)
  | '[' => some (.square, .opening)
  | ']' => some (.square, .closing)
  | '{' => some (.curly, .opening)
  | '}' => some (.curly, .closing)
  | '<' => some (.angle, .opening)
  | '>' => some (.angle, .closing)
  | _ => none

@[simp] theorem read?_character (k : Bracket) (side : Side) :
    read? (k.character side) = some (k, side) := by
  cases k <;> cases side <;> rfl

theorem character_of_read? {c : Char} {k : Bracket} {side : Side}
    (h : read? c = some (k, side)) : k.character side = c := by
  unfold read? at h
  split at h <;> first | contradiction | (obtain ⟨rfl, rfl⟩ := h; rfl)

/-- The bracket that a byte is. -/
def ofByte? (b : UInt8) : Option (Bracket × Side) :=
  read? (Byte.toChar b)

/-- The byte of a bracket. -/
def byte : Bracket → Side → UInt8
  | .round, .opening => 0x28
  | .round, .closing => 0x29
  | .square, .opening => 0x5b
  | .square, .closing => 0x5d
  | .curly, .opening => 0x7b
  | .curly, .closing => 0x7d
  | .angle, .opening => 0x3c
  | .angle, .closing => 0x3e

theorem toChar_byte (k : Bracket) (side : Side) :
    Byte.toChar (k.byte side) = k.character side := by
  cases k <;> cases side <;> rfl

/-- Eight bytes are brackets, and no other byte is one. -/
theorem ofByte?_eq_some_iff {b : UInt8} {k : Bracket} {side : Side} :
    ofByte? b = some (k, side) ↔ b = k.byte side := by
  constructor
  · intro h
    apply Byte.toChar_injective
    rw [toChar_byte]
    exact (character_of_read? h).symm
  · rintro rfl
    unfold ofByte?
    rw [toChar_byte, read?_character]

/-- The opening character that answers to a closing one. -/
def opener? (closer : Char) : Option Char :=
  match read? closer with
  | some (k, .closing) => some (k.character .opening)
  | _ => none

/-- The round, square and curly brackets, which are delimiters wherever they are code. -/
def isPlain : Bracket → Bool
  | .angle => false
  | _ => true

/-- An opening bracket other than the angle. -/
def isPlainOpener (c : Char) : Bool :=
  match read? c with
  | some (k, .opening) => k.isPlain
  | _ => false

/-- A closing bracket other than the angle. -/
def isPlainCloser (c : Char) : Bool :=
  match read? c with
  | some (k, .closing) => k.isPlain
  | _ => false

end Bracket

end Nesting
