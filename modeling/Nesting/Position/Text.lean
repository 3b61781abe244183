import Nesting.Position.Basic

/-!
# The text of a position

A position is written `line.column` in decimal. Reading is a little wider: any one character that
is no digit may stand between the two numbers, and both must fit a word.
-/

namespace Nesting

/-- The word that a non-empty run of decimal digits stands for. Leading zeros are allowed. -/
def readWord? (digits : List Char) : Option Nat :=
  if digits ≠ [] ∧ digits.all Char.isDigit then
    let value := Nat.ofDigitChars 10 digits 0
    if value < Word.limit then some value else none
  else none

/-- Two words with one character between them that is no digit. -/
def readPair? (text : String) : Option (Nat × Nat) :=
  match text.toList.dropWhile Char.isDigit with
  | [] => none
  | _ :: second => do
    let a ← readWord? (text.toList.takeWhile Char.isDigit)
    let b ← readWord? second
    return (a, b)

namespace Position

/-- Line and column with a point between them. -/
def text (p : Position) : String :=
  Nat.repr p.line ++ "." ++ Nat.repr p.column

/-- A pair of words that are both at least one. -/
def parse (text : String) : Except Error Position :=
  match readPair? text with
  | some (line, column) =>
    if 1 ≤ line ∧ 1 ≤ column then .ok ⟨line, column⟩ else .error (.invalidPosition text)
  | none => .error (.invalidPosition text)

end Position

end Nesting
