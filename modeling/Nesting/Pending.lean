import Nesting.Delimiter

/-!
# Pending openers

The openers that still wait for their closer, innermost first. A closer takes the innermost
opener of its own kind; the openers inside that one are given up, because nothing can close them
any more.
-/

namespace Nesting

/-- The openers that wait for a closer. -/
structure Pending where
  /-- Innermost first. -/
  openers : List Delimiter
  deriving DecidableEq, Repr

namespace Pending

/-- Nothing waits. -/
def empty : Pending := ⟨[]⟩

/-- How many openers wait. -/
def depth (s : Pending) : Nat := s.openers.length

def isEmpty (s : Pending) : Bool := s.openers.isEmpty

/-- One more opener, inside all the others. -/
def push (s : Pending) (d : Delimiter) : Pending := ⟨d :: s.openers⟩

/-- The innermost opener. -/
def top? (s : Pending) : Option Delimiter := s.openers.head?

/-- The innermost opener and the others. -/
def pop? (s : Pending) : Option (Delimiter × Pending) :=
  match s.openers with
  | [] => none
  | d :: rest => some (d, ⟨rest⟩)

/-- The openers from the outermost to the innermost. -/
def toList (s : Pending) : List Delimiter := s.openers.reverse

/-- The innermost opener of a given character and the openers around it. -/
def find? (s : Pending) (opener : Char) : Option (Delimiter × Pending) :=
  pop? ⟨s.openers.dropWhile (fun d => d.character != opener)⟩

/-- The pair that a closer makes with the innermost opener of its kind, and the openers around
it. The closer takes the depth of its opener. There is none if the character closes nothing or no
opener of its kind waits. -/
def close? (s : Pending) (closer : Delimiter) : Option (Pair × Pending) := do
  let wanted ← Bracket.opener? closer.character
  let (opener, rest) ← s.find? wanted
  return (⟨opener, { closer with depth := opener.depth }⟩, rest)

@[simp] theorem depth_empty : empty.depth = 0 := rfl

@[simp] theorem depth_push (s : Pending) (d : Delimiter) : (s.push d).depth = s.depth + 1 := rfl

@[simp] theorem toList_push (s : Pending) (d : Delimiter) :
    (s.push d).toList = s.toList ++ [d] := by
  simp [push, toList]

end Pending

end Nesting
