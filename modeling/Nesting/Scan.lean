import Nesting.Angle.Collect
import Nesting.Pairing.Match

/-!
# Scanning a text

The delimiter pairs of a text under a grammar, with the angle brackets of generics and templates
resolved or left alone.
-/

namespace Nesting

/-- The marks that a scan works with: those of the text when angle brackets are resolved. -/
def scanMarks (g : Grammar) (resolve : Bool) (text : List UInt8) : List AngleMark :=
  if resolve then angleMarks g text else []

/-- The delimiter pairs of a text, in the order of their closers. Malformed text is no error:
what cannot be paired is left out. -/
def scan (g : Grammar) (resolve : Bool) (text : List UInt8) : List Pair :=
  matchDelimiters g (scanMarks g resolve text) text

end Nesting
