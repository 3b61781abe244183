import Nesting.Paint.Highlight

/-!
# The editor's command

Ranges are handed to the editor as one command that sets an option of a client's window.
-/

namespace Nesting

/-- Both ends of a range and its face. -/
def Range.text (r : Range) : String :=
  r.first.text ++ "," ++ r.last.text ++ "|" ++ r.face

/-- The command that sets the ranges of a client's window. The editor drops them if its text has
changed since `timestamp`. -/
def command (client timestamp : String) (ranges : List Range) : String :=
  "eval -client " ++ client ++ " set-option window rainbow " ++ timestamp ++
    String.join (ranges.map (fun r => " " ++ r.text))

end Nesting
