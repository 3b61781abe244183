import Nesting.Paint.Highlight

/-!
# Ranges as JSON

Ranges are handed to other programs as a JSON array without blank space. A fault on the way is
known by its text, which may end in a place.
-/

namespace Nesting

namespace Json

/-- The two hexadecimal digits of a number below 256. -/
def hexPair (n : Nat) : String :=
  String.ofList [Nat.digitChar (n / 16), Nat.digitChar (n % 16)]

/-- A character inside a string. Quote, backslash and control characters are escaped, and
everything else stands for itself. -/
def char (c : Char) : String :=
  match c with
  | '"' => "\\\""
  | '\\' => "\\\\"
  | '\x08' => "\\b"
  | '\t' => "\\t"
  | '\n' => "\\n"
  | '\x0c' => "\\f"
  | '\r' => "\\r"
  | c => if c.toNat < 0x20 then "\\u00" ++ hexPair c.toNat else c.toString

def string (s : String) : String :=
  "\"" ++ String.join (s.toList.map char) ++ "\""

def position (p : Position) : String :=
  "\x7b\"line\":" ++ Nat.repr p.line ++ ",\"column\":" ++ Nat.repr p.column ++ "\x7d"

def range (r : Range) : String :=
  "\x7b\"start\":" ++ position r.first ++ ",\"end\":" ++ position r.last ++ ",\"face\":" ++
    string r.face ++ "\x7d"

/-- All ranges in their order. -/
def ranges (rs : List Range) : String :=
  "[" ++ String.intercalate "," (rs.map range) ++ "]"

end Json

namespace JsonFault

/-- Splits a text given backwards into its last word of decimal digits, with what stands before
it after a given mark. -/
def lastWord? (mark : String) (reversed : List Char) : Option (Nat × List Char) := do
  let word ← readWord? (reversed.takeWhile Char.isDigit).reverse
  let rest ← mark.toList.reverse.isPrefixOf? (reversed.dropWhile Char.isDigit)
  return (word, rest)

/-- The fault that a text tells of. A text that ends in a line and a column is split there, and
line zero is no place. -/
def ofText (text : String) : JsonFault :=
  let split? := do
    let (column, rest) ← lastWord? " column " text.toList.reverse
    let (line, rest) ← lastWord? " at line " rest
    return (String.ofList rest.reverse, line, column)
  match split? with
  | some (reason, line, column) => ⟨reason, if line = 0 then none else some (line, column)⟩
  | none => ⟨text, none⟩

end JsonFault

end Nesting
