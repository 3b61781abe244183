/-!
# Errors

The ways in which a request can fail, as causes, and the one place that words them.
-/

namespace Nesting

/-- The growing lists a scan can run out of memory for. -/
inductive Collection where
  | pairs
  | angleMarks
  deriving DecidableEq, Repr

/-- What a collection is called in a message. -/
def Collection.label : Collection → String
  | .pairs => "matched pairs"
  | .angleMarks => "angle bracket candidates"

/-- Why JSON was not written or read. A place is a line and a column, if one is known. -/
structure JsonFault where
  reason : String
  place : Option (Nat × Nat) := none
  deriving DecidableEq, Repr

/-- The reason, and after it the place. -/
def JsonFault.text (fault : JsonFault) : String :=
  match fault.place with
  | none => fault.reason
  | some (line, column) =>
    fault.reason ++ " at line " ++ Nat.repr line ++ " column " ++ Nat.repr column

/-- Why a request failed. The text that was refused, or the reason given by the system, is kept. -/
inductive Error where
  | invalidPosition (text : String)
  | invalidSize (text : String)
  | invalidMode (text : String)
  | outOfMemory (collecting : Collection)
  | json (fault : JsonFault)
  | io (reason : String)
  | overflow
  deriving DecidableEq, Repr

namespace Error

/-- The text shown to the user. -/
def message : Error → String
  | .invalidPosition text =>
    "Invalid position '" ++ text ++ "': expected <line>.<column> with both parts >= 1"
  | .invalidSize text =>
    "Invalid window size '" ++ text ++ "': expected <lines>.<columns>"
  | .invalidMode text =>
    "Invalid highlight mode '" ++ text ++ "': expected 0, 1 or 2"
  | .outOfMemory what =>
    "Out of memory while collecting " ++ what.label ++ ": memory allocation failed because the " ++
      "computed capacity exceeded the collection's maximum"
  | .json fault => "JSON output failed: " ++ fault.text
  | .io reason => "IO error: " ++ reason
  | .overflow => "attempt to add with overflow"

end Error

end Nesting
