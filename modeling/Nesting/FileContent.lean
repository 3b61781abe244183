import Nesting.Error

/-!
# Files

What can be found at a path, as the rest of the library sees it.
-/

namespace Nesting

/-- What a path leads to. -/
inductive FileContent where
  | missing
  | unreadable (reason : String)
  | bytes (content : List UInt8)
  deriving DecidableEq, Repr

namespace FileContent

/-- A directory where a file is wanted. -/
def directory : FileContent := .unreadable "Is a directory (os error 21)"

/-- The bytes of a file. -/
def read : FileContent → Except Error (List UInt8)
  | .missing => .error (.io "No such file or directory (os error 2)")
  | .unreadable reason => .error (.io reason)
  | .bytes content => .ok content

end FileContent

end Nesting
