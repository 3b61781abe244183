import Nesting.Toml.Scalar

/-!
# Settings files

A settings file is read line by line into statements, and the statements build its root table.
A file with any fault in it is refused as a whole.
-/

namespace Nesting.Toml

/-! ## 1. Keys -/

/-- The most keys that a path may have, and one more than arrays and tables may be nested. -/
def depthLimit : Nat := 80

/-- A key, bare or quoted. -/
def simpleKey? : Parser String := fun s =>
  match s with
  | '"' :: _ | '\'' :: _ => quotedLine? s
  | _ =>
    let bare := s.takeWhile isBare
    if bare.isEmpty then none else some (String.ofList bare, s.dropWhile isBare)

/-- Keys with points between them and blank space around each. -/
def keys? (s : List Char) : Option (List String × List Char) := do
  let (key, rest) ← simpleKey? (skipBlank s)
  match skipBlank rest with
  | '.' :: more =>
    if more.length < s.length then
      let (keys, rest) ← keys? more
      return (key :: keys, rest)
    else none
  | rest => return ([key], rest)
termination_by s.length

/-- A path of keys that is not too long. -/
def path? : Parser (List String) := fun s => do
  let (keys, rest) ← keys? s
  if keys.length < depthLimit then some (keys, rest) else none

/-! ## 2. Values -/

/-- The items of an array after its opening bracket or after a comma. -/
def arrayItems? (item : Parser Value) (s : List Char) : Option (List Value × List Char) :=
  match skipTrivia s with
  | ']' :: rest => some ([], rest)
  | start => do
    let (value, rest) ← item start
    match skipTrivia rest with
    | ']' :: rest => return ([value], rest)
    | ',' :: rest =>
      if rest.length < s.length then
        let (values, rest) ← arrayItems? item rest
        return (value :: values, rest)
      else none
    | _ => none
termination_by s.length

/-- A path of keys with its value. -/
def keyValue? (item : Parser Value) : Parser (List String × Value) := fun s => do
  let (path, rest) ← path? s
  match rest with
  | '=' :: rest =>
    let (value, rest) ← item (skipBlank rest)
    return ((path, value), skipBlank rest)
  | _ => none

/-- The entries of a table in braces after its opening brace or after a comma. They stand on one
line, and the last has no comma after it. -/
def inlineEntries? (item : Parser Value) (s : List Char) :
    Option (List (List String × Value) × List Char) := do
  let (entry, rest) ← keyValue? item s
  match rest with
  | '}' :: rest => return ([entry], rest)
  | ',' :: rest =>
    if rest.length < s.length then
      let (entries, rest) ← inlineEntries? item rest
      return (entry :: entries, rest)
    else none
  | _ => none
termination_by s.length

/-- A table in braces after its opening brace. -/
def inlineTable? (item : Parser Value) : Parser Value := fun s =>
  match skipBlank s with
  | '}' :: rest => some (.table .inline [], rest)
  | _ => do
    let (pairs, rest) ← inlineEntries? item s
    let entries ← Entries.defineAll pairs []
    return (.table .inline entries, rest)

/-- A value in which arrays and tables are nested at most `depth` deep. -/
def value? (depth : Nat) : Parser Value := fun s =>
  match s with
  | '"' :: _ | '\'' :: _ => (quoted? s).map fun (text, rest) => (.string text, rest)
  | '[' :: rest =>
    match depth with
    | 0 => none
    | inner + 1 => (arrayItems? (value? inner) rest).map fun (items, rest) => (.array items, rest)
  | '\x7b' :: rest =>
    match depth with
    | 0 => none
    | inner + 1 => inlineTable? (value? inner) rest
  | _ => scalar? s

/-! ## 3. Statements -/

/-- A line of a settings file, or several when a value goes over lines. -/
inductive Statement where
  | blank
  | entry (path : List String) (value : Value)
  | header (path : List String)
  | elementHeader (path : List String)
  deriving Repr

/-- A statement without what may follow it on its line. -/
def statementBody? : Parser Statement := fun s =>
  match s with
  | '[' :: '[' :: rest => do
    let (path, rest) ← path? rest
    match rest with
    | ']' :: ']' :: rest => return (.elementHeader path, rest)
    | _ => none
  | '[' :: rest => do
    let (path, rest) ← path? rest
    match rest with
    | ']' :: rest => return (.header path, rest)
    | _ => none
  | [] | '#' :: _ | '\n' :: _ | '\r' :: _ => some (.blank, s)
  | _ => do
    let ((path, value), rest) ← keyValue? (value? (depthLimit - 1)) s
    return (.entry path value, rest)

/-- A statement with the rest of its line. -/
def statement? : Parser Statement := fun s => do
  let (statement, rest) ← statementBody? (skipBlank s)
  return (statement, ← endLine? rest)

/-- All statements of a text. -/
def statements? (s : List Char) : Option (List Statement) := do
  let (statement, rest) ← statement? s
  if rest.isEmpty then return [statement]
  else if rest.length < s.length then return statement :: (← statements? rest)
  else none
termination_by s.length

/-! ## 4. Building the root table -/

/-- The entries that stand under one header, and the statements from the next header on. -/
def splitSection : List Statement → List (List String × Value) × List Statement
  | .blank :: rest => splitSection rest
  | .entry path value :: rest =>
    let (entries, rest) := splitSection rest
    ((path, value) :: entries, rest)
  | rest => ([], rest)

/-- What is split off is no longer than the whole. -/
theorem length_splitSection (statements : List Statement) :
    (splitSection statements).2.length ≤ statements.length := by
  fun_induction splitSection statements <;> simp_all <;> omega

/-- Adds the sections of a file to its root table. -/
def addSections (statements : List Statement) (root : Entries) : Option Entries :=
  match statements with
  | .header path :: rest => do
    addSections (splitSection rest).2
      (← root.openHeader (Entries.headerTable (Entries.defineAll (splitSection rest).1)) path)
  | .elementHeader path :: rest => do
    addSections (splitSection rest).2
      (← root.openHeader (Entries.headerElement (Entries.defineAll (splitSection rest).1)) path)
  | _ => some root
termination_by statements.length
decreasing_by
  all_goals
    have := length_splitSection rest
    simp
    omega

/-- The root table of a settings file. A byte order mark may stand in front. -/
def parse? (text : String) : Option Entries := do
  let statements ← statements? (match text.toList with
    | '\ufeff' :: rest => rest
    | s => s)
  let (entries, sections) := splitSection statements
  addSections sections (← Entries.defineAll entries [])

end Nesting.Toml
