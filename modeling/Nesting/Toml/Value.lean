/-!
# Values of a settings file

A settings file is a tree of tables. A table remembers how it came about, because that decides
what may still be added to it: each table is written in one place only.
-/

namespace Nesting.Toml

/-- How a table came about. -/
inductive Origin where
  /-- Written in braces, which is final. -/
  | inline
  /-- Opened by a header of its own. -/
  | header
  /-- Named on the way to a longer header, and still free to get its own. -/
  | implied
  /-- Named on the way to a dotted key. -/
  | dotted
  deriving DecidableEq, Repr

/-- A value of a settings file. Numbers with a fraction and dates are kept as they are written. -/
inductive Value where
  | string (text : String)
  | integer (value : Int)
  | float (text : String)
  | boolean (value : Bool)
  | datetime (text : String)
  | array (items : List Value)
  | table (origin : Origin) (entries : List (String × Value))
  /-- The tables under one doubled header, newest first. -/
  | tables (elements : List (List (String × Value)))
  deriving Repr

/-- The entries of a table in the order in which they were first named. -/
abbrev Entries := List (String × Value)

namespace Entries

/-- Replaces the value of a key by what `f` makes of it, or adds the key if it is not there. -/
def alter (key : String) (f : Option Value → Option Value) : Entries → Option Entries
  | [] => (f none).map fun v => [(key, v)]
  | (k, old) :: rest =>
    if k = key then (f (some old)).map fun v => (k, v) :: rest
    else (alter key f rest).map ((k, old) :: ·)

/-- Gives a value to a key, which must be new. The keys before the last name tables, which must
have come about by dotted keys; a table implied by a header may be passed through. -/
def define (value : Value) : List String → Entries → Option Entries
  | [], _ => none -- A path has at least one key.
  | [key], entries =>
    entries.alter key fun
      | none => some value
      | some _ => none
  | key :: keys, entries =>
    entries.alter key fun
      | none => (define value keys []).map (.table .dotted)
      | some (.table .dotted inner) => (define value keys inner).map (.table .dotted)
      -- A table that a header named is passed through, but gets no entry by a dotted key.
      | some (.table .implied inner) =>
        if keys.length = 1 then none else (define value keys inner).map (.table .implied)
      | some (.tables (newest :: older)) =>
        if keys.length = 1 then none
        else (define value keys newest).map fun entries => .tables (entries :: older)
      | some _ => none

/-- Opens what a header names: `last` makes the value of its last key, and the keys before it name
tables, or doubled headers of which the newest table is meant. -/
def openHeader (last : Option Value → Option Value) : List String → Entries → Option Entries
  | [], _ => none -- A path has at least one key.
  | [key], entries => entries.alter key last
  | key :: keys, entries =>
    entries.alter key fun
      | none => (openHeader last keys []).map (.table .implied)
      | some (.table .inline _) => none
      | some (.table origin inner) => (openHeader last keys inner).map (.table origin)
      | some (.tables (newest :: older)) =>
        (openHeader last keys newest).map fun entries => .tables (entries :: older)
      | some _ => none

/-- A header's table: new, or implied by longer headers before it. -/
def headerTable (fill : Entries → Option Entries) : Option Value → Option Value
  | none => (fill []).map (.table .header)
  | some (.table .implied entries) => (fill entries).map (.table .header)
  | some _ => none

/-- One more table under a doubled header. -/
def headerElement (fill : Entries → Option Entries) : Option Value → Option Value
  | none => (fill []).map fun entries => .tables [entries]
  | some (.tables elements) => (fill []).map fun entries => .tables (entries :: elements)
  | some _ => none

/-- Gives values to keys one after the other. -/
def defineAll (pairs : List (List String × Value)) (entries : Entries) : Option Entries :=
  pairs.foldlM (fun entries (keys, value) => entries.define value keys) entries

end Entries

end Nesting.Toml
