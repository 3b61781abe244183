import Nesting.FileContent
import Nesting.Grammar
import Nesting.Paint.Palette
import Nesting.Toml.Document

/-!
# Settings

What the user can set in a file: the margin around the window, the colors, and grammars for more
file types. Keys that are not known are passed over; a known key with a value of the wrong type
spoils the file, and then all settings keep their defaults.
-/

namespace Nesting

/-- The user's settings. -/
structure Settings where
  /-- Lines painted above and below the window. -/
  margin : Nat := 30
  palette : Palette := ⟨[], []⟩
  /-- The background of the pair around the cursor. -/
  cursorColor : String := "rgb:003300"
  aliases : Grammar.Aliases := []
  deriving DecidableEq, Repr

/-- Why a settings file was not used. -/
inductive SettingsFault where
  | unreadable (reason : String)
  | invalid
  deriving DecidableEq, Repr

/-- The warning shown to the user. -/
def SettingsFault.message : SettingsFault → String
  | .unreadable reason => "Failed to read config: " ++ reason
  | .invalid => "Invalid config"

namespace Settings

open Toml (Value Entries)

/-! ## 1. Single values -/

def number? : Value → Option Nat
  | .integer (.ofNat n) => some n
  | _ => none

def string? : Value → Option String
  | .string text => some text
  | _ => none

/-- The items of an array, or the tables under a doubled header. -/
def items? : Value → Option (List Value)
  | .array items => some items
  | .tables elements => some (elements.reverse.map (.table .header))
  | _ => none

def strings? (v : Value) : Option (List String) := do
  (← items? v).mapM string?

/-- A table or an array without content. -/
def isHollow : Value → Bool
  | .array [] | .table _ [] => true
  | _ => false

/-- A grammar's name, or a table of which it is the only key and which holds nothing under it. -/
def grammar? : Value → Option Grammar
  | .string name => Grammar.ofName? name
  | .table _ [(name, inner)] => if isHollow inner then Grammar.ofName? name else none
  | _ => none

/-! ## 2. Sections -/

/-- The values of a section for its fields. A section is a table, or an array that gives the
fields in order. A date has none of the fields. -/
def fields? (names : List String) : Value → Option (List (Option Value))
  | .table _ entries => some (names.map fun name => entries.lookup name)
  | .datetime _ => some (names.map fun _ => none)
  | v => (items? v).map fun items => (List.range names.length).map (items[·]?)

/-- Reads a field that may be absent. -/
def read? (read : Value → Option α) (default : α) : Option Value → Option α
  | none => some default
  | some v => read v

/-- The section on the window. -/
def readView (settings : Settings) (part : Value) : Option Settings := do
  match ← fields? ["margin"] part with
  | [margin] => return { settings with margin := ← read? number? settings.margin margin }
  | _ => none

/-- The section on colors. -/
def readColors (settings : Settings) (part : Value) : Option Settings := do
  match ← fields? ["foreground", "background", "cursor"] part with
  | [foreground, background, cursor] =>
    return { settings with
      palette :=
        ⟨← read? strings? settings.palette.foreground foreground,
          ← read? strings? settings.palette.background background⟩
      cursorColor := ← read? string? settings.cursorColor cursor }
  | _ => none

/-- The section on file types. -/
def readAliases (settings : Settings) : Value → Option Settings
  | .table _ entries => do
    let aliases ← entries.mapM fun (name, v) => do return (name, ← grammar? v)
    return { settings with aliases }
  | _ => none

/-- Applies a section of the root table if it is there. -/
def readPart (root : Entries) (name : String) (read : Settings → Value → Option Settings)
    (settings : Settings) : Option Settings :=
  match root.lookup name with
  | some part => read settings part
  | none => some settings

/-- The settings of a root table. -/
def ofEntries? (root : Entries) : Option Settings := do
  let settings ← readPart root "viewport" readView {}
  let settings ← readPart root "colors" readColors settings
  readPart root "filetypes" readAliases settings

/-! ## 3. The file -/

/-- The settings of a file. No file means defaults, and so does a file that cannot be used, with
the reason. -/
def load : FileContent → Settings × Option SettingsFault
  | .missing => ({}, none)
  | .unreadable reason => ({}, some (.unreadable reason))
  | .bytes content =>
    match String.fromUTF8? ⟨content.toArray⟩ with
    | none => ({}, some (.unreadable "stream did not contain valid UTF-8"))
    | some text =>
      match Toml.parse? text >>= ofEntries? with
      | some settings => (settings, none)
      | none => ({}, some .invalid)

end Settings

end Nesting
