import Nesting.CommandLine.Arguments

/-!
# Help

The arguments and options with what they mean, laid out in two ways: a summary with a line for
each, and a full text with a paragraph for each.
-/

namespace Nesting.CommandLine.Help

/-- What the help says about an argument or an option. -/
structure Entry where
  spec : String
  about : String
  /-- What is taken if the option is not given. -/
  preset : Option String := none
  /-- The values that can be given, with what they mean. -/
  values : List (String × String) := []
  deriving DecidableEq, Repr

def about : String := "Depth-colored delimiter highlighting for a buffer read from stdin"

/-- What a slot is for. -/
def ofSlot (slot : Slot) : Entry where
  spec := slot.label
  about := match slot with
    | .client => "Client the generated command is evaluated in"
    | .timestamp => "Buffer timestamp the ranges refer to"
    | .mode => "0: delimiters only, 1: also the pair around the cursor, 2: also every scope"
    | .cursor => "Cursor position as <line>.<column>"
    | .windowTop => "First visible position as <line>.<column>"
    | .windowSize => "Visible size as <lines>.<columns>"
    | .filetype => "Buffer filetype; c, cpp and rust are understood, anything else is plain text"
    | .resolve => "Y to treat angle brackets of generics/templates as delimiters"

def colors : Entry where
  spec := "[COLORS]..."
  about := "Foreground colors by depth, optionally followed by `!` and background colors"

/-- What an option is for. -/
def ofFlag (flag : Flag) : Entry :=
  let spec := "    " ++ flag.label
  match flag with
  | .input => { spec, about := "Read the buffer from a file instead of stdin" }
  | .format => {
      spec
      about := "Output format"
      preset := some "kakoune"
      values := [("kakoune", "A command for the Kakoune client"),
        ("json", "The highlight ranges as a JSON array")] }
  | .margin => {
      spec
      about := "Lines highlighted above and below the window (overrides the config file)" }

/-- The arguments in their order. -/
def arguments : List Entry := Slot.all.map ofSlot ++ [colors]

/-- The options. Each way to ask for help points to the other. -/
def options (full : Bool) : List Entry :=
  [ofFlag .input, ofFlag .format, ofFlag .margin,
    { spec := "-h, --help"
      about := if full then "Print help (see a summary with '-h')"
        else "Print help (see more with '--help')" },
    { spec := "-V, --version", about := "Print version" }]

def usage : String :=
  "Usage: rainbow [OPTIONS] " ++ String.intercalate " " (arguments.map Entry.spec)

/-- A number of blanks. -/
def blanks (n : Nat) : String := String.ofList (List.replicate n ' ')

namespace Entry

/-- The line of an entry, with its meaning beside a column of the given width. -/
def line (width : Nat) (e : Entry) : String :=
  "  " ++ e.spec ++ blanks (width - e.spec.length) ++ "  " ++ e.about ++
    (match e.preset with
      | some value => " [default: " ++ value ++ "]"
      | none => "") ++
    (if e.values.isEmpty then ""
      else " [possible values: " ++ String.intercalate ", " (e.values.map Prod.fst) ++ "]")

/-- The paragraph of an entry, with its meaning below it. -/
def paragraph (e : Entry) : String :=
  let indent := "\n" ++ blanks 10
  let width := (e.values.map fun (name, _) => name.length).foldl max 0
  "  " ++ e.spec ++ indent ++ e.about ++
    (match e.preset with
      | some value => indent ++ indent ++ "[default: " ++ value ++ "]"
      | none => "") ++
    (if e.values.isEmpty then "" else "\n" ++ indent ++ "Possible values:") ++
    String.join (e.values.map fun (name, meaning) =>
      indent ++ "- " ++ name ++ ": " ++ blanks (width - name.length) ++ meaning)

end Entry

/-- The entries under a title, as paragraphs or as lines of one width. -/
def listing (full : Bool) (title : String) (entries : List Entry) : String :=
  let width := (entries.map fun e => e.spec.length).foldl max 0
  title ++ ":\n" ++
    if full then String.intercalate "\n\n" (entries.map Entry.paragraph)
    else String.intercalate "\n" (entries.map (Entry.line width))

/-- The text of the help. -/
def text (full : Bool) : String :=
  let arguments := listing full "Arguments" arguments
  let options := listing full "Options" (options full)
  String.intercalate "\n\n" [about, usage, arguments, options] ++ "\n"

end Nesting.CommandLine.Help
