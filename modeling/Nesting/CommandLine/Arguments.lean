import Nesting.Paint.Highlight
import Nesting.Terminal

/-!
# Arguments

The command line takes eight arguments in order, then any number of colors, and options by name
before the first color. A value is checked only when the argument after it is taken up, so an
argument that has no place at all is reported before a bad value in front of it.
-/

namespace Nesting.CommandLine

/-! ## 1. What can be asked for -/

/-- How the ranges are written. -/
inductive Format where
  | command
  | json
  deriving DecidableEq, Repr

/-- A complete command line. -/
structure Arguments where
  client : String
  timestamp : String
  mode : Mode
  cursor : Position
  windowTop : Position
  windowSize : Nat × Nat
  filetype : String
  resolve : Bool
  colors : List String
  input : Option String
  format : Format
  margin : Option Nat
  deriving DecidableEq, Repr

/-- The arguments before the colors, by place. -/
inductive Slot where
  | client
  | timestamp
  | mode
  | cursor
  | windowTop
  | windowSize
  | filetype
  | resolve
  deriving DecidableEq, Repr

/-- The options by name. -/
inductive Flag where
  | input
  | format
  | margin
  deriving DecidableEq, Repr

namespace Slot

/-- All slots in order. -/
def all : List Slot :=
  [.client, .timestamp, .mode, .cursor, .windowTop, .windowSize, .filetype, .resolve]

/-- The name of a slot in messages. -/
def label : Slot → String
  | .client => "<CLIENT>"
  | .timestamp => "<TIMESTAMP>"
  | .mode => "<MODE>"
  | .cursor => "<CURSOR>"
  | .windowTop => "<WINDOW_TOP>"
  | .windowSize => "<WINDOW_SIZE>"
  | .filetype => "<FILETYPE>"
  | .resolve => "<RESOLVE_GENERICS>"

end Slot

namespace Flag

def ofName? : String → Option Flag
  | "input" => some .input
  | "format" => some .format
  | "margin" => some .margin
  | _ => none

/-- The name of an option in messages. -/
def label : Flag → String
  | .input => "--input <INPUT>"
  | .format => "--format <FORMAT>"
  | .margin => "--margin <MARGIN>"

end Flag

/-! ## 2. What can go wrong -/

/-- Why a command line is refused. -/
inductive UsageError where
  | invalidValue (value label : String) (reason : Option String)
  | missing (slots : List Slot)
  | unexpected (argument : String)
  | unexpectedValue (value option : String)
  | repeated (label : String)
  | valueRequired (label : String)
  deriving DecidableEq, Repr

namespace UsageError

open Terminal

/-- What is wrong, painted. A reason is quoted as it is. -/
def message : UsageError → String
  | .invalidValue value label reason =>
    "invalid value '" ++ Style.invalid.paint value ++ "' for '" ++ Style.literal.paint label ++
      "'" ++ (match reason with
        | some reason => ": " ++ reason
        | none => "")
  | .missing slots =>
    "the following required arguments were not provided:" ++
      String.join (slots.map fun slot => "\n  " ++ Style.valid.paint slot.label)
  | .unexpected argument =>
    "unexpected argument '" ++ Style.invalid.paint argument ++ "' found"
  | .unexpectedValue value option =>
    "unexpected value '" ++ Style.invalid.paint value ++ "' for '" ++
      Style.literal.paint option ++ "' found; no more were expected"
  | .repeated label =>
    "the argument '" ++ Style.invalid.paint label ++ "' cannot be used multiple times"
  | .valueRequired label =>
    "a value is required for '" ++ Style.invalid.paint label ++ "' but none was supplied"

/-- The report shown to the user, painted. -/
def report (cause : UsageError) : String :=
  Style.error.paint "error:" ++ " " ++ cause.message ++
    "\n\nFor more information, try '" ++ Style.literal.paint "--help" ++ "'."

end UsageError

/-- Why reading the command line stops before its end. -/
inductive Stop where
  | version
  /-- The help is asked for, as a summary or in full. -/
  | help (full : Bool)
  | refused (cause : UsageError)
  deriving DecidableEq, Repr

/-! ## 3. Values -/

/-- A decimal word with an optional plus sign. The first fault from the left is the one reported,
and at one character a bad digit goes before a number that is too large. -/
def parseCount (text : String) : Except String Nat :=
  match text.toList with
  | [] => .error "cannot parse integer from empty string"
  | ['+'] => .error "invalid digit found in string"
  | '+' :: digits => digits.foldlM push 0
  | digits => digits.foldlM push 0
where
  /-- One more digit. -/
  push (n : Nat) (c : Char) : Except String Nat :=
    if !c.isDigit then .error "invalid digit found in string"
    else
      let next := 10 * n + (c.toNat - '0'.toNat)
      if next < Word.limit then .ok next else .error "number too large to fit in target type"

/-- What was given so far. -/
structure Draft where
  client : Option String := none
  timestamp : Option String := none
  mode : Option Mode := none
  cursor : Option Position := none
  windowTop : Option Position := none
  windowSize : Option (Nat × Nat) := none
  filetype : Option String := none
  resolve : Option Bool := none
  colors : List String := []
  input : Option String := none
  format : Option Format := none
  margin : Option Nat := none
  deriving DecidableEq, Repr

namespace Draft

/-- The complete command line, if nothing is missing. -/
def complete? (d : Draft) : Option Arguments := do
  return {
    client := ← d.client
    timestamp := ← d.timestamp
    mode := ← d.mode
    cursor := ← d.cursor
    windowTop := ← d.windowTop
    windowSize := ← d.windowSize
    filetype := ← d.filetype
    resolve := ← d.resolve
    colors := d.colors
    input := d.input
    format := d.format.getD .command
    margin := d.margin }

/-- Checks a value, or says why it does not fit. -/
def check (label value : String) (result : Except Error α) : Except UsageError α :=
  match result with
  | .ok a => .ok a
  | .error e => .error (.invalidValue value label (some e.message))

/-- Takes the value of a slot. -/
def fillSlot (d : Draft) (slot : Slot) (value : String) : Except UsageError Draft :=
  match slot with
  | .client => .ok { d with client := some value }
  | .timestamp => .ok { d with timestamp := some value }
  | .mode => do return { d with mode := some (← check slot.label value (Mode.parse value)) }
  | .cursor => do
    return { d with cursor := some (← check slot.label value (Position.parse value)) }
  | .windowTop => do
    return { d with windowTop := some (← check slot.label value (Position.parse value)) }
  | .windowSize => do
    return { d with windowSize := some (← check slot.label value (parseSize value)) }
  | .filetype => .ok { d with filetype := some value }
  | .resolve => .ok { d with resolve := some (value.startsWith "Y" || value.startsWith "y") }

/-- Whether an option was given. -/
def has (d : Draft) : Flag → Bool
  | .input => d.input.isSome
  | .format => d.format.isSome
  | .margin => d.margin.isSome

/-- Takes the value of an option, which is given once at most. -/
def fillFlag (d : Draft) (flag : Flag) (value : String) : Except UsageError Draft :=
  if d.has flag then .error (.repeated flag.label)
  else match flag with
    | .input =>
      if value.isEmpty then .error (.valueRequired flag.label)
      else .ok { d with input := some value }
    | .format =>
      match value with
      | "kakoune" => .ok { d with format := some .command }
      | "json" => .ok { d with format := some .json }
      | "" => .error (.valueRequired flag.label)
      | _ => .error (.invalidValue value flag.label none)
    | .margin =>
      match parseCount value with
      | .ok n => .ok { d with margin := some n }
      | .error reason => .error (.invalidValue value flag.label (some reason))

end Draft

/-! ## 4. Reading from left to right -/

/-- An argument that was taken up and is not checked yet. -/
inductive Held where
  | nothing
  | slot (slot : Slot) (value : String)
  | colors (colors : List String)
  | flag (flag : Flag) (value : Option String)
  deriving DecidableEq, Repr

/-- The state between two arguments. -/
structure Progress where
  draft : Draft := {}
  held : Held := .nothing
  /-- The slots that have no value yet. -/
  vacant : List Slot := Slot.all
  /-- Only values follow, no options. -/
  valuesOnly : Bool := false
  deriving DecidableEq, Repr

namespace Progress

/-- Checks what is held. -/
def settle (p : Progress) : Except UsageError Progress :=
  match p.held with
  | .nothing => .ok p
  | .slot slot value => do
    return { p with draft := ← p.draft.fillSlot slot value, held := .nothing }
  | .colors colors => .ok { p with draft := { p.draft with colors }, held := .nothing }
  | .flag flag none => .error (.valueRequired flag.label)
  | .flag flag (some value) => do
    return { p with draft := ← p.draft.fillFlag flag value, held := .nothing }

/-- Takes a value for the next slot, or as a color when no slot is left. From the first color on,
only values follow. -/
def place (p : Progress) (value : String) : Except UsageError Progress := do
  match p.vacant, p.held with
  | slot :: rest, _ => return { ← p.settle with held := .slot slot value, vacant := rest }
  | [], .colors colors => return { p with held := .colors (colors ++ [value]) }
  | [], _ => return { ← p.settle with held := .colors [value], valuesOnly := true }

/-- Takes a value for the option that waits for one, or for the next slot. -/
def takeValue (p : Progress) (value : String) : Except UsageError Progress :=
  match p.held with
  | .flag flag none => .ok { p with held := .flag flag (some value) }
  | _ => p.place value

/-- Stops once what is held is found to be right. -/
def stop (p : Progress) (reason : Stop) : Except Stop Progress :=
  match p.settle with
  | .ok _ => .error reason
  | .error cause => .error (.refused cause)

/-- Turns a refusal into a reason to stop. -/
def orRefuse (result : Except UsageError Progress) : Except Stop Progress :=
  match result with
  | .ok p => .ok p
  | .error cause => .error (.refused cause)

/-- Takes an argument that starts with two dashes. With all slots filled, an unknown name is a
value. -/
def takeLong (p : Progress) (argument : String) : Except Stop Progress :=
  let body := argument.toList.drop 2
  let name := String.ofList (body.takeWhile (· ≠ '='))
  let value := match body.dropWhile (· ≠ '=') with
    | [] => none
    | _ :: rest => some (String.ofList rest)
  match Flag.ofName? name, value with
  | some flag, some value => orRefuse do
    let p ← p.settle
    return { p with draft := ← p.draft.fillFlag flag value }
  | some flag, none => orRefuse do return { ← p.settle with held := .flag flag none }
  | none, value =>
    match name, value with
    | "version", none => p.stop .version
    | "help", none => p.stop (.help true)
    | "version", some value => .error (.refused (.unexpectedValue value "--version"))
    | "help", some value => .error (.refused (.unexpectedValue value "--help"))
    | _, _ =>
      if p.vacant.isEmpty then orRefuse (p.takeValue argument)
      else .error (.refused (.unexpected ("--" ++ name)))

/-- Takes an argument that starts with one dash and has more to it. With all slots filled, it is a
value unless all its letters are known. -/
def takeShort (p : Progress) (argument : String) : Except Stop Progress :=
  let letters := argument.toList.drop 1
  if p.vacant.isEmpty && letters.any (fun c => c ≠ 'h' && c ≠ 'V') then
    orRefuse (p.takeValue argument)
  else match letters with
    | 'V' :: _ => p.stop .version
    | 'h' :: _ => p.stop (.help false)
    | c :: _ => .error (.refused (.unexpected (String.ofList ['-', c])))
    | [] => orRefuse (p.takeValue argument)

/-- The state after an argument. The mark `--` ends the options and is dropped. Once only values
follow, because of the mark or of a color, another mark is a value too. -/
def step (p : Progress) (argument : String) : Except Stop Progress :=
  if p.valuesOnly then orRefuse (p.place argument)
  -- An option that waits for a value does not get it from behind the mark.
  else if argument = "--" then .ok { p with valuesOnly := true }
  else if argument.startsWith "--" then p.takeLong argument
  else if argument.startsWith "-" then p.takeShort argument
  else orRefuse (p.takeValue argument)

/-- The complete command line once all arguments are taken. -/
def finish (p : Progress) : Except UsageError Arguments := do
  let p ← p.settle
  match p.draft.complete? with
  | some arguments => return arguments
  | none => throw (.missing p.vacant)

end Progress

/-- Reads a command line. -/
def parse (arguments : List String) : Except Stop Arguments := do
  let p ← arguments.foldlM Progress.step {}
  match p.finish with
  | .ok arguments => return arguments
  | .error cause => throw (.refused cause)

end Nesting.CommandLine
