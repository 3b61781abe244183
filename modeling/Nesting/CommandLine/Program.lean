import Nesting.CommandLine.Help
import Nesting.Paint.Command
import Nesting.Paint.Json
import Nesting.Scan
import Nesting.Settings

/-!
# The program

What a run of the program prints and how it ends, as a function of its arguments, the settings
file and the text.
-/

namespace Nesting.CommandLine

/-- The name and version of the program. -/
def versionLine : String := "rainbow 0.4.2\n"

/-- How a run ends. -/
structure Result where
  exit : Nat
  output : String
  /-- What is written to the error stream, each part with a line end after it. -/
  diagnostics : List String
  deriving DecidableEq, Repr

/-- What a run prints for a text. -/
def answer (a : Arguments) (settings : Settings) (text : List UInt8) : Except Error String := do
  let window ← Window.ofView a.windowTop a.windowSize.1 a.windowSize.2
    (a.margin.getD settings.margin)
  let request : Request := {
    mode := a.mode
    cursor := a.cursor
    window
    palette := (Palette.ofArguments a.colors).orElse settings.palette
    cursorColor := settings.cursorColor }
  let ranges := request.ranges (scan (Grammar.resolve settings.aliases a.filetype) a.resolve text)
  return match a.format with
    | .command => command a.client a.timestamp ranges ++ "\n"
    | .json => Json.ranges ranges ++ "\n"

/-- The exit code of a failed run. -/
def exitCode : Error → Nat
  | .overflow => 101
  | _ => 1

/-- How a run ends that gets as far as reading the settings and the text. -/
def report (a : Arguments) (settings : FileContent) (text : Except Error (List UInt8)) : Result :=
  let (settings, fault) := Settings.load settings
  let warnings := fault.toList.map fun fault => "rainbow: " ++ fault.message
  match text >>= answer a settings with
  | .ok output => ⟨0, output, warnings⟩
  | .error e => ⟨exitCode e, "", warnings ++ [e.message]⟩

/-- How a run ends that stops at its arguments. A report is painted only for a terminal. -/
def reportStop (terminal : Bool) : Stop → Result
  | .version => ⟨0, versionLine, []⟩
  | .help full => ⟨0, Help.text full, []⟩
  | .refused cause => ⟨2, "", [if terminal then cause.report else Terminal.plain cause.report]⟩

/-- A run in a world given by the settings file, the standard input and the files by path, with
an error stream that is no terminal. -/
def run (arguments : List String) (settings : FileContent) (standardInput : List UInt8)
    (file : String → FileContent) : Result :=
  match parse arguments with
  | .error reason => reportStop false reason
  | .ok a =>
    report a settings <| match a.input with
      | some path => (file path).read
      | none => .ok standardInput

end Nesting.CommandLine
