import Nesting.CommandLine.Program

/-!
# Command line

Reads the arguments, the settings file and the text, and prints what the program answers.
-/

namespace Nesting.CommandLine

/-- What a path leads to. -/
def fileContent (path : String) : IO FileContent := do
  try
    return .bytes (← IO.FS.readBinFile path).toList
  catch
    | .noFileOrDirectory .. => return .missing
    | .inappropriateType .. => return .directory
    | .permissionDenied .. => return .unreadable "Permission denied (os error 13)"
    | e => return .unreadable (toString e)

/-- All bytes of a stream after those already read. -/
partial def readAll (stream : IO.FS.Stream) (seen : ByteArray) : IO ByteArray := do
  let chunk ← stream.read 65536
  if chunk.isEmpty then return seen else readAll stream (seen ++ chunk)

/-- Runs the program in the world outside. -/
def execute (arguments : List String) : IO Result := do
  match parse arguments with
  | .error reason => return reportStop (← (← IO.getStderr).isTty) reason
  | .ok a =>
    let home := (← IO.getEnv "HOME").getD "."
    let settings ← fileContent (home ++ "/.config/rainbow/config.toml")
    let text ← match a.input with
      | some path => fileContent path
      | none => pure (.bytes (← readAll (← IO.getStdin) .empty).toList)
    return report a settings text.read

end Nesting.CommandLine

def main (arguments : List String) : IO UInt32 := do
  let result ← Nesting.CommandLine.execute arguments
  IO.print result.output
  for part in result.diagnostics do
    IO.eprintln part
  return UInt32.ofNat result.exit
