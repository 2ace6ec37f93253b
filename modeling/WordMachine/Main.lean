import WordMachine.CommandLine

namespace WordMachine.CommandLine

/-- The text of a file, or why there is none. -/
def readSource (path : String) : IO (Except Unreadable String) := do
  try
    let bytes ← IO.FS.readBinFile path
    match String.fromUTF8? bytes with
    | some text => return .ok text
    | none => return .error .notText
  catch e =>
    match e with
    | .noFileOrDirectory .. => return .error .missing
    | .inappropriateType .. => return .error .directory
    | e => return .error (.other (toString e))

end WordMachine.CommandLine

open WordMachine.CommandLine in
/-- Runs the source file that the first argument names, or the demonstration. -/
def main (args : List String) : IO UInt32 := do
  let input ←
    match args with
    | [] => pure Input.demonstration
    | path :: _ => Input.file path <$> readSource path
  let (text, exitCode) := run input (args.drop 1)
  IO.print text
  return exitCode
