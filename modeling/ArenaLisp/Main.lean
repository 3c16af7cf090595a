import ArenaLisp.Command.Program

/-!
# The command line program

Reads files and typed lines and writes what the program shows; what that is, is
decided elsewhere.
-/

namespace ArenaLisp

def writeOutput (shown : Output) : IO Unit := do
  (← IO.getStdout).putStr shown.out
  (← IO.getStdout).flush
  (← IO.getStderr).putStr shown.err
  (← IO.getStderr).flush

/-- The contents of a file, or why it cannot be read. -/
def readFile (name : String) : IO (String × Except FileError Bytes) := do
  try
    return (name, .ok (← IO.FS.readBinFile name).toList)
  catch
    | .permissionDenied .. => return (name, .error .denied)
    -- Code 20 is a step through something that is no directory.
    | .inappropriateType _ 20 _ => return (name, .error .notDirectory)
    | .inappropriateType .. => return (name, .error .directory)
    | _ => return (name, .error .missing)

/-- Takes lines until there are no more. -/
partial def typedLines (repl : Repl) : IO Unit := do
  let line ← (← IO.getStdin).getLine
  if !line.isEmpty then
    let (shown, repl) := repl.steps Interpreter.depth (Typed.ofBytes [] (Text.bytes line))
    writeOutput shown
    typedLines repl

/-- Runs the program; the answer is its exit code. -/
def runProgram (line : List String) : IO UInt32 := do
  match Command.parse line with
  | .ok (.repl logLevel) =>
    match Program.startSession logLevel with
    | .error message =>
      writeOutput (Program.failed ("Error: " ++ message)).output
      return 1
    | .ok repl =>
      typedLines repl
      writeOutput Program.farewell
      return 0
  | .ok (.run false _ _ arguments) =>
    let files ← arguments.mapM readFile
    let find name := (files.lookup name).getD (.error .missing)
    let report := Program.run Interpreter.depth line find []
    writeOutput report.output
    return report.exitCode.toUInt32
  | _ =>
    let report := Program.run Interpreter.depth line (fun _ => .error .missing) []
    writeOutput report.output
    return report.exitCode.toUInt32

end ArenaLisp

def main (line : List String) : IO UInt32 := ArenaLisp.runProgram line
