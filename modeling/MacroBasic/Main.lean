/-
The command line program: runs a script from a file, or reads lines from the terminal.
-/
import MacroBasic.Terminal.Shell
import Std.Time

namespace MacroBasic.Main

open MacroBasic.Terminal

/-- What is shown to a user who asks for help. -/
def usage : String :=
  "Usage: script [OPTIONS] [FILE]\n\n" ++
  "  --no-explicit        Allow assignment to undeclared variables\n" ++
  "  --no-external        Reject IMPORT declarations\n" ++
  "  --allow-ui           Let MSGBOX and INPUTBOX prompt on the terminal\n" ++
  "  --timeout MS         Time limit per run in milliseconds, 0 for none\n" ++
  "  --import NAME=VALUE  Share a variable with the script\n" ++
  "  --listing            Print the compiled instructions before running\n" ++
  "  -v, --verbose\n"

/-- Reads a line from standard input. -/
def readLine (prompt : String) : IO Reading := do
  let output ← IO.getStdout
  output.putStr prompt
  output.flush
  try
    let line ← (← IO.getStdin).getLine
    if line.isEmpty then return .endOfInput
    return .line (String.ofList (line.toList.reverse.dropWhile Text.isBreak).reverse)
  catch e => return .failure (toString e)

/-- The time of day. -/
def timeOfDay : IO String := do
  try
    let now ← Std.Time.PlainTime.now
    return now.format "HH:mm:ss.SSS"
  catch _ => return ""

/-- The terminal of the process. -/
def device : Device IO where
  out text := do
    let output ← IO.getStdout
    output.putStr text
    output.flush
  err text := IO.eprint text
  read _ prompt _ := readLine prompt
  remember _ := pure ()
  stamp := timeOfDay
  clock := IO.monoNanosNow

/-- More instructions, questions and lines than one process sees. -/
def fuel : Nat := 0x4000000000000000

/-- Runs what the arguments ask for and gives the exit code. -/
def run (a : Arguments) : IO UInt32 := do
  match a.file with
  | some path =>
    let fine ← Shell.runScript device fuel a (← IO.FS.readFile path)
    return if fine then 0 else 1
  | none =>
    match ← Shell.interact device fuel a with
    | .ok _ => return 0
    | .error message =>
      IO.eprintln message
      return 2

end MacroBasic.Main

open MacroBasic.Main in
/-- The entry point. -/
def main (args : List String) : IO UInt32 := do
  match MacroBasic.Terminal.Arguments.parse args with
  | .ok a =>
    try run a
    catch e =>
      IO.eprintln (toString e)
      return 2
  | .error .displayHelp =>
    IO.print usage
    return 0
  | .error .displayVersion =>
    IO.println "script 0.1.0"
    return 0
  | .error _ =>
    IO.eprint usage
    return 2
