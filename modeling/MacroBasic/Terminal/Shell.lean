/-
The two ways of using the language from a terminal: running a script from a file, and entering lines
one by one in a session that keeps its names.
-/
import MacroBasic.Terminal.Arguments
import MacroBasic.Terminal.Console

namespace MacroBasic.Terminal

namespace Shell

variable {m : Type → Type} [Monad m]

/-- Reports a fault. -/
def report (d : Device m) (f : Fault) : StateT Console m Unit :=
  d.err (Style.bold.paint f.render ++ "\n")

/-- Compiles and runs a text. Gives whether all went well, and the program after it. An interrupt from the keyboard
cancels the run while a dialog is open; one that comes while instructions are being executed is not considered. -/
def execute (d : Device m) (fuel : Nat) (listing : Bool) (source : String) (p : Program) :
    StateT Console m (Bool × Program) := do
  match p.compile source with
  | (.error f, p) =>
    report d f
    return (false, p)
  | (.ok _, p) =>
    if listing then d.out p.listing
    match ← p.run (Console.host d fuel) fuel with
    | none => return (false, p)
    | some (.ok _, p) => return (true, p)
    | some (.error f, p) =>
      report d f
      return (false, p)

/-- Runs a script and prints the shared bindings after it. Gives whether all went well. -/
def runScript (d : Device m) (fuel : Nat) (a : Arguments) (source : String) : m Bool := do
  let p := (Program.new a.options).importAll a.imports
  let ((fine, p), _) ← (execute d fuel (a.has .listing) source p).run { asksForTime := a.has .allowUi }
  for b in p.external.names do
    d.out (b.name ++ " = " ++ b.value.display ++ "\n")
  return fine

/-- Runs one line of a session. -/
def runLine (d : Device m) (fuel : Nat) (a : Arguments) (source : String) : StateT Console m Unit := do
  let p := Program.new a.options
  let p := match (← get).session with
    | some session => session.share p
    | none => p
  let (_, p) ← execute d fuel (a.has .listing) source p
  modify fun c => { c with session := c.session.map (·.collect p) }

/-- Reads and runs lines until the input ends, at most `fuel` of them. A line of white space is passed
over. A failure to read is reported. -/
def readLines (d : Device m) (fuel : Nat) (a : Arguments) : Nat → StateT Console m (Except String Unit)
  | 0 => return .ok ()
  | n + 1 => do
    match ← d.read .script "> " "" with
    | .line line =>
      if !(Text.trim line).isEmpty then
        d.remember line
        runLine d fuel a line
      readLines d fuel a n
    | .failure message => return .error message
    | _ => return .ok ()

/-- Runs an interactive session. -/
def interact (d : Device m) (fuel : Nat) (a : Arguments) : m (Except String Unit) := do
  let session := a.imports.foldl (fun (s : Session) (name, v) => s.assign name v) {}
  let (result, _) ← (readLines d fuel a fuel).run
    { asksForTime := a.has .allowUi, session := some session }
  return result

end Shell

end MacroBasic.Terminal
