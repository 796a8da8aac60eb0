/-
Runs of a list of instructions. After each instruction the run looks whether it is cancelled, and then
whether its time is over; the host may grant more time. A fault bears the place of the instruction that
raised it. Only answers of the host can ask for cancelling, so between two answers the flag that the run
looks at stays as it is.
-/
import MacroBasic.Machine.Step
import MacroBasic.Options

namespace MacroBasic

/-- The state of a run. -/
structure Machine where
  scopes : Scopes
  /-- The address of the next instruction. -/
  pc : Address := 0
  /-- When the time of the run began to count. -/
  started : Nat := 0
  /-- Whether the host has asked for the run to be cancelled. -/
  cancelled : Bool := false

namespace Machine

variable {m : Type → Type} [Monad m]

/-- What a part of a run ends with: nothing special or a fault, and the state it leaves. -/
abbrev Outcome := EStateM.Result Fault Machine Unit

/-- The state after an operation on the scopes that gives the address to go on at. -/
def settle (M : Machine) : EStateM.Result Fault Scopes Address → Outcome
  | .ok a s => .ok () { M with pc := a, scopes := s }
  | .error f s => .error f { M with scopes := s }

/-- The state after the host has answered. -/
def heed (M : Machine) {r : Request} (answer : Answer r) : Machine :=
  { M with cancelled := M.cancelled || answer.cancel }

/-- Executes one instruction. -/
def execute (host : Host m) (ui : Bool) (i : Instruction) (M : Machine) : m Outcome :=
  match step ui M.pc i M.scopes with
  | .error f s => pure (.error f { M with scopes := s })
  | .ok (.goto a) s => pure (.ok () { M with pc := a, scopes := s })
  | .ok (.ask r resume) s => do
    let answer ← host.ask r
    return (M.heed answer).settle (resume answer.reply s)

/-- Ends the run when its time is over, unless the host grants it the same time again. -/
def checkTime (host : Host m) (timeout : Option Nat) (p : Position) (M : Machine) : m Outcome :=
  match timeout with
  | none => pure (.ok () M)
  | some ms => do
    let now ← host.clock
    if now - M.started < ms * 1000000 then return .ok () M
    let answer ← host.ask .timeout
    let M := M.heed answer
    let granted : Bool := answer.reply
    if granted then
      let now ← host.clock
      return .ok () { M with started := now }
    return .error ((Fault.because .timedOut s!"Timeout after {ms} ms").place p) M

/-- Executes one instruction and looks whether the run may go on after it. -/
def turn (host : Host m) (options : Options) (line : Line) (M : Machine) : m Outcome := do
  match ← execute host options.ui line.instruction M with
  | .error f M => return .error (f.orPlace line.position) M
  | .ok _ M =>
    if M.cancelled then
      return .error ((Fault.because .cancelled "Code execution aborted").place line.position) M
    checkTime host options.timeout line.position M

/-- Executes at most `fuel` instructions. There is no outcome if that does not end the run. -/
def run (host : Host m) (options : Options) (lines : Array Line) : Nat → Machine → m (Option Outcome)
  | 0, _ => return none
  | fuel + 1, M =>
    match lines[M.pc]? with
    | none => return some (.ok () M)
    | some line => do
      match ← turn host options line M with
      | .ok _ M => run host options lines fuel M
      | .error f M => return some (.error f M)

end Machine

end MacroBasic
