/-
Programs: compiled instructions together with the bindings they share with the embedding program, the
settings, and what has become of the last compilation or run. A program runs once; a copy of it can
run again and keeps the names of the shared bindings but not their values.
-/
import MacroBasic.Grammar.Statement
import MacroBasic.Machine.Run

namespace MacroBasic

/-- What has become of a program. -/
inductive State where
  | idle
  | running
  | completed
  | faulted
  | cancelled
  | timedOut
deriving DecidableEq, Repr

/-- The name of a state. -/
def State.name : State → String
  | .idle => "Idle"
  | .running => "Running"
  | .completed => "Completed"
  | .faulted => "Faulted"
  | .cancelled => "Cancelled"
  | .timedOut => "TimedOut"

/-- The state that a fault ends a run in. -/
def State.ofFault (f : Fault) : State :=
  match f.code with
  | .cancelled => .cancelled
  | .timedOut => .timedOut
  | _ => .faulted

/-- A program. -/
structure Program where
  lines : Array Line := #[]
  /-- The bindings shared with the embedding program. -/
  external : Scope := .empty
  options : Options := {}
  /-- Whether cancelling has been asked for. -/
  cancelled : Bool := false
  state : State := .idle
  /-- The most recent fault of compiling or running. -/
  error : Option Fault := none

namespace Program

/-- The program without instructions. -/
def new (options : Options) : Program where
  options := options

/-- A copy that can run again. -/
def copy (p : Program) : Program where
  lines := p.lines
  external := p.external.unbound
  options := p.options
  error := if p.state = .idle then p.error else none

/-! ## Compiling -/

/-- The lines of a source text, given the rules and the names it can see from outside. -/
def compileLines (options : Options) (external : Scope) (source : String) : Except Fault (Array Line) := do
  let body ← Grammar.script (.ofString source) options.explicit options.external external
  return (body.lines 0).toArray

/-- Replaces the instructions by those of a source text. -/
def compile (source : String) (p : Program) : Except Fault Unit × Program :=
  match compileLines p.options p.external source with
  | .ok lines => (.ok (), { p with lines := lines, state := .idle, error := none })
  | .error f => (.error f, { p with lines := #[], state := .idle, error := some f })

/-! ## Running -/

/-- The program after a run. -/
def finish (p : Program) : Machine.Outcome → Except Fault Unit × Program
  | .ok _ M =>
    (.ok (), { p with external := M.scopes.bottom, cancelled := M.cancelled, state := .completed })
  | .error f M =>
    (.error f, { p with external := M.scopes.bottom, cancelled := M.cancelled
                        state := .ofFault f, error := some f })

/-- Runs the program once, for at most `fuel` instructions. A program that has run before does not run,
nor does one that failed to compile. -/
def run {m : Type → Type} [Monad m] (host : Host m) (fuel : Nat) (p : Program) :
    m (Option (Except Fault Unit × Program)) := do
  if p.state ≠ .idle then
    return some (.error (.because .internal "PROGRAM ALREADY RAN; CLONE IT TO RUN AGAIN"), p)
  match p.error with
  | some f => return some (.error f, p)
  | none =>
    let started ← host.clock
    let outcome ← Machine.run host p.options p.lines fuel
      { scopes := .onBottom p.external, started := started }
    return outcome.map p.finish

/-- Asks for the program to be cancelled. -/
def cancel (p : Program) : Program := { p with cancelled := true }

/-! ## Instructions -/

/-- The number of instructions. -/
def size (p : Program) : Nat := p.lines.size

/-- Adds an instruction at the end and gives its address. -/
def add (i : Instruction) (place : Position) (p : Program) : Address × Program :=
  (p.size, { p with lines := p.lines.push ⟨i, place⟩ })

/-- Changes the target of the instruction at an address. -/
def retarget (index target : Address) (p : Program) : Except Fault Unit × Program :=
  match p.lines[index]? with
  | some line =>
    match line.instruction.retarget? target with
    | some i => (.ok (), { p with lines := p.lines.setIfInBounds index { line with instruction := i } })
    | none => (.error (unfit index), p)
  | none => (.error (unfit index), p)
where
  /-- The fault of retargeting what has no target. -/
  unfit (index : Address) : Fault := .because .internal s!"CANNOT FIX UP INSTRUCTION {index}"

/-- The place in the source of the instruction at an address. -/
def position? (a : Address) (p : Program) : Option Position := p.lines[a]?.map Line.position

/-- A number in a column of five. -/
def column (n : Nat) : String :=
  let digits := toString n
  String.ofList (List.replicate (5 - digits.length) ' ') ++ digits

/-- All instructions with their addresses. -/
def listing (p : Program) : String :=
  String.join (p.lines.toList.zipIdx.map fun (line, a) =>
    column a ++ ": " ++ line.instruction.render ++ "\n")

/-! ## Shared bindings -/

/-- Shares a binding. -/
def importAdd (name : String) (v : Value) (kind : Kind) (p : Program) : Program :=
  { p with external := p.external.allocate { name := name, kind := kind, value := v } }

/-- Gives a shared binding a value; one that is missing becomes a variable. -/
def importSet (name : String) (v : Value) (p : Program) : Program :=
  match p.external.assign? name v with
  | some external => { p with external := external }
  | none => p.importAdd name v .variable

/-- Gives several shared bindings their values. -/
def importAll (bindings : List (String × Value)) (p : Program) : Program :=
  bindings.foldl (fun p (name, v) => p.importSet name v) p

/-- Shares nothing any more. -/
def importClear (p : Program) : Program := { p with external := p.external.clear }

/-- The value of a shared binding. -/
def importGet? (name : String) (p : Program) : Option Value := (p.external.get? name).map Binding.value

/-- A program as a record of it shows it. -/
def inspect (p : Program) : String :=
  let instructions := p.lines.toList.map fun line => line.instruction.render
  "Code \x7b ops: [" ++ ", ".intercalate instructions ++ "], external: " ++ p.external.inspect ++
    ", options: " ++ p.options.inspect ++ ", state: " ++ p.state.name ++ " \x7d"

end Program

end MacroBasic
