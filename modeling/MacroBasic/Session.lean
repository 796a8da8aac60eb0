/-
Interactive sessions: the names that outlive a line. Before a line is compiled every known name is
shared with it, so that later lines see it without declaring it; after the line has run their values
are collected again. New names come from assignments that the machine offers to its host.
-/
import MacroBasic.Program

namespace MacroBasic

/-- The names of a session with their values, in the order in which they became known. -/
structure Session where
  values : List (String × Value) := []

namespace Session

/-- Entries with one more; an earlier entry of the same name gives up its place to it. -/
def put (name : String) (v : Value) : List (String × Value) → List (String × Value)
  | [] => [(name, v)]
  | first :: rest => if first.1 = name then (name, v) :: rest else first :: put name v rest

/-- Gives a name a value. -/
def assign (name : String) (v : Value) (s : Session) : Session := ⟨put name v s.values⟩

/-- The value of a name. -/
def get? (name : String) (s : Session) : Option Value := s.values.lookup name

/-- Shares all names with a program. -/
def share (s : Session) (p : Program) : Program := p.importAll s.values

/-- Takes over the values that the known names have in a program. -/
def collect (p : Program) (s : Session) : Session :=
  ⟨s.values.map fun (name, v) => (name, (p.importGet? name).getD v)⟩

/-- Compiles and runs one line for a host that does not take part in the session. There is no result
if the fuel does not last. -/
def runLine {m : Type → Type} [Monad m] (host : Host m) (fuel : Nat) (source : String) (s : Session) :
    m (Option (Except Fault Unit × Session)) := do
  match (s.share (.new {})).compile source with
  | (.error f, p) => return some (.error f, s.collect p)
  | (.ok _, p) =>
    let outcome ← p.run host fuel
    return outcome.map fun (result, p) => (result, s.collect p)

end Session

end MacroBasic
