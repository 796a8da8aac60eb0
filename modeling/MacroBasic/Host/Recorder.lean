/-
A host that follows a script of its own and records everything it is asked. It makes runs repeatable:
its answers are fixed beforehand, and its clock moves by the same amount with every reading.
-/
import MacroBasic.Host

namespace MacroBasic

/-- The state of a recording host. -/
structure Recorder where
  /-- The names it knows; of several entries with one name the last counts. -/
  known : List (String × Value) := []
  /-- Whether it takes over assignments. -/
  takesAssignments : Bool := false
  /-- The buttons it will press, and no button after that. -/
  buttons : List Int32 := []
  /-- The texts it will enter, and the given text after that. -/
  texts : List String := []
  /-- How often it will grant more time. -/
  extensions : Nat := 0
  /-- After how many requests it cancels the run. -/
  cancelAfter : Option Nat := none
  /-- The requests so far, the last one first. -/
  requests : List Request := []
  /-- The number of requests so far. -/
  count : Nat := 0
  /-- The time in nanoseconds. -/
  time : Nat := 0

namespace Recorder

/-- The nanoseconds between two readings of the clock. -/
def pace : Nat := 10

/-- Records a request. -/
def record (r : Request) (s : Recorder) : Recorder :=
  { s with requests := r :: s.requests, count := s.count + 1 }

/-- The recorded requests in order. -/
def log (s : Recorder) : List Request := s.requests.reverse

/-- The reply to a request, and the state after it. -/
def reply : (r : Request) → Recorder → r.Reply × Recorder
  | .msgBox _ _ _, s =>
    match s.buttons with
    | [] => ((0 : Int32), s)
    | button :: rest => (button, { s with buttons := rest })
  | .inputBox _ _ initial, s =>
    match s.texts with
    | [] => (initial, s)
    | text :: rest => (text, { s with texts := rest })
  | .assign name v, s =>
    if s.takesAssignments then (true, { s with known := s.known ++ [(name, v)] })
    else (false, s)
  | .retrieve name, s => (s.known.reverse.lookup name, s)
  | .timeout, s =>
    match s.extensions with
    | 0 => (false, s)
    | n + 1 => (true, { s with extensions := n })
  | r, s => (r.indifferent, s)

/-- The recording host. -/
def host : Host (StateM Recorder) where
  ask r := do
    modify (record r)
    let reply ← modifyGet (reply r)
    let s ← get
    return ⟨reply, s.cancelAfter.any (· ≤ s.count)⟩
  clock := modifyGet fun s => (s.time, { s with time := s.time + pace })

end Recorder

/-- A clock that moves by the same amount with every reading. -/
def steadyClock : StateM Nat Nat := modifyGet fun t => (t, t + Recorder.pace)

end MacroBasic
