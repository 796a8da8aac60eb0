/-
The terminal as the front end uses it: two streams to print to, two line editors to read from, a
history of entered lines and a watch. A scripted terminal stands in for a real one: what is entered is
fixed beforehand and what happens is logged.
-/

namespace MacroBasic.Terminal

/-- The line editors. -/
inductive Editor where
  /-- Reads the lines of a script. -/
  | script
  /-- Reads the answers to dialogs. -/
  | dialog
deriving DecidableEq, Repr

/-- The name of a line editor. -/
def Editor.name : Editor → String
  | .script => "script"
  | .dialog => "dialog"

/-- What reading a line ends with. -/
inductive Reading where
  | line (text : String)
  | interrupt
  | quit
  | endOfInput
  | failure (message : String)

/-- A terminal whose doings are actions of `m`. -/
structure Device (m : Type → Type) where
  /-- Prints to standard output. -/
  out : String → m Unit
  /-- Prints to standard error. -/
  err : String → m Unit
  /-- Reads a line, given the prompt and the text that stands in the editor at first. -/
  read : (editor : Editor) → (prompt buffer : String) → m Reading
  /-- Hands a line to the history. -/
  remember : String → m Unit
  /-- The time of day as printed lines show it. -/
  stamp : m String
  /-- The time in nanoseconds since some moment. -/
  clock : m Nat

/-! ## Scripted terminals -/

/-- What is entered at one reading of a scripted terminal. -/
inductive Entry where
  | line (text : String)
  /-- The text that stands in the editor is entered as it is. -/
  | buffer
  | interrupt
  | quit
  | endOfInput
  | failure

/-- What happens at a scripted terminal. -/
inductive Event where
  | out (text : String)
  | err (text : String)
  | read (editor : Editor) (prompt buffer : String)
  | remember (line : String)

/-- The state of a scripted terminal. -/
structure Scripted where
  /-- The entries still to be made at the editor of script lines. -/
  lines : List Entry := []
  /-- The entries still to be made at the editor of dialogs. -/
  answers : List Entry := []
  /-- What has happened, the last event first. -/
  events : List Event := []
  /-- The time in nanoseconds. -/
  time : Nat := 0

namespace Scripted

/-- The nanoseconds between two readings of the clock. -/
def pace : Nat := 10

/-- Logs an event. -/
def record (e : Event) (s : Scripted) : Scripted := { s with events := e :: s.events }

/-- What has happened, in order. -/
def log (s : Scripted) : List Event := s.events.reverse

/-- The reading that an entry makes of an editor with the given text in it. -/
def Entry.reading (buffer : String) : Option Entry → Reading
  | some (.line text) => .line text
  | some .buffer => .line buffer
  | some .interrupt => .interrupt
  | some .quit => .quit
  | some .endOfInput => .endOfInput
  | some .failure => .failure "terminal failure"
  | none => .endOfInput

/-- Takes the next entry of an editor. When there is none left the input has ended. -/
def take (editor : Editor) (buffer : String) (s : Scripted) : Reading × Scripted :=
  match editor with
  | .script => (Entry.reading buffer s.lines.head?, { s with lines := s.lines.tail })
  | .dialog => (Entry.reading buffer s.answers.head?, { s with answers := s.answers.tail })

/-- The scripted terminal. Its watch shows no time. -/
def device : Device (StateM Scripted) where
  out text := modify (record (.out text))
  err text := modify (record (.err text))
  read editor prompt buffer := do
    modify (record (.read editor prompt buffer))
    modifyGet (take editor buffer)
  remember line := modify (record (.remember line))
  stamp := pure "<TIME>"
  clock := modifyGet fun s => (s.time, { s with time := s.time + pace })

end Scripted

end MacroBasic.Terminal
