/-
The host that talks to a terminal. Printed lines bear the time of day and can be hidden; dialogs ask on
their own line editor, where an interrupt cancels the run; the names of an interactive session are at
hand for names that no scope binds.
-/
import MacroBasic.Session
import MacroBasic.Terminal.Device
import MacroBasic.Terminal.Style

namespace MacroBasic.Terminal

/-- The state of a console. -/
structure Console where
  /-- Whether printed lines are shown. -/
  visible : Bool := true
  /-- Whether the user is asked to grant more time. -/
  asksForTime : Bool
  /-- The names of an interactive session, if this is one. -/
  session : Option Session := none

namespace Console

variable {m : Type → Type} [Monad m]

/-- Prints a line. -/
def printLine (d : Device m) (text : String) : StateT Console m Unit := d.out (text ++ "\n")

/-! ## Dialogs -/

/-- What the user answers in a dialog, if anything, and whether the run is to be cancelled. -/
def ask (d : Device m) (prompt buffer : String) : m (Option String × Bool) := do
  match ← d.read .dialog prompt buffer with
  | .line text => return (some text, false)
  | .interrupt => return (none, true)
  | _ => return (none, false)

/-- The buttons of a message box with their numbers, as the last four bits of a number choose them. -/
def choices (buttons : Int32) : List (String × Int32) :=
  if buttons &&& 0xf = 1 then [("ok", 1), ("cancel", 2)]
  else if buttons &&& 0xf = 3 then [("yes", 6), ("no", 7), ("cancel", 2)]
  else if buttons &&& 0xf = 4 then [("yes", 6), ("no", 7)]
  else [("ok", 1)]

/-- The number of the cancel button, which also stands for no answer. -/
def cancelButton : Int32 := 2

/-- The number of the yes button. -/
def yesButton : Int32 := 6

/-- The button that an answer names: the first one for an empty answer, else the first one whose name
begins with the answer. -/
def pressed (choices : List (String × Int32)) (answer : String) : Option Int32 :=
  let answer := Text.toSmall (Text.trim answer)
  if answer.isEmpty then choices.head?.map Prod.snd
  else (choices.find? fun c => answer.toList.isPrefixOf c.1.toList).map Prod.snd

/-- Asks until a button is named or no answer comes, at most `fuel` times. -/
def askButton (d : Device m) (choices : List (String × Int32)) : Nat → m (Int32 × Bool)
  | 0 => return (cancelButton, false)
  | fuel + 1 => do
    match ← ask d ("[" ++ "/".intercalate (choices.map Prod.fst) ++ "] ") "" with
    | (none, cancel) => return (cancelButton, cancel)
    | (some answer, _) =>
      match pressed choices answer with
      | some button => return (button, false)
      | none => askButton d choices fuel

/-- Prints the title of a dialog, if it has one. -/
def printTitle (d : Device m) (title : String) : StateT Console m Unit :=
  if title.isEmpty then pure () else printLine d (Style.bold.paint title)

/-- Opens a message box. -/
def openMsgBox (d : Device m) (fuel : Nat) (prompt : String) (buttons : Int32) (title : String) :
    StateT Console m (Int32 × Bool) := do
  printTitle d title
  printLine d prompt
  StateT.lift (askButton d (choices buttons) fuel)

/-! ## Requests -/

/-- The style of a message of the given kind. -/
def messageStyle (kind : Int32) : Style :=
  if kind = 1 then .yellow else if kind = 2 then .boldRed else .normal

/-- Answers a request. -/
def answer (d : Device m) (fuel : Nat) : (r : Request) → StateT Console m (Answer r)
  | .print text => do
    if (← get).visible then
      printLine d (Style.dimmed.paint (← d.stamp) ++ " " ++ text)
    return ⟨(), false⟩
  | .notify .clear => do
    if (← get).visible then d.out clearScreen
    return ⟨(), false⟩
  | .notify .reveal => do
    modify fun c => { c with visible := true }
    return ⟨(), false⟩
  | .notify .hide => do
    modify fun c => { c with visible := false }
    return ⟨(), false⟩
  | .notify .yield => return ⟨(), false⟩
  | .message kind text => do
    printLine d ((messageStyle kind).paint text)
    return ⟨(), false⟩
  | .msgBox prompt buttons title => do
    let (button, cancel) ← openMsgBox d fuel prompt buttons title
    return ⟨button, cancel⟩
  | .inputBox prompt title initial => do
    printTitle d title
    let (text, cancel) ← StateT.lift (ask d (prompt ++ " ") initial)
    return ⟨text.getD "", cancel⟩
  | .assign name v => do
    match (← get).session with
    | some session =>
      modify fun c => { c with session := some (session.assign name v) }
      return ⟨true, false⟩
    | none => return ⟨false, false⟩
  | .retrieve name => return ⟨(← get).session.bind (·.get? name), false⟩
  | .timeout => do
    if (← get).asksForTime then
      let (button, cancel) ← openMsgBox d fuel "Script is still running. Continue?" 4 "Timeout"
      return ⟨button == yesButton, cancel⟩
    else return ⟨false, false⟩

/-- The console as a host. -/
def host (d : Device m) (fuel : Nat) : Host (StateT Console m) where
  ask := answer d fuel
  clock := d.clock

end Console

end MacroBasic.Terminal
