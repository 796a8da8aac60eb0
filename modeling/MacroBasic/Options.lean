/-
The settings under which a script is compiled and run.
-/

namespace MacroBasic

/-- Settings of a program. -/
structure Options where
  /-- Every name must be declared before it is used. -/
  explicit : Bool := true
  /-- Names may be shared with the surroundings of the script. -/
  external : Bool := true
  /-- Dialogs that wait for the user may reach the host. -/
  ui : Bool := false
  /-- The time limit of one run in milliseconds, if it has one. -/
  timeout : Option Nat := some 60000
deriving DecidableEq, Repr

namespace Options

/-- The digits behind the point of a number of seconds, given in thousandths. -/
def thousandths (n : Nat) : String :=
  let digits := (Nat.toDigits 10 (1000 + n)).drop 1
  String.ofList (digits.reverse.dropWhile (· == '0')).reverse

/-- A number of milliseconds with the unit that suits its size. -/
def renderTime (ms : Nat) : String :=
  if ms = 0 then "0ns"
  else if ms < 1000 then s!"{ms}ms"
  else if ms % 1000 = 0 then s!"{ms / 1000}s"
  else s!"{ms / 1000}." ++ thousandths (ms % 1000) ++ "s"

/-- Settings as a listing shows them. -/
def inspect (o : Options) : String :=
  let timeout := match o.timeout with
    | some ms => "Some(" ++ renderTime ms ++ ")"
    | none => "None"
  s!"Options \x7b option_explicit: {o.explicit}, allow_external: {o.external}, allow_ui: {o.ui}, timeout: " ++
    timeout ++ " \x7d"

end Options

end MacroBasic
