/-
Bindings given on the command line as `NAME=VALUE`.
-/
import MacroBasic.Decimal.Numeral
import MacroBasic.Value

namespace MacroBasic.Terminal

/-- What can be wrong with a binding on the command line. -/
inductive SharingError where
  | noEquals (text : String)
  | noName
deriving DecidableEq, Repr

/-- The report of a wrong binding. -/
def SharingError.message : SharingError → String
  | .noEquals text => s!"expected NAME=VALUE, found '{text}'"
  | .noName => "import name is empty"

/-- The value that a text stands for: a number or a boolean if it spells one, otherwise itself. -/
def sharedValue (s : String) : Value :=
  match Decimal.parseNumber s with
  | some x => .number x
  | none =>
    match Text.toSmallLatin s with
    | "true" => .boolean true
    | "false" => .boolean false
    | _ => .text s

/-- Reads a binding. The name ends at the first equals sign. -/
def parseSharing (s : String) : Except SharingError (String × Value) :=
  let cs := s.toList
  match cs.dropWhile (· != '=') with
  | [] => .error (.noEquals s)
  | _ :: value =>
    let name := Text.trim (String.ofList (cs.takeWhile (· != '=')))
    if name.isEmpty then .error .noName else .ok (name, sharedValue (String.ofList value))

end MacroBasic.Terminal
