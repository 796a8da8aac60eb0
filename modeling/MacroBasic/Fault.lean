/-
Faults: what reading, scanning, parsing or running a script can end with. A fault has a code, and
may have the place and the token it is about and a message of its own. The first fault raised ends
the phase that raised it.
-/
import MacroBasic.Position
import MacroBasic.Text.Escape

namespace MacroBasic

/-! ## Codes -/

/-- The phases of a script's life that can fail. -/
inductive Phase where
  | input
  | lex
  | parse
  | run
deriving DecidableEq, Repr

/-- The short name of a phase. -/
def Phase.name : Phase → String
  | .input => "input"
  | .lex => "lex"
  | .parse => "parse"
  | .run => "run"

/-- The kinds of fault. -/
inductive FaultCode where
  | backPastStart
  | invalidCharacter
  | backTwice
  | unknownSymbol
  | endOfSource
  | endOfLine
  | missingClosingParenthesis
  | unexpectedSymbol
  | missingOpeningParenthesis
  | missingComma
  | notYetImplemented
  | violation
  | alreadyExists
  | wrongNumberOfParameters
  | subInExpression
  | unknownIdentifier
  | assignmentToConstant
  | math
  | timedOut
  | cancelled
  | noUiAllowed
  | uninitialized
  | unknownVariable
  | internal
  | stackOverflow
deriving DecidableEq, Repr

namespace FaultCode

/-- The number a host sees. -/
def number : FaultCode → Nat
  | .backPastStart => 1
  | .invalidCharacter => 2
  | .backTwice => 3
  | .unknownSymbol => 21
  | .endOfSource => 22
  | .endOfLine => 23
  | .missingClosingParenthesis => 31
  | .unexpectedSymbol => 32
  | .missingOpeningParenthesis => 33
  | .missingComma => 34
  | .notYetImplemented => 35
  | .violation => 36
  | .alreadyExists => 37
  | .wrongNumberOfParameters => 38
  | .subInExpression => 39
  | .unknownIdentifier => 40
  | .assignmentToConstant => 41
  | .math => 61
  | .timedOut => 62
  | .cancelled => 63
  | .noUiAllowed => 64
  | .uninitialized => 65
  | .unknownVariable => 66
  | .internal => 67
  | .stackOverflow => 68

/-- The phase a code belongs to, which its number decides: codes up to 20 come from the input, up to
30 from scanning, up to 60 from parsing, the others from a run. -/
def phase (c : FaultCode) : Phase :=
  if c.number ≤ 20 then .input
  else if c.number ≤ 30 then .lex
  else if c.number ≤ 60 then .parse
  else .run

/-- The headline of a code. -/
def title : FaultCode → String
  | .backPastStart => "GO BACK PAST START OF SOURCE"
  | .invalidCharacter => "INVALID CHARACTER"
  | .backTwice => "GO BACK NOT IMPLEMENTED"
  | .unknownSymbol => "UNKNOWN SYMBOL"
  | .endOfSource => "UNEXPECTED END OF SOURCE"
  | .endOfLine => "UNEXPECTED END OF LINE"
  | .missingClosingParenthesis => "MISSING CLOSING PARENTHESIS"
  | .unexpectedSymbol => "UNEXPECTED SYMBOL"
  | .missingOpeningParenthesis => "MISSING OPENING PARENTHESIS"
  | .missingComma => "MISSING COMMA"
  | .notYetImplemented => "NOT YET IMPLEMENTED"
  | .violation => "SYNTAX ERROR"
  | .alreadyExists => "IDENTIFIER ALREADY EXISTS"
  | .wrongNumberOfParameters => "WRONG NUMBER OF PARAMETERS"
  | .subInExpression => "CANNOT CALL SUB IN EXPRESSION"
  | .unknownIdentifier => "UNKNOWN IDENTIFIER"
  | .assignmentToConstant => "ASSIGNMENT TO CONSTANT"
  | .math => "MATH ERROR"
  | .timedOut => "TIMED OUT"
  | .cancelled => "CANCELLED"
  | .noUiAllowed => "NO UI ALLOWED"
  | .uninitialized => "UNINITIALIZED VARIABLE"
  | .unknownVariable => "UNKNOWN VARIABLE"
  | .internal => "INTERNAL ERROR"
  | .stackOverflow => "STACK OVERFLOW"

end FaultCode

/-! ## Faults -/

/-- A fault. -/
structure Fault where
  code : FaultCode
  /-- Where in the source it arose, if that is known. -/
  position : Option Position := none
  /-- The text of the offending symbol, empty when there is none. -/
  token : String := ""
  /-- What went wrong in this case, empty when the code tells all. -/
  message : String := ""
deriving DecidableEq, Repr

namespace Fault

/-- A fault that has only a code and a message. -/
def because (code : FaultCode) (message : String) : Fault where
  code := code
  message := message

/-- Records a place. -/
def place (p : Position) (f : Fault) : Fault := { f with position := some p }

/-- Records a place unless there is one already. -/
def orPlace (p : Position) (f : Fault) : Fault :=
  match f.position with
  | some _ => f
  | none => f.place p

/-- Records the offending token and its place. -/
def near (token : String) (p : Position) (f : Fault) : Fault :=
  { f with position := some p, token := token }

/-- Records a message. -/
def explain (message : String) (f : Fault) : Fault := { f with message := message }

/-- The place of a fault, zero in every component when it has none. -/
def placeOrZero (f : Fault) : Position := f.position.getD .zero

/-- A fault as a reader sees it: headline, place, token and message. -/
def render (f : Fault) : String :=
  let place := match f.position with
    | some p => " IN " ++ p.render
    | none => ""
  let token := if f.token.isEmpty then "" else " ('" ++ Text.showToken f.token ++ "')"
  let message := if f.message.isEmpty then "" else "; " ++ f.message
  f.code.title ++ place ++ token ++ message

/-- A fault as a record of the program shows it. -/
def inspect (f : Fault) : String := "Error \x7b " ++ f.render ++ " \x7d"

end Fault

end MacroBasic
