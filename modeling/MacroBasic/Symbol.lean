/-
Symbols: the pieces a source text is broken into.
-/
import MacroBasic.Token

namespace MacroBasic

/-- A symbol with its class, its text, the value it spells if it is a literal, and its place. -/
structure Symbol where
  token : Token
  text : String
  position : Position
  value : Option Value := none

namespace Symbol

/-- Whether a symbol is a line break. -/
def isNewline (s : Symbol) : Bool := s.token == .delimiter && s.text == "\n"

/-- A fault about a symbol. -/
def fault (s : Symbol) (code : FaultCode) (message : String) : Fault :=
  (Fault.because code message).near s.text s.position

end Symbol

end MacroBasic
