/-
Styles of text on a terminal. The escape sequences are those that terminals are documented to understand;
they are taken as given, and no theorem is about them.
-/

namespace MacroBasic.Terminal

/-- How a text is emphasised. -/
inductive Style where
  | normal
  | dimmed
  | bold
  | yellow
  | boldRed
deriving DecidableEq, Repr

/-- The parameters of a style's escape sequence. -/
def Style.parameters? : Style → Option String
  | .normal => none
  | .dimmed => some "2"
  | .bold => some "1"
  | .yellow => some "33"
  | .boldRed => some "1;31"

/-- A text in a style. -/
def Style.paint (style : Style) (text : String) : String :=
  match style.parameters? with
  | none => text
  | some parameters => s!"\x1b[{parameters}m{text}\x1b[0m"

/-- What clears the screen and moves to its first place. -/
def clearScreen : String := "\x1b[2J\x1b[1;1H"

end MacroBasic.Terminal
