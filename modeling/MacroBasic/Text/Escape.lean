/-
Visible spellings of texts: quotes, backslashes, line ends and characters that would not show are
written as escapes. The spellings differ in whether an apostrophe is escaped and in which of the
characters that attach to their neighbour are.
-/
import MacroBasic.Text.Extending
import MacroBasic.Text.Hidden

namespace MacroBasic.Text

/-- A code point in hexadecimal, between braces. -/
def codePoint (c : Char) : List Char :=
  ['\\', 'u', '\x7b'] ++ Nat.toDigits 16 c.toNat ++ ['\x7d']

/-- The visible spelling of one character. -/
def escapeChar (apostrophe extending : Bool) (c : Char) : List Char :=
  if c = '\x00' then ['\\', '0']
  else if c = '\t' then ['\\', 't']
  else if c = '\r' then ['\\', 'r']
  else if c = '\n' then ['\\', 'n']
  else if c = '\\' || c = '\x22' || (apostrophe && c = '\x27') then ['\\', c]
  else if (extending && isExtending c) || isHidden c then codePoint c
  else [c]

/-- The visible spelling of a character that stands alone. -/
def showChar (c : Char) : String := String.ofList (escapeChar true true c)

/-- The visible spelling of a token: an attaching character is escaped only where it has nothing
before it to attach to. -/
def showToken (s : String) : String :=
  match s.toList with
  | [] => ""
  | c :: rest => String.ofList (escapeChar true true c ++ rest.flatMap (escapeChar true false))

/-- A text between double quotes. -/
def quoted (s : String) : String :=
  "\x22" ++ String.ofList (s.toList.flatMap (escapeChar false true)) ++ "\x22"

end MacroBasic.Text
