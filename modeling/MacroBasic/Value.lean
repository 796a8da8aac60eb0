/-
The values a script works with, and their two texts: the one a script sees when a value is joined to a
text or printed, and the one a listing shows.
-/
import MacroBasic.Decimal.Layout
import MacroBasic.Text.Escape

namespace MacroBasic

/-- The place of an instruction in a program, counted from zero. -/
abbrev Address := Nat

/-- A value. Expressions give numbers, texts and booleans; a declared name without a value is
uninitialized, and the machine keeps addresses to return to. -/
inductive Value where
  | number (x : Float)
  | text (s : String)
  | boolean (b : Bool)
  | uninitialized
  | address (a : Address)
deriving BEq, Repr, Inhabited

namespace Value

/-- The name of a value's kind. -/
def kindName : Value → String
  | .number _ => "number"
  | .text _ => "text"
  | .boolean _ => "boolean"
  | .uninitialized => "uninitialized"
  | .address _ => "address"

/-- Whether no value has been given yet. -/
def isUninitialized : Value → Bool
  | .uninitialized => true
  | _ => false

/-- A value as a script sees it in a text. -/
def display : Value → String
  | .number x => Decimal.plain x
  | .text s => s
  | .boolean true => "True"
  | .boolean false => "False"
  | .uninitialized => ""
  | .address a => s!"&{a}"

/-- A value as a listing shows it. -/
def inspect : Value → String
  | .number x => "Number(" ++ Decimal.listed x ++ ")"
  | .text s => "Text(" ++ Text.quoted s ++ ")"
  | .boolean b => "Boolean(" ++ (if b then "true" else "false") ++ ")"
  | .uninitialized => "Uninitialized"
  | .address a => s!"Address({a})"

end Value

end MacroBasic
