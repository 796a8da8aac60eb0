/-
Reading one kind of value as another. Numbers, texts and booleans stand for each other where that
makes sense; an uninitialized value or an address stands for nothing else.
-/
import MacroBasic.Decimal.Numeral
import MacroBasic.Decimal.Whole
import MacroBasic.Fault
import MacroBasic.Value

namespace MacroBasic.Value

/-- The fault of a calculation. -/
def mathFault (message : String) : Fault := .because .math message

/-- The number a value stands for: a boolean is one or zero, a text has to spell a number. -/
def toNumber : Value → Except Fault Float
  | .number x => .ok x
  | .boolean b => .ok (if b then 1.0 else 0.0)
  | .text s =>
    match Decimal.parseNumber s with
    | some x => .ok x
    | none => .error (mathFault s!"Cannot convert '{s}' to a number")
  | v => .error (mathFault s!"Cannot convert {v.kindName} value to a number")

/-- An integer moved to the nearest one that a machine word holds. -/
def clampWord (n : Int) : Int64 :=
  Int64.ofInt (max Int64.minValue.toInt (min Int64.maxValue.toInt n))

/-- The integer a value stands for: its number rounded, a half to the even neighbour. -/
def toInteger (v : Value) : Except Fault Int64 := do
  let x ← v.toNumber
  match Decimal.roundEven x with
  | some n => .ok (clampWord n)
  | none => .error (mathFault (Decimal.plain x ++ " is not an integer"))

/-- The truth a value stands for: every number but zero is true, a text may also spell it out. -/
def toBoolean : Value → Except Fault Bool
  | .boolean b => .ok b
  | .number x => .ok (x != 0.0)
  | .text s =>
    let word := Text.toSmallLatin (Text.trim s)
    if word = "true" then .ok true
    else if word = "false" then .ok false
    else match Decimal.parseNumber s with
      | some x => .ok (x != 0.0)
      | none => .error (mathFault s!"Cannot convert '{s}' to a boolean")
  | v => .error (mathFault s!"Cannot convert {v.kindName} value to a boolean")

/-- The text a value stands for. -/
def toText : Value → Except Fault String
  | .uninitialized => .error (mathFault "Cannot convert uninitialized value to text")
  | .address _ => .error (mathFault "Cannot convert address value to text")
  | v => .ok v.display

end MacroBasic.Value
