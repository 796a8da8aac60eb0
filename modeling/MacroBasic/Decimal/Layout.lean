/-
How a number is written. In running text it is positional whatever its size and an integer has no
point; in listings it always shows a point or an exponent, and takes the exponent when it is far
from one.
-/
import MacroBasic.Decimal.Shortest

namespace MacroBasic.Decimal

/-- The decimal digits of a natural. -/
def digitsOf (n : Nat) : List Char := Nat.toDigits 10 n

/-- Positional notation. -/
def Digits.positional (d : Digits) : List Char :=
  let digits := digitsOf d.coefficient
  if 0 ≤ d.exponent then digits ++ List.replicate d.exponent.toNat '0'
  else
    let places := (-d.exponent).toNat
    if places < digits.length then
      digits.take (digits.length - places) ++ '.' :: digits.drop (digits.length - places)
    else '0' :: '.' :: List.replicate (places - digits.length) '0' ++ digits

/-- One digit before the point, the others behind it, and the power of ten that goes with it. -/
def Digits.scientific (d : Digits) : List Char :=
  let digits := digitsOf d.coefficient
  let power := d.exponent + (digits.length - 1 : Nat)
  let mantissa := match digits with
    | first :: second :: rest => first :: '.' :: second :: rest
    | short => short
  let sign := if power < 0 then ['-'] else []
  mantissa ++ 'e' :: sign ++ digitsOf power.natAbs

/-- Positional notation with a point in it. -/
def Digits.pointed (d : Digits) : List Char :=
  if 0 ≤ d.exponent then d.positional ++ ['.', '0'] else d.positional

/-- Whether a listing writes a decimal positionally: zero, and what lies from `10 ^ -4` up to but not
including `10 ^ 16`. -/
def Digits.isNear (d : Digits) : Bool :=
  let power := d.exponent + ((digitsOf d.coefficient).length - 1 : Nat)
  d.coefficient == 0 || (-4 ≤ power && power < 16)

/-- A double with its magnitude written by the given layout. -/
def render (layout : Digits → List Char) (x : Float) : String :=
  match Double.ofFloat x with
  | .nan => "NaN"
  | .infinite false => "inf"
  | .infinite true => "-inf"
  | .finite negative b =>
    String.ofList ((if negative then ['-'] else []) ++ layout (shortest b))

/-- A number as running text shows it. -/
def plain (x : Float) : String := render Digits.positional x

/-- A number as a listing shows it. -/
def listed (x : Float) : String :=
  render (fun d => if d.isNear then d.pointed else d.scientific) x

end MacroBasic.Decimal
