/-
Reading numbers. A numeral is an optional sign and then digits with at most one point among or around
them and an optional exponent, or one of the words for infinity and for what is not a number. Its
value is the double nearest to the exact decimal.
-/
import MacroBasic.Decimal.Binary
import MacroBasic.Text.Blank
import MacroBasic.Text.Capital

namespace MacroBasic.Decimal

/-- The natural that a run of digits spells. -/
def ofDigits (ds : List Char) : Nat := ds.foldl (fun n c => 10 * n + (c.toNat - '0'.toNat)) 0

/-- The double nearest to `coefficient · 10 ^ exponent`. A power far outside the range of doubles is
not formed: the result is then infinite or zero. -/
def nearestScaled (negative : Bool) (coefficient : Nat) (exponent : Int) : Float :=
  let size : Int := (Nat.toDigits 10 coefficient).length + exponent
  if coefficient = 0 || size < -400 then nearest negative 0 1
  else if 400 < size then infinity negative
  else nearest negative (coefficient * tenTo exponent.toNat) (tenTo (-exponent).toNat)

/-- The sign in front of a numeral, and what follows it. -/
def takeSign : List Char → Bool × List Char
  | '-' :: rest => (true, rest)
  | '+' :: rest => (false, rest)
  | rest => (false, rest)

/-- The exponent at the end of a numeral; without one it is zero. -/
def readExponent : List Char → Option Int
  | [] => some 0
  | c :: rest =>
    let (negative, digits) := takeSign rest
    if (c == 'e' || c == 'E') && !digits.isEmpty && digits.all Char.isDigit then
      some (if negative then -(ofDigits digits : Int) else ofDigits digits)
    else none

/-- The digits behind a point, if there is a point, and what follows. -/
def takeFraction : List Char → List Char × List Char
  | '.' :: rest => (rest.takeWhile Char.isDigit, rest.dropWhile Char.isDigit)
  | rest => ([], rest)

/-- A decimal magnitude: digits with at most one point and at least one digit, then an exponent. -/
def readMagnitude (negative : Bool) (cs : List Char) : Option Float :=
  let whole := cs.takeWhile Char.isDigit
  let (fraction, rest) := takeFraction (cs.dropWhile Char.isDigit)
  if whole.isEmpty && fraction.isEmpty then none
  else (readExponent rest).map fun e =>
    nearestScaled negative (ofDigits (whole ++ fraction)) (e - fraction.length)

/-- A magnitude given by a word. -/
def readWord (negative : Bool) (cs : List Char) : Option Float :=
  let word := Text.toSmallLatin (String.ofList cs)
  if word = "inf" || word = "infinity" then some (infinity negative)
  else if word = "nan" then some (0.0 / 0.0)
  else none

/-- The number that a numeral spells. -/
def readNumeral (cs : List Char) : Option Float :=
  let (negative, rest) := takeSign cs
  (readMagnitude negative rest).orElse fun _ => readWord negative rest

/-- The characters with which the text of a number may begin. -/
def opensNumber (c : Char) : Bool :=
  c.isDigit || c == '-' || c == '+' || c == '.' || c == ','

/-- Puts a point in the place of the first comma. -/
def pointForComma : List Char → List Char
  | [] => []
  | ',' :: rest => '.' :: rest
  | c :: rest => c :: pointForComma rest

/-- The number that a text stands for: a numeral between optional white space, which begins like a
number and in which a comma may stand for the point when there is no point. -/
def parseNumber (s : String) : Option Float :=
  let cs := (Text.trim s).toList
  if !cs.head?.any opensNumber then none
  else if cs.contains '.' then readNumeral cs
  else readNumeral (pointForComma cs)

end MacroBasic.Decimal
