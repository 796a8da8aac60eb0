/-
The shortest decimal of a double: the fewest digits that still read back as the same number, and
among those the ones nearest to it. For a growing number of digits the two neighbours of the value on
that decimal grid are tried; the first grid with a neighbour inside the value's rounding interval
wins.
-/
import MacroBasic.Decimal.Binary

namespace MacroBasic.Decimal

/-- A decimal magnitude `coefficient · 10 ^ exponent`. -/
structure Digits where
  coefficient : Nat
  exponent : Int
deriving DecidableEq, Repr

/-- The order of `a · 10 ^ p` and `b · 2 ^ e`. -/
def compareScaled (a : Nat) (p : Int) (b : Nat) (e : Int) : Ordering :=
  compare (a * tenTo p.toNat * twoTo (-e).toNat) (b * twoTo e.toNat * tenTo (-p).toNat)

/-- Whether a decimal reads back as a magnitude: it lies between the midpoints to the neighbouring
doubles, which are in quarters of the last place, and on a midpoint only if the significand is even.
Below a power of two the doubles lie twice as close. -/
def Digits.readsAs (d : Digits) (b : Binary) : Bool :=
  let below := if b.significand == twoTo fractionBits && leastExponent < b.exponent then 1 else 2
  let even := b.significand % 2 == 0
  let low := compareScaled d.coefficient d.exponent (4 * b.significand - below) (b.exponent - 2)
  let high := compareScaled d.coefficient d.exponent (4 * b.significand + 2) (b.exponent - 2)
  (low == .gt || (even && low == .eq)) && (high == .lt || (even && high == .eq))

/-- The number of decimal places by which a proper fraction has to be raised to reach one. -/
def raising (num den : Nat) : Nat → Nat
  | 0 => 0
  | fuel + 1 => if den ≤ num then 0 else raising (num * 10) den fuel + 1

/-- The exponent of the first decimal digit of a positive magnitude. -/
def leadingExponent (b : Binary) : Int :=
  let (num, den) := b.ratio
  if den ≤ num then ((Nat.toDigits 10 (num / den)).length : Int) - 1
  else -(raising num den 330 : Int)

/-- The neighbour on the grid of step `10 ^ p` that reads back, the nearer one if both do and the upper
one if both are equally near. -/
def onGrid (b : Binary) (p : Int) : Option Digits :=
  let (num, den) := b.ratio
  let lower : Digits := ⟨num * tenTo (-p).toNat / (den * tenTo p.toNat), p⟩
  let upper : Digits := ⟨lower.coefficient + 1, p⟩
  let lowerFits := lower.readsAs b
  let upperFits := upper.readsAs b
  let half := compareScaled (2 * lower.coefficient + 1) p (2 * b.significand) b.exponent
  if lowerFits && (!upperFits || half == .gt) then some lower
  else if upperFits then some upper
  else none

/-- The first hit on the grids from the given one to finer ones. -/
def search (b : Binary) (p : Int) : Nat → Digits
  | 0 => ⟨0, p⟩
  | fuel + 1 => (onGrid b p).getD (search b (p - 1) fuel)

/-- A decimal without the zeros at its end. -/
def Digits.strip (d : Digits) : Nat → Digits
  | 0 => d
  | fuel + 1 =>
    if d.coefficient % 10 == 0 && d.coefficient != 0 then
      Digits.strip ⟨d.coefficient / 10, d.exponent + 1⟩ fuel
    else d

/-- The shortest decimal of a magnitude. -/
def shortest (b : Binary) : Digits :=
  if b.significand = 0 then ⟨0, 0⟩
  else (search b (leadingExponent b) 18).strip 18

end MacroBasic.Decimal
