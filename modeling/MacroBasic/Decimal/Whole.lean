/-
Whole numbers among the doubles: rounding to an integer, the test for one, and the exact remainder of
a division.
-/
import MacroBasic.Decimal.Binary

namespace MacroBasic.Decimal

/-- The integer nearest to a finite double, a half going to the even one. -/
def roundEven (x : Float) : Option Int :=
  match Double.ofFloat x with
  | .finite negative b =>
    let n := roundDiv b.ratio.1 b.ratio.2
    some (if negative then -(n : Int) else n)
  | _ => none

/-- Whether a double is finite and has no fraction. -/
def isWhole (x : Float) : Bool :=
  match Double.ofFloat x with
  | .finite _ b => b.ratio.1 % b.ratio.2 == 0
  | _ => false

/-- What is left of `x` after taking away `y` as often as it goes in whole, with the sign of `x`. The
remainder is a whole number of steps of the finer of the two operands, so it is exact. -/
def remainder (x y : Float) : Float :=
  match Double.ofFloat x, Double.ofFloat y with
  | .finite negative a, .finite _ b =>
    let step := min a.exponent b.exponent
    let units (c : Binary) : Nat := c.significand * twoTo (c.exponent - step).toNat
    if b.significand = 0 then 0.0 / 0.0
    else nearest negative (units a % units b * twoTo step.toNat) (twoTo (-step).toNat)
  | .finite _ _, .infinite _ => x
  | _, _ => 0.0 / 0.0

end MacroBasic.Decimal
