/-
Double precision numbers taken apart and put together exactly. A finite double is a sign and a
magnitude `significand · 2 ^ exponent`; going back, the double nearest to a ratio of two naturals is
found in exact arithmetic, a tie going to the even significand.
-/

namespace MacroBasic.Decimal

/-- A power of two. -/
def twoTo (n : Nat) : Nat := Nat.pow 2 n

/-- A power of ten. -/
def tenTo (n : Nat) : Nat := Nat.pow 10 n

/-- A magnitude `significand · 2 ^ exponent`. -/
structure Binary where
  significand : Nat
  exponent : Int
deriving DecidableEq, Repr

/-- What a double stands for. -/
inductive Double where
  | nan
  | infinite (negative : Bool)
  | finite (negative : Bool) (magnitude : Binary)
deriving DecidableEq, Repr

/-- The number of bits of a significand that are stored. -/
def fractionBits : Nat := 52

/-- The exponent of the finest doubles. -/
def leastExponent : Int := -1074

/-- The exponent field of what is no finite double. -/
def beyondFinite : Nat := 0x7ff

/-- What the sign of a double counts in its bits. -/
def signBit : Nat := twoTo 63

namespace Double

/-- The meaning of the 64 bits of a double. -/
def ofBits (bits : Nat) : Double :=
  let negative := bits / signBit % 2 == 1
  let biased := bits / twoTo fractionBits % (beyondFinite + 1)
  let fraction := bits % twoTo fractionBits
  if biased = beyondFinite then
    if fraction = 0 then .infinite negative else .nan
  else if biased = 0 then .finite negative ⟨fraction, leastExponent⟩
  else .finite negative ⟨fraction + twoTo fractionBits, leastExponent + (biased - 1 : Nat)⟩

/-- What a floating-point number stands for. -/
def ofFloat (x : Float) : Double := ofBits x.toBits.toNat

end Double

namespace Binary

/-- The bits of a magnitude without a sign, given with its least possible exponent. Where the
significand fills its bits the exponent field counts on from it, so that a carry out of the
significand is a step of the exponent; what lies beyond the largest double is infinite. -/
def toBits (b : Binary) : Nat :=
  min ((b.exponent - leastExponent).toNat * twoTo fractionBits + b.significand)
    (beyondFinite * twoTo fractionBits)

/-- The double of a magnitude whose significand fills its bits or whose exponent is the least. -/
def toFloat (negative : Bool) (b : Binary) : Float :=
  Float.ofBits (UInt64.ofNat (b.toBits + if negative then signBit else 0))

/-- The magnitude as a ratio of naturals. -/
def ratio (b : Binary) : Nat × Nat :=
  (b.significand * twoTo b.exponent.toNat, twoTo (-b.exponent).toNat)

end Binary

/-- The infinite double of a sign, whose magnitude would be the first beyond the finite ones. -/
def infinity (negative : Bool) : Float :=
  Binary.toFloat negative ⟨beyondFinite * twoTo fractionBits, leastExponent⟩

/-- The quotient of two naturals rounded to the nearest natural, a half to the even one. -/
def roundDiv (num den : Nat) : Nat :=
  let q := num / den
  let twice := 2 * (num % den)
  if den < twice || (twice == den && q % 2 == 1) then q + 1 else q

/-- The exponent at which the quotient of two positive naturals has a full significand. -/
def fullExponent (num den : Nat) : Int :=
  let guess : Int := (Nat.log2 num : Int) - Nat.log2 den - fractionBits
  let short : Bool := num * twoTo (-guess).toNat < twoTo fractionBits * (den * twoTo guess.toNat)
  max leastExponent (if short then guess - 1 else guess)

/-- The double nearest to the quotient of two naturals. -/
def nearest (negative : Bool) (num den : Nat) : Float :=
  if num = 0 then Binary.toFloat negative ⟨0, leastExponent⟩
  else
    let e := fullExponent num den
    Binary.toFloat negative ⟨roundDiv (num * twoTo (-e).toNat) (den * twoTo e.toNat), e⟩

/-- The double nearest to an integer. -/
def ofInt (n : Int) : Float := nearest (n < 0) n.natAbs 1

end MacroBasic.Decimal
