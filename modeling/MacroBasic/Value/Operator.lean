/-
The operators of expressions and what they compute. Arithmetic reads its operands as numbers, integer
division and the bitwise operators as integers; comparison is numeric whenever both sides can be read
as numbers.
-/
import MacroBasic.Value.Coercion

namespace MacroBasic

/-- Operators and functions of one operand. -/
inductive UnaryOperator where
  | negate
  | not
  | factorial
  | sin
  | cos
  | tan
  | atan
deriving DecidableEq, Repr

/-- Operators of two operands. -/
inductive BinaryOperator where
  | add
  | subtract
  | multiply
  | divide
  | divideInt
  | modulus
  | power
  | concat
  | or
  | and
  | equal
  | notEqual
  | less
  | lessEqual
  | greater
  | greaterEqual
deriving DecidableEq, Repr

namespace Value

/-! ## Numbers -/

/-- The product of the naturals from two up to `x`. From 171 on it is infinite. -/
def factorial (x : Float) : Except Fault Float :=
  if x < 0.0 || !Decimal.isWhole x then
    .error (mathFault ("Factorial needs a non-negative integer, not " ++ Decimal.plain x))
  else
    .ok ((List.range' 2 170).foldl
      (fun product i => if Float.ofNat i ≤ x then product * Float.ofNat i else product) 1.0)

/-- The fault of dividing by zero. -/
def divisionByZero : Fault := mathFault "Division by zero"

/-- An operation on two numbers. -/
def numeric (f : Float → Float → Except Fault Float) (l r : Value) : Except Fault Value := do
  let x ← l.toNumber
  let y ← r.toNumber
  return .number (← f x y)

/-- Division of the integers that two values stand for, rounding toward zero. -/
def divideInt (l r : Value) : Except Fault Value := do
  let x ← l.toInteger
  let y ← r.toInteger
  if y = 0 then throw divisionByZero
  if x = Int64.minValue ∧ y = -1 then throw (mathFault "Overflow")
  return .number (Decimal.ofInt (x / y).toInt)

/-- A connective: logical on two booleans, bit by bit on the integers of anything else. -/
def connect (logical : Bool → Bool → Bool) (bitwise : Int64 → Int64 → Int64) :
    Value → Value → Except Fault Value
  | .boolean p, .boolean q => .ok (.boolean (logical p q))
  | l, r => do
    let x ← l.toInteger
    let y ← r.toInteger
    return .number (Decimal.ofInt (bitwise x y).toInt)

/-! ## Comparison -/

/-- Whether two values are equal: numbers and booleans among themselves by value, all else by text. -/
def same : Value → Value → Except Fault Bool
  | .number x, .number y => .ok (x == y)
  | .boolean p, .boolean q => .ok (p == q)
  | l, r => do
    let s ← l.toText
    let t ← r.toText
    return s == t

/-- The order of two numbers, if they have one. -/
def compareNumbers (x y : Float) : Option Ordering :=
  if x < y then some .lt
  else if x == y then some .eq
  else if y < x then some .gt
  else none

/-- A test of the order of two values: numeric if both can be read as numbers, where unordered numbers
fail every test, otherwise by the characters of two texts. -/
def ordered (test : Ordering → Bool) (l r : Value) : Except Fault Value :=
  match l.toNumber, r.toNumber with
  | .ok x, .ok y => .ok (.boolean ((compareNumbers x y).any test))
  | _, _ =>
    match l, r with
    | .text s, .text t => .ok (.boolean (test (compare s t)))
    | l, r => .error (mathFault s!"Cannot compare {l.kindName} with {r.kindName}")

end Value

/-! ## Application -/

/-- The value of an operator of one operand. -/
def UnaryOperator.apply (op : UnaryOperator) (v : Value) : Except Fault Value := do
  match op with
  | .negate => return .number (-(← v.toNumber))
  | .not => return .boolean (!(← v.toBoolean))
  | .factorial => return .number (← Value.factorial (← v.toNumber))
  | .sin => return .number (← v.toNumber).sin
  | .cos => return .number (← v.toNumber).cos
  | .tan => return .number (← v.toNumber).tan
  | .atan => return .number (← v.toNumber).atan

/-- The value of an operator of two operands. -/
def BinaryOperator.apply (op : BinaryOperator) (l r : Value) : Except Fault Value :=
  match op with
  | .add => Value.numeric (fun x y => .ok (x + y)) l r
  | .subtract => Value.numeric (fun x y => .ok (x - y)) l r
  | .multiply => Value.numeric (fun x y => .ok (x * y)) l r
  | .divide =>
    Value.numeric (fun x y => if y == 0.0 then .error Value.divisionByZero else .ok (x / y)) l r
  | .divideInt => Value.divideInt l r
  | .modulus =>
    Value.numeric
      (fun x y => if y == 0.0 then .error Value.divisionByZero else .ok (Decimal.remainder x y)) l r
  | .power => Value.numeric (fun x y => .ok (x.pow y)) l r
  | .concat => do return .text ((← l.toText) ++ (← r.toText))
  | .or => Value.connect (· || ·) (· ||| ·) l r
  | .and => Value.connect (· && ·) (· &&& ·) l r
  | .equal => do return .boolean (← Value.same l r)
  | .notEqual => do return .boolean (!(← Value.same l r))
  | .less => Value.ordered (· == .lt) l r
  | .lessEqual => Value.ordered (· != .gt) l r
  | .greater => Value.ordered (· == .gt) l r
  | .greaterEqual => Value.ordered (· != .lt) l r

end MacroBasic
