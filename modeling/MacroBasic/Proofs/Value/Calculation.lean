/-
The faults of calculations. Whatever goes wrong when values are converted or operators are applied is a fault
of a calculation and nothing else.
-/
import MacroBasic.Machine.Step

namespace MacroBasic

/-- A calculation that can only fail as a calculation does. -/
def Calculates {α : Type} (x : Except Fault α) : Prop := ∀ f, x = .error f → f.code = .math

theorem Calculates.pure {α : Type} (a : α) : Calculates (.ok a) := nofun

theorem Calculates.fault {α : Type} (message : String) :
    Calculates (.error (Value.mathFault message) : Except Fault α) := by
  intro f h
  cases h
  rfl

theorem Calculates.bind {α β : Type} {x : Except Fault α} {k : α → Except Fault β} (hx : Calculates x)
    (hk : ∀ a, Calculates (k a)) : Calculates (x >>= k) := by
  intro f h
  cases x with
  | error e => cases h; exact hx f rfl
  | ok a => exact hk a f h

namespace Value

theorem toNumber_calculates (v : Value) : Calculates v.toNumber := by
  cases v with
  | number x => exact .pure x
  | boolean b => exact .pure _
  | text s =>
    unfold toNumber
    simp only
    split
    · exact .pure _
    · exact .fault _
  | uninitialized => exact .fault _
  | address a => exact .fault _

theorem toInteger_calculates (v : Value) : Calculates v.toInteger := by
  refine v.toNumber_calculates.bind fun x => ?_
  split
  · exact .pure _
  · exact .fault _

theorem toBoolean_calculates (v : Value) : Calculates v.toBoolean := by
  cases v with
  | boolean b => exact .pure b
  | number x => exact .pure _
  | text s =>
    unfold toBoolean
    simp only
    split
    · exact .pure _
    · split
      · exact .pure _
      · split
        · exact .pure _
        · exact .fault _
  | uninitialized => exact .fault _
  | address a => exact .fault _

theorem toText_calculates (v : Value) : Calculates v.toText := by
  cases v with
  | uninitialized => exact .fault _
  | address a => exact .fault _
  | number | boolean | text => exact .pure _

theorem numeric_calculates {g : Float → Float → Except Fault Float} (hg : ∀ x y, Calculates (g x y)) (l r : Value) :
    Calculates (numeric g l r) :=
  l.toNumber_calculates.bind fun x => r.toNumber_calculates.bind fun y => (hg x y).bind fun _ => .pure _

theorem connect_calculates (logical : Bool → Bool → Bool) (bitwise : Int64 → Int64 → Int64) (l r : Value) :
    Calculates (connect logical bitwise l r) := by
  unfold connect
  split
  · exact .pure _
  · exact l.toInteger_calculates.bind fun x => r.toInteger_calculates.bind fun y => .pure _

theorem same_calculates (l r : Value) : Calculates (same l r) := by
  unfold same
  split
  · exact .pure _
  · exact .pure _
  · exact l.toText_calculates.bind fun s => r.toText_calculates.bind fun t => .pure _

theorem ordered_calculates (test : Ordering → Bool) (l r : Value) : Calculates (ordered test l r) := by
  unfold ordered
  split
  · exact .pure _
  · split
    · exact .pure _
    · exact .fault _

theorem divideInt_calculates (l r : Value) : Calculates (divideInt l r) := by
  refine l.toInteger_calculates.bind fun x => r.toInteger_calculates.bind fun y => ?_
  by_cases hzero : y = 0
  · rw [if_pos hzero]
    exact .fault _
  · rw [if_neg hzero]
    by_cases hover : x = Int64.minValue ∧ y = -1
    · rw [if_pos hover]
      exact .fault _
    · rw [if_neg hover]
      exact .pure _

theorem factorial_calculates (x : Float) : Calculates (factorial x) := by
  unfold factorial
  split
  · exact .fault _
  · exact .pure _

end Value

theorem UnaryOperator.apply_calculates (op : UnaryOperator) (v : Value) : Calculates (op.apply v) := by
  cases op with
  | not => exact v.toBoolean_calculates.bind fun b => .pure _
  | factorial => exact v.toNumber_calculates.bind fun x => (Value.factorial_calculates x).bind fun y => .pure _
  | negate | sin | cos | tan | atan => exact v.toNumber_calculates.bind fun x => .pure _

theorem BinaryOperator.apply_calculates (op : BinaryOperator) (l r : Value) : Calculates (op.apply l r) := by
  cases op with
  | add | subtract | multiply | power => exact Value.numeric_calculates (fun _ _ => .pure _) l r
  | divide | modulus =>
    refine Value.numeric_calculates (fun x y => ?_) l r
    split
    · exact .fault _
    · exact .pure _
  | divideInt => exact Value.divideInt_calculates l r
  | concat => exact l.toText_calculates.bind fun s => r.toText_calculates.bind fun t => .pure _
  | or | and => exact Value.connect_calculates _ _ l r
  | equal | notEqual => exact (Value.same_calculates l r).bind fun b => .pure _
  | less | lessEqual | greater | greaterEqual => exact Value.ordered_calculates _ l r

/-- The fault of a calculation in an instruction is one of a calculation, too. -/
theorem Machine.code_calculationFault {α : Type} {x : Except Fault α} {f : Fault} (hx : Calculates x) (h : x = .error f)
    (role : String) (i : Instruction) : (calculationFault role i f).code = .math := by
  unfold calculationFault
  rw [if_pos (hx f h)]
  rfl

end MacroBasic
