/-
Scripts as trees. Names have been resolved: a call knows the routine it calls, and leaving a loop
knows the loops that are left on the way.
-/
import MacroBasic.Binding
import MacroBasic.Instruction

namespace MacroBasic

/-! ## Expressions -/

/-- A routine as its callers know it. -/
structure Routine where
  name : String
  /-- The address of its first instruction. -/
  entry : Address
  parameters : List String

mutual

/-- An expression. -/
inductive Expr where
  | literal (v : Value)
  | variable (name : String)
  /-- The result of a function. -/
  | call (r : Routine) (arguments : List Expr)
  | unary (op : UnaryOperator) (e : Expr)
  | binary (op : BinaryOperator) (l r : Expr)
  /-- Operands joined by AND, of which no more than needed are evaluated. -/
  | conjunction (first : Expr) (rest : List Expr)
  /-- One of two values, of which only the chosen one is evaluated. -/
  | choice (condition yes no : Expr)
  | dialog (d : Dialog) (slots : List Slot)

/-- A place for a parameter of a dialog. -/
inductive Slot where
  | omitted
  | given (e : Expr)

end

/-! ## Statements -/

/-- The kinds of loop. -/
inductive Loop where
  | doLoop
  | forLoop
deriving DecidableEq, Repr

/-- The condition of a loop, under which it goes on or, with `untilTrue`, ends. -/
structure Guard where
  untilTrue : Bool
  condition : Expr

mutual

/-- A statement. -/
inductive Stmt where
  /-- Names that the script shares with its surroundings. -/
  | share (names : List String)
  | declare (names : List String)
  | constants (definitions : List (String × Value))
  | routine (isFunction : Bool) (name : String) (parameters : List String) (body : Block)
  | branch (condition : Expr) (yes : Block)
  | branchElse (condition : Expr) (yes no : Block)
  | countLoop (counter : String) (start limit : Expr) (step : Option Expr) (body : Block)
  | guardLoop (head : Option Guard) (body : Block) (tail : Option Guard)
  /-- Leaves a loop from inside the given loops, the innermost one first. -/
  | exitLoop (kind : Loop) (inner : List Loop)
  | exitRoutine
  | print (e : Option Expr)
  | notify (n : Notice)
  | dialog (d : Dialog) (slots : List Slot)
  /-- Gives a variable a new value, made with an operator from its old one if there is an operator. -/
  | assign (name : String) (op : Option BinaryOperator) (e : Expr)
  | call (r : Routine) (arguments : List Expr)

/-- Statements in order, each with the place where it begins. -/
inductive Block where
  | nil
  | cons (position : Position) (first : Stmt) (rest : Block)

end

end MacroBasic
