/-
The instructions of the machine. It has no registers: every operation works on the values of the
innermost scope. The targets of branches are addresses of instructions.
-/
import MacroBasic.Value.Operator

namespace MacroBasic

/-- The dialogs a script can open. -/
inductive Dialog where
  | message
  | msgBox
  | inputBox
deriving DecidableEq, Repr

/-- The notices a script can send to its host. -/
inductive Notice where
  | clear
  | reveal
  | hide
  | yield
deriving DecidableEq, Repr

/-- An instruction. -/
inductive Instruction where
  /-- Binds a constant in the innermost scope. -/
  | allocConst (name : String) (v : Value)
  /-- Binds a variable without a value in the innermost scope. -/
  | allocVar (name : String)
  /-- Pushes a value. -/
  | pushValue (v : Value)
  /-- Pushes the value of a name, which the host is asked for when no scope binds it. -/
  | pushVariable (name : String)
  /-- Drops the top value. -/
  | pop
  /-- Pushes a copy of the value that many places below the top. -/
  | copy (depth : Nat)
  /-- Pops a value into a name. -/
  | assign (name : String)
  /-- Replaces two values by the result of an operator; the right operand is on top. -/
  | binary (op : BinaryOperator)
  /-- Replaces the top value by the result of an operator. -/
  | unary (op : UnaryOperator)
  /-- Pops a value and prints it. -/
  | print
  /-- Sends a notice. -/
  | notify (n : Notice)
  /-- Pops the parameters of a dialog and opens it; all but a message push the answer. -/
  | dialog (d : Dialog)
  | jump (target : Address)
  /-- Pops a value and branches if it is true. -/
  | jumpTrue (target : Address)
  /-- Pops a value and branches if it is false. -/
  | jumpFalse (target : Address)
  /-- Pops an address and branches to it. -/
  | jumpPop
  /-- Enters a new scope. -/
  | pushScope
  /-- Leaves the innermost scope. -/
  | popScope
  /-- Records the return address in the innermost scope and branches. -/
  | call (target : Address)
  /-- Branches to the nearest recorded return address. -/
  | ret

/-! ## Names -/

/-- The name of an operator in a listing. -/
def UnaryOperator.mnemonic : UnaryOperator → String
  | .negate => "NEGATE"
  | .not => "NOT"
  | .factorial => "FACTORIAL"
  | .sin => "SIN"
  | .cos => "COS"
  | .tan => "TAN"
  | .atan => "ATAN"

/-- The name of an operator in a listing. -/
def BinaryOperator.mnemonic : BinaryOperator → String
  | .add => "ADD"
  | .subtract => "SUB"
  | .multiply => "MUL"
  | .divide => "DIV"
  | .divideInt => "DIVINT"
  | .modulus => "MOD"
  | .power => "POWER"
  | .concat => "CONCAT"
  | .or => "OR"
  | .and => "AND"
  | .equal => "EQ"
  | .notEqual => "NOTEQ"
  | .less => "LT"
  | .lessEqual => "LTEQ"
  | .greater => "GT"
  | .greaterEqual => "GTEQ"

/-- The name of a dialog in a listing. -/
def Dialog.mnemonic : Dialog → String
  | .message => "MESSAGE"
  | .msgBox => "MSGBOX"
  | .inputBox => "INPUTBOX"

/-- The name of a notice in a listing. -/
def Notice.mnemonic : Notice → String
  | .clear => "DEBUGCLEAR"
  | .reveal => "DEBUGSHOW"
  | .hide => "DEBUGHIDE"
  | .yield => "DOEVENTS"

namespace Instruction

/-- An instruction as a listing shows it. -/
def render : Instruction → String
  | .allocConst name v => "ALLOCCONST(" ++ name ++ ", " ++ v.inspect ++ ")"
  | .allocVar name => "ALLOCVAR(" ++ name ++ ")"
  | .pushValue v => "PUSHVALUE(" ++ v.inspect ++ ")"
  | .pushVariable name => "PUSHVARIABLE(" ++ name ++ ")"
  | .pop => "POP"
  | .copy depth => s!"POPWITHINDEX({depth})"
  | .assign name => "ASSIGN(" ++ name ++ ")"
  | .binary op => op.mnemonic
  | .unary op => op.mnemonic
  | .print => "DEBUGPRINT"
  | .notify n => n.mnemonic
  | .dialog d => d.mnemonic
  | .jump a => s!"JUMP({a})"
  | .jumpTrue a => s!"JUMPTRUE({a})"
  | .jumpFalse a => s!"JUMPFALSE({a})"
  | .jumpPop => "JUMPPOP"
  | .pushScope => "PUSHSCOPE"
  | .popScope => "POPSCOPE"
  | .call a => s!"CALL({a})"
  | .ret => "RETURN"

/-- The same instruction with another target, if it has one. -/
def retarget? (target : Address) : Instruction → Option Instruction
  | .jump _ => some (.jump target)
  | .jumpTrue _ => some (.jumpTrue target)
  | .jumpFalse _ => some (.jumpFalse target)
  | .call _ => some (.call target)
  | .pushValue (.address _) => some (.pushValue (.address target))
  | _ => none

end Instruction

/-- An instruction with the place in the source that it comes from. -/
structure Line where
  instruction : Instruction
  position : Position

end MacroBasic
