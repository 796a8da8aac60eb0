/-
What a single instruction does to the scopes of a run. An instruction asks the host at most once, and
only after it has taken its operands; what it makes of the reply is again an operation on the scopes.
-/
import MacroBasic.Host
import MacroBasic.Scopes

namespace MacroBasic

namespace Machine

/-- The name under which a call records where to return to. No script can spell it. -/
def returnName : String := "~RETURNADDR"

/-- How an instruction goes on: at an address, or with a question to the host. -/
inductive Next where
  | goto (a : Address)
  | ask (r : Request) (resume : r.Reply → Work Scopes Address)

/-! ## Faults -/

/-- A fault of a calculation, with the instruction that made it. -/
def calculationFault (role : String) (i : Instruction) (f : Fault) : Fault :=
  if f.code = .math then
    .because .math
      ("Error during calculation (" ++ role ++ " op " ++ i.render ++ "): " ++ f.message)
  else f

/-- The result of a calculation in an instruction. -/
def calculate {α : Type} (role : String) (i : Instruction) (r : Except Fault α) : Work Scopes α :=
  .ofExcept (r.mapError (calculationFault role i))

/-! ## Parts of instructions -/

/-- Changes the value of a bound name, which must not be a constant. -/
def assignBound (b : Binding) (v : Value) : Work Scopes Unit := do
  if b.kind = .constant then
    throw (.because .assignmentToConstant s!"Assignment to constant {b.name} not allowed")
  modify fun s => (s.assign? b.name v).getD s

/-- An integer moved to the nearest one that a host takes. -/
def clampHalf (n : Int64) : Int32 :=
  Int32.ofInt (max Int32.minValue.toInt (min Int32.maxValue.toInt n.toInt))

/-- The integer that is handed to a host. -/
def hostInteger (i : Instruction) (v : Value) : Work Scopes Int32 := do
  return clampHalf (← calculate "host" i v.toInteger)

/-- Refuses to open a dialog where dialogs are not allowed. -/
def requireUi (ui : Bool) (i : Instruction) : Work Scopes Unit :=
  if ui then pure ()
  else throw (.because .noUiAllowed (i.render ++ " is not allowed in this context"))

/-- The truth of the top value, which is taken. -/
def popCondition (i : Instruction) : Work Scopes Bool := do
  let v ← Scopes.pop
  calculate "jump" i v.toBoolean

/-- Opens a dialog with the parameters on the stack. -/
def openDialog (ui : Bool) (i : Instruction) (next : Address) : Dialog → Work Scopes Next
  | .message => do
    let text ← Scopes.pop
    let kind ← Scopes.pop
    let kind ← hostInteger i kind
    return .ask (.message kind text.display) fun _ => pure next
  | .msgBox => do
    requireUi ui i
    let title ← Scopes.pop
    let buttons ← Scopes.pop
    let prompt ← Scopes.pop
    let buttons ← hostInteger i buttons
    return .ask (.msgBox prompt.display buttons title.display) fun button => do
      Scopes.push (.number (Decimal.ofInt (Int32.toInt button)))
      return next
  | .inputBox => do
    requireUi ui i
    let initial ← Scopes.pop
    let title ← Scopes.pop
    let prompt ← Scopes.pop
    return .ask (.inputBox prompt.display title.display initial.display) fun text => do
      Scopes.push (.text text)
      return next

/-! ## Instructions -/

/-- What the instruction `i` at address `pc` does. -/
def step (ui : Bool) (pc : Address) (i : Instruction) : Work Scopes Next := do
  let next := pc + 1
  match i with
  | .allocConst name v =>
    modify (·.allocate { name := name, kind := .constant, value := v })
    return .goto next
  | .allocVar name =>
    modify (·.allocate { name := name })
    return .goto next
  | .pushValue v =>
    Scopes.push v
    return .goto next
  | .pushVariable name =>
    match (← get).get? name with
    | some b =>
      if b.value.isUninitialized then
        throw (.because .uninitialized s!"Variable '{name}' hasn't been assigned a value yet")
      Scopes.push b.value
      return .goto next
    | none =>
      return .ask (.retrieve name) fun
        | some v => do
          Scopes.push v
          return next
        | none => throw (.because .unknownVariable s!"Unknown variable '{name}'")
  | .pop =>
    let _ ← Scopes.pop
    return .goto next
  | .copy depth =>
    Scopes.push (← Scopes.peek depth)
    return .goto next
  | .assign name =>
    let v ← Scopes.pop
    match (← get).get? name with
    | some b =>
      assignBound b v
      return .goto next
    | none =>
      return .ask (.assign name v) fun taken => do
        if !taken then modify (·.allocate { name := name, value := v })
        return next
  | .binary op =>
    let (l, r) ← Scopes.pop2
    Scopes.push (← calculate "binary" i (op.apply l r))
    return .goto next
  | .unary op =>
    let v ← Scopes.pop
    Scopes.push (← calculate "unary" i (op.apply v))
    return .goto next
  | .print =>
    let v ← Scopes.pop
    return .ask (.print v.display) fun _ => pure next
  | .notify n => return .ask (.notify n) fun _ => pure next
  | .dialog d => openDialog ui i next d
  | .jump a => return .goto a
  | .jumpTrue a => return .goto (if ← popCondition i then a else next)
  | .jumpFalse a => return .goto (if ← popCondition i then next else a)
  | .jumpPop =>
    match ← Scopes.pop with
    | .address a => return .goto a
    | v => throw (.because .internal s!"EXPECTED EXIT ADDRESS, FOUND {v.kindName}")
  | .pushScope =>
    Scopes.pushScope
    return .goto next
  | .popScope =>
    let _ ← Scopes.popScope
    return .goto next
  | .call a =>
    modify (·.allocate { name := returnName, kind := .constant, value := .address next })
    return .goto a
  | .ret =>
    match ((← get).get? returnName).map Binding.value with
    | some (.address a) => return .goto a
    | _ => throw (.because .internal "RETURN WITHOUT CALL")

end Machine

end MacroBasic
