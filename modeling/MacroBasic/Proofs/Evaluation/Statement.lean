/-
Statements run directly, for scripts without routines. The interpreter follows the tree. A `FOR` loop gives
its counter the start value, evaluates its limit and its step once, and makes passes while
`(limit - counter) * step >= 0`, adding the step to the counter after each; a `DO` loop looks at each of its
conditions at the end of the loop where it stands; `EXIT` ends the innermost loop of its kind around it. All
the interpreter knows is what names stand for: there are no addresses in it and no stack.

A loop that may not end is cut off after a number of passes, so that the interpreter always comes to an end.
-/
import MacroBasic.Proofs.Evaluation.Expression

namespace MacroBasic

/-- What an interpreter does. When it fails, it leaves the code of a fault and the scopes. -/
abbrev Doing := Talk (FaultCode × Scopes)

/-- A conversation that leaves the scopes as they are. -/
def Talk.within {α : Type} (s : Scopes) (x : Talk FaultCode α) : Doing α := x.mapError (·, s)

/-! ## Names -/

/-- Gives a name a value: the host is asked when nothing binds the name, and unless the host takes the value
over the name becomes a variable. -/
def Scopes.store (name : String) (v : Value) (s : Scopes) : Doing Scopes :=
  match s.get? name with
  | some b =>
    if b.kind = .constant then .fail (.assignmentToConstant, s) else .done ((s.assign? name v).getD s)
  | none => .ask (.assign name v) fun taken : Bool =>
    .done (if taken then s else s.allocate { name := name, value := v })

/-- Declares variables. -/
def Scopes.declare (names : List String) (s : Scopes) : Scopes :=
  names.foldl (fun s name => s.allocate { name := name }) s

/-- Defines constants. -/
def Scopes.define (definitions : List (String × Value)) (s : Scopes) : Scopes :=
  definitions.foldl (fun s d => s.allocate { name := d.1, kind := .constant, value := d.2 }) s

/-! ## Endings -/

/-- How statements end: at their end, on the way out of a loop of some kind, or cut off. -/
inductive Ending where
  | done (s : Scopes)
  | exit (kind : Loop) (s : Scopes)
  | unfinished

/-- What a pass of a loop comes to. -/
inductive Pass where
  | again (s : Scopes)
  | stop (e : Ending)

/-- Goes on after statements that came to their end. -/
def Ending.andThen (k : Scopes → Doing Ending) : Ending → Doing Ending
  | .done s => k s
  | .exit kind s => return .exit kind s
  | .unfinished => return .unfinished

/-- Goes on after the body of a loop, which is over when it is left from inside. -/
def Ending.passed (kind : Loop) (k : Scopes → Doing Pass) : Ending → Doing Pass
  | .done s => k s
  | .exit target s => return .stop (if target = kind then .done s else .exit target s)
  | .unfinished => return .stop .unfinished

/-- At most so many passes, each where the one before it ended. -/
def repeated (pass : Scopes → Doing Pass) : Nat → Scopes → Doing Ending
  | 0, _ => return .unfinished
  | k + 1, s => do
    match ← pass s with
    | .again s => repeated pass k s
    | .stop e => return e

/-! ## The interpreter -/

section Interpreter

variable (ui : Bool)

/-- The value of an expression. -/
def Expr.value (e : Expr) (s : Scopes) : Doing Value := (e.evaluate ui s.lookup).within s

/-- Whether an expression is true. -/
def Expr.holds (e : Expr) (s : Scopes) : Doing Bool :=
  Talk.within s do .calculate (← e.evaluate ui s.lookup).toBoolean

/-- Whether a loop goes on as far as a condition of it is concerned. -/
def goesOn (guard : Option Guard) (s : Scopes) : Doing Bool :=
  match guard with
  | some g => do return (← g.condition.holds ui s) != g.untilTrue
  | none => return true

/-- One pass of a `DO` loop. -/
def guardPass (head tail : Option Guard) (body : Scopes → Doing Ending) (s : Scopes) : Doing Pass := do
  if ← goesOn ui head s then
    (← body s).passed .doLoop fun s => do
      if ← goesOn ui tail s then return .again s else return .stop (.done s)
  else return .stop (.done s)

/-- Whether `(limit - counter) * step >= 0`. -/
def counts (counter : String) (limit step : Value) (s : Scopes) : Doing Bool :=
  Talk.within s do
    let current ← readName s.lookup counter
    let distance ← .calculate (BinaryOperator.subtract.apply limit current)
    let product ← .calculate (BinaryOperator.multiply.apply distance step)
    let test ← .calculate (BinaryOperator.greaterEqual.apply product (.number 0.0))
    .calculate test.toBoolean

/-- Adds the step to the counter. -/
def advanceCounter (counter : String) (step : Value) (s : Scopes) : Doing Scopes := do
  let next ← Talk.within s do
    .calculate (BinaryOperator.add.apply step (← readName s.lookup counter))
  s.store counter next

/-- One pass of a `FOR` loop. -/
def countPass (counter : String) (limit step : Value) (body : Scopes → Doing Ending) (s : Scopes) :
    Doing Pass := do
  if ← counts counter limit step s then
    (← body s).passed .forLoop fun s => do return .again (← advanceCounter counter step s)
  else return .stop (.done s)

/-- The step of a `FOR` loop, which is one when it is not given. -/
def stepValue (step : Option Expr) (s : Scopes) : Doing Value :=
  match step with
  | some e => e.value ui s
  | none => return .number 1.0

/-- The value that an assignment gives to a name. -/
def assigned (name : String) (op : Option BinaryOperator) (e : Expr) (s : Scopes) : Doing Value :=
  match op with
  | none => e.value ui s
  | some op => Talk.within s do
    let old ← readName s.lookup name
    let new ← e.evaluate ui s.lookup
    .calculate (op.apply old new)

/-- The text of a print statement. -/
def printed (e : Option Expr) (s : Scopes) : Doing Value :=
  match e with
  | some e => e.value ui s
  | none => return .text ""

mutual

/-- Runs a statement, of which no loop makes more than `n` passes. Routines are not for it. -/
def Stmt.interpret (n : Nat) : Stmt → Scopes → Doing Ending
  | .share _, s => return .done s
  | .declare names, s => return .done (s.declare names)
  | .constants definitions, s => return .done (s.define definitions)
  | .routine _ _ _ _, s | .exitRoutine, s | .call _ _, s => .fail (.internal, s)
  | .branch c yes, s => do
    if ← c.holds ui s then yes.interpret n s else return .done s
  | .branchElse c yes no, s => do
    if ← c.holds ui s then yes.interpret n s else no.interpret n s
  | .countLoop counter start limit step body, s => do
    let s ← s.store counter (← start.value ui s)
    let limit ← limit.value ui s
    let step ← stepValue ui step s
    repeated (countPass counter limit step (body.interpret n)) n s
  | .guardLoop head body tail, s => repeated (guardPass ui head tail (body.interpret n)) n s
  | .exitLoop kind _, s => return .exit kind s
  | .print e, s => do
    let v ← printed ui e s
    let _ ← .request (.print v.display)
    return .done s
  | .notify notice, s => do
    let _ ← .request (.notify notice)
    return .done s
  | .dialog d slots, s => do
    let _ ← Talk.within s do d.converse ui (← evaluateSlots ui s.lookup d.defaults slots)
    return .done s
  | .assign name op e, s => do
    return .done (← s.store name (← assigned ui name op e s))

/-- Runs statements in order. -/
def Block.interpret (n : Nat) : Block → Scopes → Doing Ending
  | .nil, s => return .done s
  | .cons _ first rest, s => do (← first.interpret n s).andThen (rest.interpret n)

end

end Interpreter

end MacroBasic
