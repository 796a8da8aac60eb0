/-
The instructions of a tree. An expression becomes code that leaves its value on the stack; a statement
becomes code that leaves the stack as it was. A `FOR` loop keeps its limit, its step and the address
behind it on the stack while it runs, a `DO` loop keeps the address behind it.

Every line bears the place of a statement: the one that began last in the text before the line was
made, so what a loop does after its body bears the place of the last statement of the body.
-/
import MacroBasic.Grammar.Tree

namespace MacroBasic

/-! ## Parameters of dialogs -/

namespace Dialog

/-- What the parameters of a dialog are when they are not given. -/
def defaults : Dialog → List Value
  | .message => [.number 0.0, .text ""]
  | .msgBox => [.text "", .number 0.0, .text ""]
  | .inputBox => [.text "", .text "", .text ""]

/-- How many further parameters are evaluated and dropped: the place of the input window. -/
def ignored : Dialog → Nat
  | .inputBox => 2
  | _ => 0

/-- The most parameters that can be given. -/
def most (d : Dialog) : Nat := d.defaults.length + d.ignored

/-- Whether the machine pushes an answer. -/
def answers : Dialog → Bool
  | .message => false
  | _ => true

end Dialog

/-! ## Sizes -/

mutual

/-- The number of instructions of an expression. -/
def Expr.size : Expr → Nat
  | .literal _ => 1
  | .variable _ => 1
  | .call r arguments => sizeOfAll arguments + 2 * r.parameters.length + 4
  | .unary _ e => e.size + 1
  | .binary _ l r => l.size + r.size + 1
  | .conjunction first rest => first.size + sizeOfRest rest + 4
  | .choice c x y => c.size + x.size + y.size + 2
  | .dialog d slots => sizeOfSlots d.defaults slots + (if d.answers then 1 else 2)

/-- The number of instructions of expressions one after the other. -/
def sizeOfAll : List Expr → Nat
  | [] => 0
  | e :: rest => e.size + sizeOfAll rest

/-- The number of instructions of operands that each follow a branch. -/
def sizeOfRest : List Expr → Nat
  | [] => 0
  | e :: rest => e.size + 1 + sizeOfRest rest

/-- The number of instructions of the parameters of a dialog, given the defaults still to be used. -/
def sizeOfSlots (defaults : List Value) : List Slot → Nat
  | [] => defaults.length
  | s :: rest => s.size defaults.isEmpty + sizeOfSlots defaults.tail rest

/-- The number of instructions of one parameter, which is dropped when it is beyond the used ones. -/
def Slot.size (dropped : Bool) : Slot → Nat
  | .omitted => if dropped then 0 else 1
  | .given e => e.size + if dropped then 1 else 0

end

/-! ## Code of expressions -/

/-- Binds parameters to the values on the stack, the last one to the top. -/
def bindParameters (parameters : List String) : List Instruction :=
  parameters.reverse.flatMap fun p => [.allocVar p, .assign p]

/-- The call of a routine once its arguments are on the stack. -/
def Routine.enter (r : Routine) : List Instruction :=
  bindParameters r.parameters ++ [.call r.entry, .popScope]

mutual

/-- The instructions of an expression that begins at address `a`. -/
def Expr.code (a : Address) : Expr → List Instruction
  | .literal v => [.pushValue v]
  | .variable name => [.pushVariable name]
  | .call r arguments =>
    .pushScope :: codeOfAll (a + 1) arguments ++ r.enter ++ [.pushVariable r.name]
  | .unary op e => e.code a ++ [.unary op]
  | .binary op l r => l.code a ++ r.code (a + l.size) ++ [.binary op]
  | .conjunction first rest =>
    let fails := a + first.size + sizeOfRest rest + 3
    first.code a ++ codeOfRest fails (a + first.size) rest ++
      [.jumpFalse fails, .pushValue (.boolean true), .jump (fails + 1), .pushValue (.boolean false)]
  | .choice c x y =>
    let no := a + c.size + x.size + 2
    c.code a ++ .jumpFalse no :: x.code (a + c.size + 1) ++ .jump (no + y.size) :: y.code no
  | .dialog d slots =>
    codeOfSlots a d.defaults slots ++ .dialog d ::
      if d.answers then [] else [.pushValue (.boolean true)]

/-- The instructions of expressions one after the other. -/
def codeOfAll (a : Address) : List Expr → List Instruction
  | [] => []
  | e :: rest => e.code a ++ codeOfAll (a + e.size) rest

/-- The instructions of operands that are only reached while the ones before them are true. -/
def codeOfRest (fails a : Address) : List Expr → List Instruction
  | [] => []
  | e :: rest => .jumpFalse fails :: e.code (a + 1) ++ codeOfRest fails (a + 1 + e.size) rest

/-- The instructions of the parameters of a dialog, given the defaults still to be used. -/
def codeOfSlots (a : Address) (defaults : List Value) : List Slot → List Instruction
  | [] => defaults.map .pushValue
  | s :: rest =>
    s.code a defaults.head? ++ codeOfSlots (a + s.size defaults.isEmpty) defaults.tail rest

/-- The instructions of one parameter; one without a default is dropped. -/
def Slot.code (a : Address) (standard : Option Value) : Slot → List Instruction
  | .omitted => (standard.map Instruction.pushValue).toList
  | .given e => e.code a ++ if standard.isNone then [.pop] else []

end

/-! ## Parts of statements -/

/-- The number of values a loop keeps on the stack. -/
def Loop.kept : Loop → Nat
  | .doLoop => 1
  | .forLoop => 3

/-- The number of values that loops keep on the stack together. -/
def keptBy : List Loop → Nat
  | [] => 0
  | loop :: rest => loop.kept + keptBy rest

/-- The test `(limit - counter) * step >= 0` of a counting loop, above its kept values. -/
def countTest (counter : String) : List Instruction :=
  [.copy 2, .pushVariable counter, .binary .subtract, .copy 2, .binary .multiply,
   .pushValue (.number 0.0), .binary .greaterEqual]

/-- The number of instructions of an optional step. -/
def stepSize (step : Option Expr) : Nat :=
  match step with
  | some e => e.size
  | none => 1

/-- The instructions of an optional step, which is one when it is not given. -/
def stepCode (a : Address) (step : Option Expr) : List Instruction :=
  match step with
  | some e => e.code a
  | none => [.pushValue (.number 1.0)]

/-- The number of instructions of a counting loop before its body. -/
def countHeadSize (start limit : Expr) (step : Option Expr) : Nat :=
  start.size + limit.size + stepSize step + 10

/-- The number of instructions of the condition at the head of a loop. -/
def headSize (head : Option Guard) : Nat :=
  match head with
  | some g => g.condition.size + 1
  | none => 0

/-- Leaves a loop for the given address when the condition at its head says so. -/
def headCode (a exit : Address) (head : Option Guard) : List Instruction :=
  match head with
  | some g => g.condition.code a ++ [if g.untilTrue then .jumpTrue exit else .jumpFalse exit]
  | none => []

/-- The number of instructions that close a loop. -/
def tailSize (tail : Option Guard) : Nat :=
  match tail with
  | some g => g.condition.size + 1
  | none => 1

/-- Goes back to the given address when the condition at the end of a loop says so. -/
def tailCode (a back : Address) (tail : Option Guard) : List Instruction :=
  match tail with
  | some g => g.condition.code a ++ [if g.untilTrue then .jumpFalse back else .jumpTrue back]
  | none => [.jump back]

/-- The number of instructions before the body of a routine. -/
def routineHeadSize (isFunction : Bool) : Nat := if isFunction then 2 else 1

/-- The number of instructions of an optional expression to print. -/
def printSize (e : Option Expr) : Nat :=
  match e with
  | some e => e.size
  | none => 1

/-- The instructions of an optional expression to print. -/
def printCode (a : Address) (e : Option Expr) : List Instruction :=
  match e with
  | some e => e.code a
  | none => [.pushValue (.text "")]

/-- Instructions that all bear the same place. -/
def mark (p : Position) (code : List Instruction) : List Line := code.map (⟨·, p⟩)

/-! ## Statements -/

mutual

/-- The number of instructions of a statement. -/
def Stmt.size : Stmt → Nat
  | .share _ => 0
  | .declare names => names.length
  | .constants definitions => definitions.length
  | .routine isFunction _ _ body => routineHeadSize isFunction + body.size + 1
  | .branch c yes => c.size + yes.size + 1
  | .branchElse c yes no => c.size + yes.size + no.size + 2
  | .countLoop _ start limit step body => countHeadSize start limit step + body.size + 15
  | .guardLoop head body tail => headSize head + body.size + tailSize tail + 2
  | .exitLoop _ inner => keptBy inner + 1
  | .exitRoutine => 1
  | .print e => printSize e + 1
  | .notify _ => 1
  | .dialog d slots => sizeOfSlots d.defaults slots + (if d.answers then 2 else 1)
  | .assign _ op e => (if op.isSome then 2 else 0) + e.size + 1
  | .call r arguments => sizeOfAll arguments + 2 * r.parameters.length + 3

/-- The number of instructions of a block. -/
def Block.size : Block → Nat
  | .nil => 0
  | .cons _ first rest => first.size + rest.size

end

mutual

/-- The place of the statement that begins last in a statement that begins at `p`. -/
def Stmt.lastPlace (p : Position) : Stmt → Position
  | .routine _ _ _ body => body.lastPlace p
  | .branch _ yes => yes.lastPlace p
  | .branchElse _ yes no => no.lastPlace (yes.lastPlace p)
  | .countLoop _ _ _ _ body => body.lastPlace p
  | .guardLoop _ body _ => body.lastPlace p
  | _ => p

/-- The place of the statement that begins last in a block, or `p` if the block is empty. -/
def Block.lastPlace (p : Position) : Block → Position
  | .nil => p
  | .cons q first rest => rest.lastPlace (first.lastPlace q)

end

mutual

/-- The lines of a statement that begins at place `p` and at address `a`. -/
def Stmt.lines (a : Address) (p : Position) : Stmt → List Line
  | .share _ => []
  | .declare names => mark p (names.map .allocVar)
  | .constants definitions => mark p (definitions.map fun (name, v) => .allocConst name v)
  | .routine isFunction name _ body =>
    let entry := a + routineHeadSize isFunction
    mark p ((if isFunction then [.allocVar name] else []) ++ [.jump (entry + body.size + 1)]) ++
      body.lines entry ++ mark (body.lastPlace p) [.ret]
  | .branch c yes =>
    let start := a + c.size + 1
    mark p (c.code a ++ [.jumpFalse (start + yes.size)]) ++ yes.lines start
  | .branchElse c yes no =>
    let start := a + c.size + 1
    let otherwise := start + yes.size + 1
    mark p (c.code a ++ [.jumpFalse otherwise]) ++ yes.lines start ++
      mark (yes.lastPlace p) [.jump (otherwise + no.size)] ++ no.lines otherwise
  | .countLoop counter start limit step body =>
    let again := a + countHeadSize start limit step
    let done := again + body.size + 12
    let head := start.code a ++ .assign counter :: limit.code (a + start.size + 1) ++
      stepCode (a + start.size + 1 + limit.size) step ++ .pushValue (.address (done + 1)) ::
      countTest counter ++ [.jumpFalse done]
    let tail := [.copy 1, .pushVariable counter, .binary .add, .assign counter] ++
      countTest counter ++ [.jumpTrue again, .pop, .pop, .pop]
    mark p head ++ body.lines again ++ mark (body.lastPlace p) tail
  | .guardLoop head body tail =>
    let start := a + 1 + headSize head
    let done := start + body.size + tailSize tail
    mark p (.pushValue (.address (done + 1)) :: headCode (a + 1) done head) ++ body.lines start ++
      mark (body.lastPlace p) (tailCode (start + body.size) (a + 1) tail ++ [.pop])
  | .exitLoop _ inner => mark p (List.replicate (keptBy inner) .pop ++ [.jumpPop])
  | .exitRoutine => mark p [.ret]
  | .print e => mark p (printCode a e ++ [.print])
  | .notify n => mark p [.notify n]
  | .dialog d slots =>
    mark p (codeOfSlots a d.defaults slots ++ .dialog d :: if d.answers then [.pop] else [])
  | .assign name none e => mark p (e.code a ++ [.assign name])
  | .assign name (some op) e =>
    mark p (.pushVariable name :: e.code (a + 1) ++ [.binary op, .assign name])
  | .call r arguments => mark p (.pushScope :: codeOfAll (a + 1) arguments ++ r.enter)

/-- The lines of a block that begins at address `a`. -/
def Block.lines (a : Address) : Block → List Line
  | .nil => []
  | .cons p first rest => first.lines a p ++ rest.lines (a + first.size)

end

/-! ## Sizes are lengths -/

@[simp] theorem length_bindParameters (parameters : List String) :
    (bindParameters parameters).length = 2 * parameters.length := by
  have all (l : List String) :
      (l.flatMap fun p => [Instruction.allocVar p, .assign p]).length = 2 * l.length := by
    induction l with
    | nil => rfl
    | cons p rest ih => simp only [List.flatMap_cons, List.length_append, List.length_cons, ih]; simp; omega
  rw [bindParameters, all, List.length_reverse]

@[simp] theorem Routine.length_enter (r : Routine) : r.enter.length = 2 * r.parameters.length + 2 := by
  simp [Routine.enter]

mutual

/-- An expression has as many instructions as its size says, wherever it begins. -/
@[simp] theorem Expr.length_code (a : Address) : (e : Expr) → (e.code a).length = e.size
  | .literal _ => rfl
  | .variable _ => rfl
  | .call r arguments => by
    simp [Expr.code, Expr.size, length_codeOfAll (a + 1) arguments]; omega
  | .unary _ e => by simp [Expr.code, Expr.size, Expr.length_code a e]
  | .binary _ l r => by
    simp [Expr.code, Expr.size, Expr.length_code a l, Expr.length_code (a + l.size) r]; omega
  | .conjunction first rest => by
    simp [Expr.code, Expr.size, Expr.length_code a first, length_codeOfRest _ (a + first.size) rest]
    omega
  | .choice c x y => by
    simp [Expr.code, Expr.size, Expr.length_code a c, Expr.length_code _ x, Expr.length_code _ y]
    omega
  | .dialog d slots => by
    simp only [Expr.code, Expr.size, List.length_append, List.length_cons,
      length_codeOfSlots a d.defaults slots]
    split <;> simp

theorem length_codeOfAll (a : Address) : (l : List Expr) → (codeOfAll a l).length = sizeOfAll l
  | [] => rfl
  | e :: rest => by
    simp [codeOfAll, sizeOfAll, Expr.length_code a e, length_codeOfAll (a + e.size) rest]

theorem length_codeOfRest (fails a : Address) :
    (l : List Expr) → (codeOfRest fails a l).length = sizeOfRest l
  | [] => rfl
  | e :: rest => by
    simp [codeOfRest, sizeOfRest, Expr.length_code (a + 1) e,
      length_codeOfRest fails (a + 1 + e.size) rest]
    omega

theorem length_codeOfSlots (a : Address) (defaults : List Value) :
    (l : List Slot) → (codeOfSlots a defaults l).length = sizeOfSlots defaults l
  | [] => by simp [codeOfSlots, sizeOfSlots]
  | s :: rest => by
    simp only [codeOfSlots, sizeOfSlots, List.length_append,
      Slot.length_code a defaults.head? s, length_codeOfSlots _ defaults.tail rest]
    cases defaults <;> rfl

theorem Slot.length_code (a : Address) (standard : Option Value) :
    (s : Slot) → (s.code a standard).length = s.size standard.isNone
  | .omitted => by cases standard <;> rfl
  | .given e => by
    simp only [Slot.code, Slot.size, List.length_append, Expr.length_code a e]
    split <;> rfl

end

@[simp] theorem length_mark (p : Position) (code : List Instruction) :
    (mark p code).length = code.length := by simp [mark]

@[simp] theorem length_stepCode (a : Address) (step : Option Expr) :
    (stepCode a step).length = stepSize step := by
  cases step <;> simp [stepCode, stepSize]

@[simp] theorem length_headCode (a exit : Address) (head : Option Guard) :
    (headCode a exit head).length = headSize head := by
  cases head <;> simp [headCode, headSize]

@[simp] theorem length_tailCode (a back : Address) (tail : Option Guard) :
    (tailCode a back tail).length = tailSize tail := by
  cases tail <;> simp [tailCode, tailSize]

@[simp] theorem length_printCode (a : Address) (e : Option Expr) :
    (printCode a e).length = printSize e := by
  cases e <;> simp [printCode, printSize]

@[simp] theorem length_countTest (counter : String) : (countTest counter).length = 7 := rfl

mutual

/-- A statement has as many lines as its size says, wherever it begins. -/
@[simp] theorem Stmt.length_lines (a : Address) (p : Position) :
    (s : Stmt) → (s.lines a p).length = s.size
  | .share _ => rfl
  | .declare names => by simp [Stmt.lines, Stmt.size]
  | .constants definitions => by simp [Stmt.lines, Stmt.size]
  | .routine isFunction name _ body => by
    simp only [Stmt.lines, Stmt.size, List.length_append, length_mark, Block.length_lines _ body]
    cases isFunction <;> simp [routineHeadSize]
  | .branch c yes => by simp [Stmt.lines, Stmt.size, Block.length_lines _ yes]; omega
  | .branchElse c yes no => by
    simp [Stmt.lines, Stmt.size, Block.length_lines _ yes, Block.length_lines _ no]; omega
  | .countLoop counter start limit step body => by
    simp [Stmt.lines, Stmt.size, countHeadSize, Block.length_lines _ body]; omega
  | .guardLoop head body tail => by
    simp [Stmt.lines, Stmt.size, Block.length_lines _ body]; omega
  | .exitLoop _ inner => by simp [Stmt.lines, Stmt.size]
  | .exitRoutine => rfl
  | .print e => by simp [Stmt.lines, Stmt.size]
  | .notify _ => rfl
  | .dialog d slots => by
    simp only [Stmt.lines, Stmt.size, length_mark, List.length_append, List.length_cons,
      length_codeOfSlots]
    split <;> rfl
  | .assign name none e => by simp [Stmt.lines, Stmt.size]
  | .assign name (some op) e => by simp [Stmt.lines, Stmt.size]; omega
  | .call r arguments => by simp [Stmt.lines, Stmt.size, length_codeOfAll]; omega

/-- A block has as many lines as its size says, wherever it begins. -/
@[simp] theorem Block.length_lines (a : Address) : (b : Block) → (b.lines a).length = b.size
  | .nil => rfl
  | .cons p first rest => by
    simp [Block.lines, Block.size, Stmt.length_lines a p first, Block.length_lines _ rest]

end

end MacroBasic
