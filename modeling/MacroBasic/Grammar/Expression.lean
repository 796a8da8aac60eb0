/-
Parsing of expressions. From the loosest to the tightest binding they are made with `OR`, with `AND`,
with relations, with the operators of sums, of products and of powers, all taken from left to right,
then with the factorial sign behind an operand and the signs in front of one. Parsing an expression
looks names up and declares none.
-/
import MacroBasic.Grammar.Assembly
import MacroBasic.Grammar.Context

namespace MacroBasic.Grammar

/-! ## Levels -/

/-- The levels of operators that are taken from left to right, two operands at a time. -/
inductive Level where
  | relation
  | sum
  | product
  | power
deriving DecidableEq, Repr

namespace Level

/-- The operators of a level. -/
def accepts : Level → BinaryOperator → Bool
  | .relation, .equal | .relation, .notEqual | .relation, .less | .relation, .lessEqual
  | .relation, .greater | .relation, .greaterEqual => true
  | .sum, .add | .sum, .subtract | .sum, .concat | .sum, .modulus => true
  | .product, .multiply | .product, .divide | .product, .divideInt => true
  | .power, .power => true
  | _, _ => false

/-- The next tighter level. -/
def tighter? : Level → Option Level
  | .relation => some .sum
  | .sum => some .product
  | .product => some .power
  | .power => none

/-- How loosely the operators of a level bind. -/
def rank : Level → Nat
  | .relation => 8
  | .sum => 6
  | .product => 4
  | .power => 2

theorem rank_tighter {l m : Level} (h : l.tighter? = some m) : m.rank + 1 < l.rank := by
  cases l <;> cases m <;> simp_all [tighter?, rank]

theorem one_lt_rank (l : Level) : 1 < l.rank := by cases l <;> simp [rank]

theorem rank_le (l : Level) : l.rank ≤ 8 := by cases l <;> simp [rank]

end Level

/-- The operator of a level that a symbol is. -/
def Level.operator? (l : Level) (sym : Symbol) : Option BinaryOperator :=
  match sym.token with
  | .operator (.binary op) => if l.accepts op then some op else none
  | _ => none

/-! ## Operands without parts -/

/-- The value that a word stands for. -/
def wordValue? : Word → Option Value
  | .trueWord => some (.boolean true)
  | .falseWord => some (.boolean false)
  | .pi => some (.number 3.141592653589793)
  | .vbCrLf => some (.text "\r\n")
  | .vbTab => some (.text "\t")
  | .vbCr => some (.text "\r")
  | .vbLf => some (.text "\n")
  | _ => none

/-- The function of one number that a word stands for. -/
def wordFunction? : Word → Option UnaryOperator
  | .sin => some .sin
  | .cos => some .cos
  | .tan => some .tan
  | .atan => some .atan
  | _ => none

/-- The dialog that a word stands for. -/
def wordDialog? : Word → Option Dialog
  | .message => some .message
  | .msgBox => some .msgBox
  | .inputBox => some .inputBox
  | _ => none

/-- The literal, word or sign that an operand begins with. -/
inductive Opening where
  | value (v : Value)
  | sign (op : Option UnaryOperator)
  | function (name : String) (op : UnaryOperator)
  | choice
  | dialog (d : Dialog)
  | group
  | name
  | none

/-- What a symbol opens when it stands where an operand is expected. -/
def opening (sym : Symbol) : Opening :=
  match sym.token with
  | .number | .string => .value (sym.value.getD .uninitialized)
  | .operator (.binary .subtract) => .sign (some .negate)
  | .operator (.binary .add) => .sign .none
  | .operator .not => .sign (some .not)
  | .name => .name
  | .openParen => .group
  | .word w =>
    match wordValue? w, wordFunction? w, wordDialog? w with
    | some v, _, _ => .value v
    | _, some op, _ => .function w.spelling op
    | _, _, some d => .dialog d
    | _, _, _ => if w = .iif then .choice else .none
  | _ => .none

/-- The factorial signs behind an operand. -/
def factorials (env : Context) (e : Expr) (s : List Symbol) : Except Fault (Passed Expr s.length) :=
  match s with
  | [] => .ok (.stay e [])
  | sym :: rest =>
    if sym.token = .operator .factorial then do
      env.arrive rest
      return (← factorials env (.unary .factorial e) rest).behind sym
    else .ok (.stay e (sym :: rest))

/-- The routine that a called name stands for. -/
def routineOf (env : Context) (name : Symbol) : Except Fault Routine :=
  match env.names.get? name.text with
  | some b =>
    if b.isRoutine then
      match b.address with
      | some entry => .ok ⟨name.text, entry, b.parameters⟩
      | none => .error (name.fault .internal "ROUTINE WITHOUT ADDRESS")
    else .error (Context.unknownRoutine name)
  | none => .error (Context.unknownRoutine name)

/-! ## Expressions -/

mutual

/-- An expression: operands joined by `OR`. -/
def expression (env : Context) (s : List Symbol) : Except Fault (Parsed Expr s.length) := do
  let ⟨first, r, h⟩ ← conjunction env s
  return (← alternatives env first r).inside h
termination_by 16 * s.length + 11

/-- The further operands joined by `OR`. -/
def alternatives (env : Context) (left : Expr) (s : List Symbol) :
    Except Fault (Passed Expr s.length) :=
  match s with
  | [] => .ok (.stay left [])
  | sym :: rest =>
    if sym.token = .operator (.binary .or) then do
      env.arrive rest
      let ⟨right, r, h⟩ ← conjunction env rest
      return ((← alternatives env (.binary .or left right) r).inside h).passed.behind sym
    else .ok (.stay left (sym :: rest))
termination_by 16 * s.length

/-- Operands joined by `AND`. -/
def conjunction (env : Context) (s : List Symbol) : Except Fault (Parsed Expr s.length) := do
  let ⟨first, r, h⟩ ← chain env .relation s
  let joined (more : List Expr) : Expr := if more.isEmpty then first else .conjunction first more
  return ((← conjuncts env r).map joined).inside h
termination_by 16 * s.length + 10
decreasing_by all_goals have := Level.relation.rank_le; omega

/-- The further operands joined by `AND`. -/
def conjuncts (env : Context) (s : List Symbol) : Except Fault (Passed (List Expr) s.length) :=
  match s with
  | [] => .ok (.stay [] [])
  | sym :: rest =>
    if sym.token = .operator (.binary .and) then do
      env.arrive rest
      let ⟨e, r, h⟩ ← chain env .relation rest
      return (((← conjuncts env r).map (e :: ·)).inside h).passed.behind sym
    else .ok (.stay [] (sym :: rest))
termination_by 16 * s.length
decreasing_by all_goals have := Level.relation.rank_le; simp only [List.length_cons]; omega

/-- Operands joined by the operators of a level. -/
def chain (env : Context) (l : Level) (s : List Symbol) : Except Fault (Parsed Expr s.length) := do
  let ⟨first, r, h⟩ ← chainOperand env l s
  return (← chainRest env l first r).inside h
termination_by 16 * s.length + l.rank + 1

/-- An operand of the operators of a level. -/
def chainOperand (env : Context) (l : Level) (s : List Symbol) :
    Except Fault (Parsed Expr s.length) :=
  match _h : l.tighter? with
  | some m => chain env m s
  | none => factorial env s
termination_by 16 * s.length + l.rank
decreasing_by
  · exact Nat.add_lt_add_left (Level.rank_tighter _h) _
  · exact Nat.add_lt_add_left (Level.one_lt_rank l) _

/-- The further operands joined by the operators of a level. -/
def chainRest (env : Context) (l : Level) (left : Expr) (s : List Symbol) :
    Except Fault (Passed Expr s.length) :=
  match s with
  | [] => .ok (.stay left [])
  | sym :: rest =>
    match l.operator? sym with
    | some op => do
      env.arrive rest
      let ⟨right, r, h⟩ ← chainOperand env l rest
      return ((← chainRest env l (.binary op left right) r).inside h).passed.behind sym
    | none => .ok (.stay left (sym :: rest))
termination_by 16 * s.length
decreasing_by all_goals have := l.rank_le; simp only [List.length_cons]; omega

/-- An operand with the factorial signs behind it. -/
def factorial (env : Context) (s : List Symbol) : Except Fault (Parsed Expr s.length) := do
  let ⟨first, r, h⟩ ← operand env s
  return (← factorials env first r).inside h
termination_by 16 * s.length + 1

/-- An operand. -/
def operand (env : Context) (s : List Symbol) : Except Fault (Parsed Expr s.length) :=
  match s with
  | [] => .error (env.missingOperand [])
  | sym :: rest =>
    match opening sym with
    | .value v => do
      env.arrive rest
      return .one (.literal v) sym rest
    | .sign op => do
      env.arrive rest
      let signed (e : Expr) : Expr := match op with
        | some op => .unary op e
        | none => e
      return ((← operand env rest).map signed).passed.past sym
    | .function name op => do
      env.arrive rest
      let ⟨_, r, h⟩ ← env.require .openParen rest (env.missingOpen rest ("after " ++ name))
      let ⟨e, r', h'⟩ ← expression env r
      let ⟨_, r'', h''⟩ ← env.requireClose r' ("after " ++ name ++ " argument")
      return ⟨.unary op e, r'', by simp only [List.length_cons]; omega⟩
    | .choice => do
      env.arrive rest
      let ⟨_, r, h⟩ ← env.require .openParen rest (env.missingOpen rest "after IIF")
      let ⟨c, r, h⟩ ← expression env r
      let ⟨_, r, h⟩ ← env.require .comma r (env.missingComma r "after IIF condition")
      let ⟨x, r, h⟩ ← expression env r
      let ⟨_, r, h⟩ ← env.require .comma r (env.missingComma r "after IIF true value")
      let ⟨y, r, h⟩ ← expression env r
      let ⟨_, r, h⟩ ← env.requireClose r "after IIF"
      return ⟨.choice c x y, r, by simp only [List.length_cons]; omega⟩
    | .dialog d => do
      env.arrive rest
      return ((← dialogSlots env d false rest).map (.dialog d)).past sym
    | .group => do
      env.arrive rest
      let ⟨e, r, h⟩ ← expression env rest
      let ⟨_, r', h'⟩ ← env.requireClose r "in expression"
      return ⟨e, r', by simp only [List.length_cons]; omega⟩
    | .name =>
      match (env.names.get? sym.text).map Binding.kind with
      | some .function => do
        env.arrive rest
        return ((← call env sym true rest).map fun (r, arguments) => .call r arguments).past sym
      | some .sub =>
        .error (sym.fault .subInExpression s!"Cannot call sub '{sym.text}' in an expression")
      | known =>
        if known.isNone && env.explicit then
          .error (sym.fault .unknownIdentifier s!"Identifier '{sym.text}' is not declared")
        else do
          env.arrive rest
          return .one (.variable sym.text) sym rest
    | .none => .error (env.missingOperand (sym :: rest))
termination_by 16 * s.length

/-- The arguments of a call: at least one, divided by commas. -/
def arguments (env : Context) (s : List Symbol) : Except Fault (Parsed (List Expr) s.length) := do
  let ⟨e, r, h⟩ ← expression env s
  return ((← moreArguments env r).map (e :: ·)).inside h
termination_by 16 * s.length + 12

/-- The further arguments of a call, each behind a comma. -/
def moreArguments (env : Context) (s : List Symbol) : Except Fault (Passed (List Expr) s.length) :=
  match s with
  | [] => .ok (.stay [] [])
  | sym :: rest =>
    if sym.token = .comma then do
      env.arrive rest
      return (← arguments env rest).passed.behind sym
    else .ok (.stay [] (sym :: rest))
termination_by 16 * s.length

/-- The arguments behind the name of a routine: in parentheses or, in a statement, also without. -/
def callArguments (env : Context) (inExpression : Bool) (s : List Symbol) :
    Except Fault (Passed (List Expr) s.length) :=
  match s with
  | [] => .ok (.stay [] [])
  | sym :: rest =>
    if sym.token = .openParen then do
      env.arrive rest
      if env.token rest = .closeParen then
        let closed ← env.requireClose rest "after function parameters"
        return (closed.map fun _ => []).passed.behind sym
      else
        let ⟨found, r, h⟩ ← arguments env rest
        let ⟨_, r', h'⟩ ← env.requireClose r "after function parameters"
        return ⟨found, r', by simp only [List.length_cons]; omega⟩
    else if !inExpression && sym.token.startsExpression then do
      return (← arguments env (sym :: rest)).passed
    else .ok (.stay [] (sym :: rest))
termination_by 16 * s.length + 13

/-- The call of a routine, of which the symbols behind its name are given. -/
def call (env : Context) (name : Symbol) (inExpression : Bool) (s : List Symbol) :
    Except Fault (Passed (Routine × List Expr) s.length) := do
  let routine ← routineOf env name
  let ⟨found, r, h⟩ ← callArguments env inExpression s
  if found.length = routine.parameters.length then
    return ⟨(routine, found), r, h⟩
  else
    throw (Context.wrongCount name routine.parameters.length found.length)
termination_by 16 * s.length + 14

/-- What follows the word of a dialog: its parameters, in parentheses or, in a statement, also
without. -/
def dialogSlots (env : Context) (d : Dialog) (asStatement : Bool) (s : List Symbol) :
    Except Fault (Passed (List Slot) s.length) :=
  match s with
  | [] =>
    if asStatement then .ok (.stay [] [])
    else .error (env.missingOpen [] ("after " ++ d.mnemonic))
  | sym :: rest =>
    if sym.token = .openParen then do
      env.arrive rest
      if env.token rest = .closeParen then
        let closed ← env.requireClose rest ("after " ++ d.mnemonic ++ " parameters")
        return (closed.map fun _ => []).passed.behind sym
      else
        let ⟨found, r, h⟩ ← slots env d 0 rest
        let ⟨_, r', h'⟩ ← env.requireClose r ("after " ++ d.mnemonic ++ " parameters")
        return ⟨found, r', by simp only [List.length_cons]; omega⟩
    else if !asStatement then .error (env.missingOpen (sym :: rest) ("after " ++ d.mnemonic))
    else if sym.token.startsExpression || sym.token = .comma then slots env d 0 (sym :: rest)
    else .ok (.stay [] (sym :: rest))
termination_by 16 * s.length + 13

/-- The parameters of a dialog from the given one on, divided by commas. Each may be left out. -/
def slots (env : Context) (d : Dialog) (count : Nat) (s : List Symbol) :
    Except Fault (Passed (List Slot) s.length) :=
  if count = d.most then
    .error ((env.current s).fault .wrongNumberOfParameters
      s!"{d.mnemonic} takes at most {d.most} parameters")
  else if (env.token s).startsExpression then do
    let ⟨e, r, h⟩ ← expression env s
    return (((← moreSlots env d (count + 1) r).map (.given e :: ·)).inside h).passed
  else do
    return (← moreSlots env d (count + 1) s).map (.omitted :: ·)
termination_by 16 * s.length + 12

/-- The further parameters of a dialog, each behind a comma. -/
def moreSlots (env : Context) (d : Dialog) (count : Nat) (s : List Symbol) :
    Except Fault (Passed (List Slot) s.length) :=
  match s with
  | [] => .ok (.stay [] [])
  | sym :: rest =>
    if sym.token = .comma then do
      env.arrive rest
      return (← slots env d count rest).behind sym
    else .ok (.stay [] (sym :: rest))
termination_by 16 * s.length

end

end MacroBasic.Grammar
