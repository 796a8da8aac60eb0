/-
Writing expressions while they are parsed. The grammar is that of the trees; instead of a tree every part leaves its
instructions behind.
-/
import MacroBasic.Compiler.Draft
import MacroBasic.Grammar.Expression

namespace MacroBasic.Compiler

open Grammar

/-- The factorial signs behind an operand. -/
def factorials (env : Context) (s : List Symbol) : Writing (Passed Unit s.length) :=
  match s with
  | [] => return .stay () []
  | sym :: rest =>
    if sym.token = .operator .factorial then do
      discard <| write (.unary .factorial)
      env.arrive rest
      return (← factorials env rest).behind sym
    else return .stay () (sym :: rest)

/-- Ends operands joined by `AND`, of which the branches between them are given. -/
def closeConjunction (branches : List Address) : Writing Unit := do
  let last ← write (.jumpFalse 0)
  discard <| write (.pushValue (.boolean true))
  let done ← write (.jump 0)
  branches.forM land
  land last
  discard <| write (.pushValue (.boolean false))
  land done

/-- What follows a dialog. In a statement its answer is dropped; in an expression one is made up if it gives none. -/
def dialogEnd (d : Dialog) (asStatement : Bool) : List Instruction :=
  if asStatement then (if d.answers then [.pop] else [])
  else if d.answers then [] else [.pushValue (.boolean true)]

mutual

/-- An expression: operands joined by `OR`. -/
def expression (env : Context) (s : List Symbol) : Writing (Parsed Unit s.length) := do
  let ⟨_, r, h⟩ ← conjunction env s
  return (← alternatives env r).inside h
termination_by 16 * s.length + 11

/-- The further operands joined by `OR`. -/
def alternatives (env : Context) (s : List Symbol) : Writing (Passed Unit s.length) :=
  match s with
  | [] => return .stay () []
  | sym :: rest =>
    if sym.token = .operator (.binary .or) then do
      env.arrive rest
      let ⟨_, r, h⟩ ← conjunction env rest
      discard <| write (.binary .or)
      return ((← alternatives env r).inside h).passed.behind sym
    else return .stay () (sym :: rest)
termination_by 16 * s.length

/-- Operands joined by `AND`. -/
def conjunction (env : Context) (s : List Symbol) : Writing (Parsed Unit s.length) := do
  let ⟨_, r, h⟩ ← chain env .relation s
  let ⟨branches, r, h'⟩ ← conjuncts env r
  if !branches.isEmpty then closeConjunction branches
  return ⟨(), r, Nat.lt_of_le_of_lt h' h⟩
termination_by 16 * s.length + 10
decreasing_by all_goals have := Level.relation.rank_le; omega

/-- The further operands joined by `AND`, and the branches in front of them. -/
def conjuncts (env : Context) (s : List Symbol) : Writing (Passed (List Address) s.length) :=
  match s with
  | [] => return .stay [] []
  | sym :: rest =>
    if sym.token = .operator (.binary .and) then do
      let branch ← write (.jumpFalse 0)
      env.arrive rest
      let ⟨_, r, h⟩ ← chain env .relation rest
      return (((← conjuncts env r).map (branch :: ·)).inside h).passed.behind sym
    else return .stay [] (sym :: rest)
termination_by 16 * s.length
decreasing_by all_goals have := Level.relation.rank_le; simp only [List.length_cons]; omega

/-- Operands joined by the operators of a level. -/
def chain (env : Context) (l : Level) (s : List Symbol) : Writing (Parsed Unit s.length) := do
  let ⟨_, r, h⟩ ← chainOperand env l s
  return (← chainRest env l r).inside h
termination_by 16 * s.length + l.rank + 1

/-- An operand of the operators of a level. -/
def chainOperand (env : Context) (l : Level) (s : List Symbol) : Writing (Parsed Unit s.length) :=
  match _h : l.tighter? with
  | some m => chain env m s
  | none => factorial env s
termination_by 16 * s.length + l.rank
decreasing_by
  · exact Nat.add_lt_add_left (Level.rank_tighter _h) _
  · exact Nat.add_lt_add_left (Level.one_lt_rank l) _

/-- The further operands joined by the operators of a level. -/
def chainRest (env : Context) (l : Level) (s : List Symbol) : Writing (Passed Unit s.length) :=
  match s with
  | [] => return .stay () []
  | sym :: rest =>
    match l.operator? sym with
    | some op => do
      env.arrive rest
      let ⟨_, r, h⟩ ← chainOperand env l rest
      discard <| write (.binary op)
      return ((← chainRest env l r).inside h).passed.behind sym
    | none => return .stay () (sym :: rest)
termination_by 16 * s.length
decreasing_by all_goals have := l.rank_le; simp only [List.length_cons]; omega

/-- An operand with the factorial signs behind it. -/
def factorial (env : Context) (s : List Symbol) : Writing (Parsed Unit s.length) := do
  let ⟨_, r, h⟩ ← operand env s
  return (← factorials env r).inside h
termination_by 16 * s.length + 1

/-- An operand. -/
def operand (env : Context) (s : List Symbol) : Writing (Parsed Unit s.length) :=
  match s with
  | [] => throw (env.missingOperand [])
  | sym :: rest =>
    match opening sym with
    | .value v => do
      discard <| write (.pushValue v)
      env.arrive rest
      return .one () sym rest
    | .sign op => do
      env.arrive rest
      let p ← operand env rest
      writeAll (op.map Instruction.unary).toList
      return p.passed.past sym
    | .function name op => do
      env.arrive rest
      let ⟨_, r, h⟩ ← env.require .openParen rest (env.missingOpen rest ("after " ++ name))
      let ⟨_, r', h'⟩ ← expression env r
      let ⟨_, r'', h''⟩ ← env.requireClose r' ("after " ++ name ++ " argument")
      discard <| write (.unary op)
      return ⟨(), r'', by simp only [List.length_cons]; omega⟩
    | .choice => do
      env.arrive rest
      let ⟨_, r, h⟩ ← env.require .openParen rest (env.missingOpen rest "after IIF")
      let ⟨_, r, h⟩ ← expression env r
      let no ← write (.jumpFalse 0)
      let ⟨_, r, h⟩ ← env.require .comma r (env.missingComma r "after IIF condition")
      let ⟨_, r, h⟩ ← expression env r
      let done ← write (.jump 0)
      land no
      let ⟨_, r, h⟩ ← env.require .comma r (env.missingComma r "after IIF true value")
      let ⟨_, r, h⟩ ← expression env r
      land done
      let ⟨_, r, h⟩ ← env.requireClose r "after IIF"
      return ⟨(), r, by simp only [List.length_cons]; omega⟩
    | .dialog d => do
      env.arrive rest
      return (← dialog env d false rest).past sym
    | .group => do
      env.arrive rest
      let ⟨_, r, h⟩ ← expression env rest
      let ⟨_, r', h'⟩ ← env.requireClose r "in expression"
      return ⟨(), r', by simp only [List.length_cons]; omega⟩
    | .name =>
      match (env.names.get? sym.text).map Binding.kind with
      | some .function => do
        env.arrive rest
        let p ← call env sym true rest
        discard <| write (.pushVariable sym.text)
        return p.past sym
      | some .sub =>
        throw (sym.fault .subInExpression s!"Cannot call sub '{sym.text}' in an expression")
      | known =>
        if known.isNone && env.explicit then
          throw (sym.fault .unknownIdentifier s!"Identifier '{sym.text}' is not declared")
        else do
          discard <| write (.pushVariable sym.text)
          env.arrive rest
          return .one () sym rest
    | .none => throw (env.missingOperand (sym :: rest))
termination_by 16 * s.length

/-- The arguments of a call and their number: at least one, divided by commas. -/
def arguments (env : Context) (s : List Symbol) : Writing (Parsed Nat s.length) := do
  let ⟨_, r, h⟩ ← expression env s
  return ((← moreArguments env r).map (· + 1)).inside h
termination_by 16 * s.length + 12

/-- The further arguments of a call, each behind a comma. -/
def moreArguments (env : Context) (s : List Symbol) : Writing (Passed Nat s.length) :=
  match s with
  | [] => return .stay 0 []
  | sym :: rest =>
    if sym.token = .comma then do
      env.arrive rest
      return (← arguments env rest).passed.behind sym
    else return .stay 0 (sym :: rest)
termination_by 16 * s.length

/-- The arguments behind the name of a routine: in parentheses or, in a statement, also without. -/
def callArguments (env : Context) (inExpression : Bool) (s : List Symbol) : Writing (Passed Nat s.length) :=
  match s with
  | [] => return .stay 0 []
  | sym :: rest =>
    if sym.token = .openParen then do
      env.arrive rest
      if env.token rest = .closeParen then
        let closed ← env.requireClose rest "after function parameters"
        return (closed.map fun _ => 0).passed.behind sym
      else
        let ⟨found, r, h⟩ ← arguments env rest
        let ⟨_, r', h'⟩ ← env.requireClose r "after function parameters"
        return ⟨found, r', by simp only [List.length_cons]; omega⟩
    else if !inExpression && sym.token.startsExpression then do
      return (← arguments env (sym :: rest)).passed
    else return .stay 0 (sym :: rest)
termination_by 16 * s.length + 13

/-- The call of a routine, of which the symbols behind its name are given. -/
def call (env : Context) (name : Symbol) (inExpression : Bool) (s : List Symbol) :
    Writing (Passed Unit s.length) := do
  let routine ← routineOf env name
  discard <| write .pushScope
  let ⟨found, r, h⟩ ← callArguments env inExpression s
  if found = routine.parameters.length then
    writeAll routine.enter
    return ⟨(), r, h⟩
  else
    throw (Context.wrongCount name routine.parameters.length found)
termination_by 16 * s.length + 14

/-- A dialog, of which the symbols behind its word are given. -/
def dialog (env : Context) (d : Dialog) (asStatement : Bool) (s : List Symbol) : Writing (Passed Unit s.length) := do
  let p ← dialogSlots env d asStatement s
  writeAll (.dialog d :: dialogEnd d asStatement)
  return p
termination_by 16 * s.length + 14

/-- The parameters of a dialog, in parentheses or, in a statement, also without. -/
def dialogSlots (env : Context) (d : Dialog) (asStatement : Bool) (s : List Symbol) :
    Writing (Passed Unit s.length) :=
  match s with
  | [] =>
    if asStatement then do
      writeAll (d.defaults.map .pushValue)
      return .stay () []
    else throw (env.missingOpen [] ("after " ++ d.mnemonic))
  | sym :: rest =>
    if sym.token = .openParen then do
      env.arrive rest
      if env.token rest = .closeParen then
        writeAll (d.defaults.map .pushValue)
        let closed ← env.requireClose rest ("after " ++ d.mnemonic ++ " parameters")
        return (closed.map fun _ => ()).passed.behind sym
      else
        let ⟨_, r, h⟩ ← slots env d 0 rest
        let ⟨_, r', h'⟩ ← env.requireClose r ("after " ++ d.mnemonic ++ " parameters")
        return ⟨(), r', by simp only [List.length_cons]; omega⟩
    else if !asStatement then throw (env.missingOpen (sym :: rest) ("after " ++ d.mnemonic))
    else if sym.token.startsExpression || sym.token = .comma then slots env d 0 (sym :: rest)
    else do
      writeAll (d.defaults.map .pushValue)
      return .stay () (sym :: rest)
termination_by 16 * s.length + 13

/-- The parameters of a dialog from the given one on, divided by commas. Each may be left out. -/
def slots (env : Context) (d : Dialog) (count : Nat) (s : List Symbol) : Writing (Passed Unit s.length) :=
  if count = d.most then
    throw ((env.current s).fault .wrongNumberOfParameters
      s!"{d.mnemonic} takes at most {d.most} parameters")
  else if (env.token s).startsExpression then do
    let ⟨_, r, h⟩ ← expression env s
    writeAll (if d.defaults.length ≤ count then [.pop] else [])
    return ((← moreSlots env d (count + 1) r).inside h).passed
  else do
    writeAll (d.defaults[count]?.map Instruction.pushValue).toList
    moreSlots env d (count + 1) s
termination_by 16 * s.length + 12

/-- The further parameters of a dialog, each behind a comma, and the ones that are not given. -/
def moreSlots (env : Context) (d : Dialog) (count : Nat) (s : List Symbol) : Writing (Passed Unit s.length) :=
  match s with
  | [] => do
    writeAll ((d.defaults.drop count).map .pushValue)
    return .stay () []
  | sym :: rest =>
    if sym.token = .comma then do
      env.arrive rest
      return (← slots env d count rest).behind sym
    else do
      writeAll ((d.defaults.drop count).map .pushValue)
      return .stay () (sym :: rest)
termination_by 16 * s.length

end

end MacroBasic.Compiler
