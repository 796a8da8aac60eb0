/-
Writing statements while they are parsed. A loop, an `IF` and a routine write their branches before they know where
these lead, and land them behind their blocks. A routine has a scope of its own, which is entered in front of its
body and left behind it.
-/
import MacroBasic.Compiler.Expression

namespace MacroBasic.Compiler

open Grammar

/-- Writes the rest of a statement, and gives the names that are visible behind it. -/
abbrev StmtWriting (s : List Symbol) := Writing (Passed Scopes s.length)

/-! ## Simple statements -/

/-- The rest of an assignment behind its operator. -/
def assignment (env : Context) (target : Symbol) (op : Option BinaryOperator) (rest : List Symbol) :
    StmtWriting rest := do
  let names ← checkAssignable env target
  writeAll (if op.isSome then [.pushVariable target.text] else [])
  env.arrive rest
  let p ← expression { env with names := names } rest
  writeAll (op.map Instruction.binary).toList
  discard <| write (.assign target.text)
  return (p.map fun _ => names).passed

/-- The rest of a statement that is the call of a routine. -/
def callStatement (env : Context) (target : Symbol) (s : List Symbol) : StmtWriting s := do
  match (env.names.get? target.text).map Binding.isRoutine with
  | some true => return (← call env target false s).map fun _ => env.names
  | some false => throw (env.unexpected s "'=' after variable")
  | none => throw (Context.unknownRoutine target)

/-- The rest of a statement that begins with a name: an assignment or a call. -/
def nameStatement (env : Context) (target : Symbol) (s : List Symbol) : StmtWriting s :=
  match s with
  | [] => callStatement env target []
  | sym :: rest =>
    let assigned (op : Option BinaryOperator) : StmtWriting (sym :: rest) := do
      return (← assignment env target op rest).behind sym
    match sym.token with
    | .operator (.binary .equal) => assigned none
    | .update op => assigned (some op)
    | _ => callStatement env target (sym :: rest)

/-- What leaves a loop or a routine. -/
def leaving : Stmt → List Instruction
  | .exitLoop _ inner => List.replicate (keptBy inner) .pop ++ [.jumpPop]
  | _ => [.ret]

/-- The rest of an `EXIT` statement. -/
def exitStatement (env : Context) (at_ : Place) (s : List Symbol) : StmtWriting s :=
  match s with
  | [] => throw (env.unexpected [] "DO, FOR, FUNCTION or SUB after EXIT")
  | sym :: rest =>
    match exitTarget? sym.token with
    | some target => do
      let stmt ← exitFrom at_ sym target
      writeAll (leaving stmt)
      env.arrive rest
      return (Parsed.one env.names sym rest).passed
    | none => throw (env.unexpected (sym :: rest) "DO, FOR, FUNCTION or SUB after EXIT")

/-- The rest of a print statement. -/
def printStatement (env : Context) (s : List Symbol) : StmtWriting s := do
  if (env.token s).startsExpression then
    let p ← expression env s
    discard <| write .print
    return (p.map fun _ => env.names).passed
  else
    discard <| write (.pushValue (.text ""))
    discard <| write .print
    return .stay env.names s

/-! ## Loops -/

/-- The step of a `FOR`, which is one if it is not given. -/
def forStep (env : Context) (s : List Symbol) : Writing (Passed Unit s.length) :=
  match s with
  | [] => do
    discard <| write (.pushValue (.number 1.0))
    return .stay () []
  | sym :: rest =>
    if sym.token = .word .step then do
      env.arrive rest
      return (← expression env rest).passed.behind sym
    else do
      discard <| write (.pushValue (.number 1.0))
      return .stay () (sym :: rest)

/-- The head of a `FOR`: its counter, and the names that are visible then. -/
def forHead (env : Context) (s : List Symbol) : Writing (Passed (String × Scopes) s.length) :=
  match s with
  | [] => throw (env.unexpected [] "counter variable")
  | counter :: rest =>
    if counter.token = .name then do
      let names ← checkAssignable env counter
      env.arrive rest
      let env := { env with names := names }
      let ⟨_, r, assigned⟩ ← env.require (.operator (.binary .equal)) rest
        (env.violation rest "'=' expected after FOR counter")
      let ⟨_, r, started⟩ ← expression env r
      discard <| write (.assign counter.text)
      let ⟨_, r, limited⟩ ← env.require (.word .to) r (env.violation r "TO expected in FOR statement")
      let ⟨_, r, ended⟩ ← expression env r
      let head := ((← forStep env r).map fun _ => (counter.text, names)).inside ended
      return (((head.passed.inside limited).passed.inside started).passed.inside assigned).passed.behind counter
    else throw (env.unexpected (counter :: rest) "counter variable")

/-- The condition at the head of a loop, if there is one, and the branch behind it. -/
def headGuard (env : Context) (s : List Symbol) : Writing (Passed (Option Address) s.length) :=
  match s with
  | [] => return .stay none []
  | sym :: rest =>
    if sym.token = .word .whileWord || sym.token = .word .untilWord then do
      env.arrive rest
      let p ← expression env rest
      let branch ← write (if sym.token = .word .untilWord then .jumpTrue 0 else .jumpFalse 0)
      return (p.map fun _ => some branch).passed.behind sym
    else return .stay none (sym :: rest)

/-- The condition at the end of a loop, if there is one, and the branch back. -/
def tailGuard (env : Context) (back : Address) (s : List Symbol) : Writing (Passed Unit s.length) :=
  match s with
  | [] => do
    discard <| write (.jump back)
    return .stay () []
  | sym :: rest =>
    if sym.token = .word .whileWord || sym.token = .word .untilWord then do
      env.arrive rest
      let p ← expression env rest
      discard <| write (if sym.token = .word .untilWord then .jumpFalse back else .jumpTrue back)
      return p.passed.behind sym
    else do
      discard <| write (.jump back)
      return .stay () (sym :: rest)

/-- The end of a `DO`. -/
def closeDo (env : Context) (hasHead optional : Bool) (back : Address) (s : List Symbol) :
    Writing (Passed Unit s.length) :=
  let absent (s : List Symbol) : Writing (Passed Unit s.length) :=
    if optional && hasHead then do
      discard <| write (.jump back)
      return .stay () s
    else throw (env.violation s "LOOP expected at end of DO")
  match s with
  | [] => absent []
  | sym :: rest =>
    if sym.token = .word .loop then do
      env.arrive rest
      let next := env.token rest
      if hasHead && (next = .word .whileWord || next = .word .untilWord) then
        throw (env.violation rest "No WHILE or UNTIL allowed after LOOP when DO has a condition")
      return (← tailGuard env back rest).behind sym
    else absent (sym :: rest)

/-- What is behind the body of a `FOR`. The counter is moved on, and the loop goes on with its body or ends. -/
def endFor (counter : String) (again done exit : Address) : Writing Unit := do
  writeAll ([.copy 1, .pushVariable counter, .binary .add, .assign counter] ++ countTest counter)
  discard <| write (.jumpTrue again)
  land done
  discard <| write .pop
  land exit
  writeAll [.pop, .pop]

/-- What is behind a `DO`. -/
def endDo (test : Option Address) (exit : Address) : Writing Unit := do
  test.forM land
  discard <| write .pop
  land exit

/-! ## Blocks -/

/-- Leaves the innermost scope. -/
def leaveScope (names : Scopes) : Writing Scopes :=
  match Scopes.popScope names with
  | .ok _ outside => return outside
  | .error f _ => throw f

mutual

/-- Statements up to one of the given words, the end of the source or, in a block of one line, the end of the
line. -/
def block (env : Context) (at_ : Place) (stops : List Word) (s : List Symbol) : StmtWriting s :=
  match s with
  | [] => return .stay env.names []
  | sym :: rest =>
    if sym.token = .delimiter then
      if at_.singleLine && sym.isNewline then return .stay env.names (sym :: rest)
      else do
        env.arrive rest
        return (← block env at_ stops rest).behind sym
    else if endsBlock stops sym.token then return .stay env.names (sym :: rest)
    else do
      let ⟨names, r, h⟩ ← statement env at_ sym rest
      if endsStatement stops (env.token r) then
        return ((← block { env with names := names } at_ stops r).within h).behind sym
      else throw (env.unexpected r "end of statement")
termination_by 3 * s.length

/-- A statement that begins with the symbol `sym`; the symbols behind `sym` are given. -/
def statement (env : Context) (at_ : Place) (sym : Symbol) (rest : List Symbol) : StmtWriting rest := do
  begin sym.position
  match lead sym.token with
  | .share => do
    if !env.external then throw (sym.fault .violation "IMPORT declarations not allowed")
    env.arrive rest
    let p ← nameList declareShared env rest
    return p.map Prod.snd
  | .declare => do
    env.arrive rest
    let p ← nameList declareVariable env rest
    writeAll (p.value.1.map .allocVar)
    return p.map Prod.snd
  | .constants => do
    env.arrive rest
    let p ← constantList env rest
    writeAll (p.value.1.map fun (name, v) => .allocConst name v)
    return (p.map Prod.snd).passed
  | .routine isFunction => do
    if !at_.declarations then
      throw (sym.fault .violation
        "FUNCTION and SUB may only be declared at top level or inside a function")
    env.arrive rest
    let ⟨(name, parameters), r, headed⟩ ← routineHead env rest
    writeAll (if isFunction then [.allocVar name] else [])
    let skip ← write (.jump 0)
    let kind := if isFunction then Kind.function else .sub
    let (_, inside) ← enterRoutine env.names (.routine name kind (← here) parameters)
    let inner : Place := ⟨false, true, [], some kind⟩
    let ⟨names, r, h⟩ ← block { env with names := inside } inner routineEnds r
    let closed ← closeRoutine env isFunction r
    let outside ← leaveScope names
    discard <| write .ret
    land skip
    return ((closed.map fun _ => outside).within h).within headed
  | .branch => do
    env.arrive rest
    let ⟨_, r, tested⟩ ← expression env rest
    let ⟨_, r, headed⟩ ← env.require (.word .thenWord) r (env.violation r "THEN missing after IF")
    let onLine := !(env.current r).isNewline
    let inner := { at_ with singleLine := at_.singleLine || onLine, declarations := false }
    let no ← write (.jumpFalse 0)
    let ⟨names, r, h⟩ ← block env inner [.elseWord, .endWord, .endIf] r
    let closed ← branchRest { env with names := names } inner onLine no r
    return (((closed.within h).inside headed).passed.inside tested).passed
  | .countLoop => do
    env.arrive rest
    let ⟨(counter, names), r, headed⟩ ← forHead env rest
    let exit ← write (.pushValue (.address 0))
    writeAll (countTest counter)
    let done ← write (.jumpFalse 0)
    let again ← here
    let onLine := !(env.current r).isNewline
    let inner : Place := ⟨at_.singleLine || onLine, false, .forLoop :: at_.loops, at_.routine⟩
    let ⟨names, r, h⟩ ← block { env with names := names } inner [.next] r
    let closed ← closeFor env counter onLine r
    endFor counter again done exit
    return ((closed.map fun _ => names).within h).within headed
  | .guardLoop => do
    env.arrive rest
    let exit ← write (.pushValue (.address 0))
    let top ← here
    let ⟨test, r, headed⟩ ← headGuard env rest
    let onLine := !(env.current r).isNewline
    let inner : Place := ⟨at_.singleLine || onLine, false, .doLoop :: at_.loops, at_.routine⟩
    let ⟨names, r, h⟩ ← block env inner [.loop] r
    let closed ← closeDo { env with names := names } test.isSome onLine top r
    endDo test exit
    return ((closed.map fun _ => names).within h).within headed
  | .exit => do
    env.arrive rest
    exitStatement env at_ rest
  | .print => do
    env.arrive rest
    printStatement env rest
  | .notify n => do
    discard <| write (.notify n)
    env.arrive rest
    return .stay env.names rest
  | .dialog d => do
    env.arrive rest
    return (← dialog env d true rest).map fun _ => env.names
  | .name => do
    env.arrive rest
    nameStatement env sym rest
  | .none => throw (env.unexpected (sym :: rest) "declaration, function call or assignment")
termination_by 3 * rest.length + 2

/-- The rest of an `IF` behind its first block, with the block of `ELSE` if there is one. The branch around the first
block is given. -/
def branchRest (env : Context) (inner : Place) (onLine : Bool) (no : Address) (s : List Symbol) : StmtWriting s :=
  match s with
  | sym :: rest =>
    if sym.token = .word .elseWord then do
      let done ← write (.jump 0)
      land no
      env.arrive rest
      let ⟨names, r, h⟩ ← block env inner [.endWord, .endIf] rest
      let closed ← closeIf env onLine r
      land done
      return ((closed.map fun _ => names).within h).behind sym
    else do
      let closed ← closeIf env onLine (sym :: rest)
      land no
      return closed.map fun _ => env.names
  | [] => do
    let closed ← closeIf env onLine []
    land no
    return closed.map fun _ => env.names
termination_by 3 * s.length + 1

end

/-! ## Scripts -/

/-- A whole script, given its symbols, the rules and the names it can see from outside. -/
def script (text : Symbols) (explicit external : Bool) (shared : Scope) : Writing Unit := do
  let env : Context := ⟨.onBottom shared.unbound, explicit, external, text.ending⟩
  env.arrive text.ahead
  let ⟨_, r, _⟩ ← block env ⟨false, true, [], none⟩ [] text.ahead
  if env.token r = .eof then return () else throw (env.unexpected r "end of source")

end MacroBasic.Compiler
