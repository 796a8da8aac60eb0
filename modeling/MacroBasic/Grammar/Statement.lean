/-
Parsing of statements. A statement begins with a word or a name; blocks of statements end at a closing
word or, when they began on the line of their header, at the end of that line. Declarations extend the
names that later statements see. Since a call needs the address of the routine it calls, parsing keeps
count of the instructions that the statements before will become.
-/
import MacroBasic.Grammar.Expression

namespace MacroBasic.Grammar

/-- Where a statement stands. -/
structure Place where
  /-- Whether a line break ends the block around it. -/
  singleLine : Bool
  /-- Whether routines may be declared here. -/
  declarations : Bool
  /-- The loops around it, the innermost one first. -/
  loops : List Loop
  /-- The kind of the routine around it. -/
  routine : Option Kind

/-- The rest of a statement, and the names that are visible behind it. -/
abbrev StmtRest (s : List Symbol) := Except Fault (Passed (Stmt × Scopes) s.length)

/-! ## Declarations -/

/-- Declares a variable at the given symbol. -/
def declareVariable (names : Scopes) (sym : Symbol) : Except Fault Scopes :=
  if (names.getTop? sym.text).isSome then .error (Context.alreadyDeclared sym sym.text)
  else .ok (names.allocate { name := sym.text })

/-- Declares a name that the script shares with its surroundings. A name that is visible already is
not declared again. -/
def declareShared (names : Scopes) (sym : Symbol) : Except Fault Scopes :=
  if (names.getTop? sym.text).isSome then .error (Context.alreadyDeclared sym sym.text)
  else if (names.get? sym.text).isSome then .ok names
  else .ok (names.allocate { name := sym.text })

mutual

/-- Names divided by commas, each declared as it is met. -/
def nameList (declare : Scopes → Symbol → Except Fault Scopes) (env : Context) (s : List Symbol) :
    Except Fault (Passed (List String × Scopes) s.length) :=
  match s with
  | [] => .error (env.unexpected [] "identifier")
  | sym :: rest =>
    if sym.token = .name then do
      let names ← declare env.names sym
      env.arrive rest
      let more ← moreNames declare { env with names := names } rest
      return (more.map fun (more, names) => (sym.text :: more, names)).behind sym
    else .error (env.unexpected (sym :: rest) "identifier")

/-- The further names, each behind a comma. -/
def moreNames (declare : Scopes → Symbol → Except Fault Scopes) (env : Context) (s : List Symbol) :
    Except Fault (Passed (List String × Scopes) s.length) :=
  match s with
  | [] => .ok (.stay ([], env.names) [])
  | sym :: rest =>
    if sym.token = .comma then do
      env.arrive rest
      return (← nameList declare env rest).behind sym
    else .ok (.stay ([], env.names) (sym :: rest))

end

/-- The literal that a constant stands for, perhaps behind a minus sign. -/
def constantValue? (negative : Bool) (sym : Symbol) : Option Value :=
  match sym.token, sym.value with
  | .number, some (.number x) => some (.number (if negative then -x else x))
  | .string, some v => if negative then none else some v
  | _, _ => none

/-- A minus sign, if there is one. -/
def minusSign (env : Context) (s : List Symbol) : Except Fault (Passed Bool s.length) :=
  match s with
  | [] => .ok (.stay false [])
  | sym :: rest =>
    if sym.token = .operator (.binary .subtract) then do
      env.arrive rest
      return (Parsed.one true sym rest).passed
    else .ok (.stay false (sym :: rest))

/-- The literal of the constant `name`, whose declaration is checked when the literal is known. -/
def constantLiteral (env : Context) (name : Symbol) (negative : Bool) (s : List Symbol) :
    Except Fault (Parsed Value s.length) :=
  match s with
  | [] => .error (env.unexpected [] "number or string literal")
  | sym :: rest =>
    match constantValue? negative sym with
    | none => .error (env.unexpected (sym :: rest) "number or string literal")
    | some v => do
      if (env.names.getTop? name.text).isSome then throw (Context.alreadyDeclared name name.text)
      env.arrive rest
      return .one v sym rest

mutual

/-- Definitions of constants divided by commas. -/
def constantList (env : Context) (s : List Symbol) :
    Except Fault (Parsed (List (String × Value) × Scopes) s.length) := do
  let ⟨name, r, h⟩ ← env.require .name s (env.unexpected s "constant name")
  let ⟨_, r, h⟩ ← env.require (.operator (.binary .equal)) r (env.unexpected r "'=' after constant name")
  let ⟨negative, r, h⟩ ← minusSign env r
  let ⟨v, r, h⟩ ← constantLiteral env name negative r
  let names := env.names.allocate { name := name.text, kind := .constant, value := v }
  let ⟨(more, names), r, h⟩ ← moreConstants { env with names := names } r
  return ⟨((name.text, v) :: more, names), r, by omega⟩
termination_by s.length

/-- The further definitions of constants, each behind a comma. -/
def moreConstants (env : Context) (s : List Symbol) :
    Except Fault (Passed (List (String × Value) × Scopes) s.length) :=
  match s with
  | [] => .ok (.stay ([], env.names) [])
  | sym :: rest =>
    if sym.token = .comma then do
      env.arrive rest
      return (← constantList env rest).passed.behind sym
    else .ok (.stay ([], env.names) (sym :: rest))
termination_by s.length

end

mutual

/-- Parameter names divided by commas, none of them twice. -/
def parameterNames (env : Context) (before : List String) (s : List Symbol) :
    Except Fault (Passed (List String) s.length) :=
  match s with
  | [] => .error (env.unexpected [] "parameter name")
  | sym :: rest =>
    if sym.token = .name then
      if before.contains sym.text then
        .error (sym.fault .alreadyExists s!"Parameter '{sym.text}' is already declared")
      else do
        env.arrive rest
        return (← moreParameters env (before ++ [sym.text]) rest).behind sym
    else .error (env.unexpected (sym :: rest) "parameter name")

/-- The further parameter names, each behind a comma, together with those before. -/
def moreParameters (env : Context) (before : List String) (s : List Symbol) :
    Except Fault (Passed (List String) s.length) :=
  match s with
  | [] => .ok (.stay before [])
  | sym :: rest =>
    if sym.token = .comma then do
      env.arrive rest
      return (← parameterNames env before rest).behind sym
    else .ok (.stay before (sym :: rest))

end

/-- The parameters of a routine in parentheses, if there are any. -/
def parameterList (env : Context) (s : List Symbol) : Except Fault (Passed (List String) s.length) :=
  match s with
  | [] => .ok (.stay [] [])
  | sym :: rest =>
    if sym.token = .openParen then do
      env.arrive rest
      let ⟨found, r, h⟩ ← (if env.token rest = .closeParen then .ok (.stay [] rest)
        else parameterNames env [] rest : Except Fault (Passed (List String) rest.length))
      let closed ← env.requireClose r "after parameter list"
      return ((closed.map fun _ => found).passed.within h).behind sym
    else .ok (.stay [] (sym :: rest))

/-! ## Simple statements -/

/-- Whether the name at a symbol can be given a value; an undeclared one is declared by it unless
declarations are required. -/
def checkAssignable (env : Context) (sym : Symbol) : Except Fault Scopes :=
  match (env.names.get? sym.text).map Binding.kind with
  | some .constant =>
    .error (sym.fault .assignmentToConstant s!"Assignment to constant {sym.text} not allowed")
  | some .sub => .error (sym.fault .violation s!"Cannot assign to sub '{sym.text}'")
  | some _ => .ok env.names
  | none =>
    if env.explicit then
      .error (sym.fault .unknownIdentifier s!"Variable '{sym.text}' is not declared")
    else .ok (env.names.allocate { name := sym.text })

/-- The rest of an assignment behind its operator. -/
def assignment (env : Context) (target : Symbol) (op : Option BinaryOperator) (rest : List Symbol) :
    StmtRest rest := do
  let names ← checkAssignable env target
  env.arrive rest
  let value ← expression { env with names := names } rest
  return (value.map fun e => (.assign target.text op e, names)).passed

/-- The rest of a statement that is the call of a routine. -/
def callStatement (env : Context) (target : Symbol) (s : List Symbol) : StmtRest s := do
  match (env.names.get? target.text).map Binding.isRoutine with
  | some true =>
    let called ← call env target false s
    return called.map fun (routine, arguments) => (.call routine arguments, env.names)
  | some false => throw (env.unexpected s "'=' after variable")
  | none => throw (Context.unknownRoutine target)

/-- The rest of a statement that begins with a name: an assignment or a call. -/
def nameStatement (env : Context) (target : Symbol) (s : List Symbol) : StmtRest s :=
  match s with
  | [] => callStatement env target []
  | sym :: rest =>
    let assigned (op : Option BinaryOperator) : StmtRest (sym :: rest) := do
      return (← assignment env target op rest).behind sym
    match sym.token with
    | .operator (.binary .equal) => assigned none
    | .update op => assigned (some op)
    | _ => callStatement env target (sym :: rest)

/-- The loop or routine that a word after `EXIT` names. -/
def exitTarget? : Token → Option (Loop ⊕ Kind)
  | .word .doWord => some (.inl .doLoop)
  | .word .forWord => some (.inl .forLoop)
  | .word .function => some (.inr .function)
  | .word .sub => some (.inr .sub)
  | _ => none

/-- The spelling of the word that begins a loop. -/
def Loop.spelling : Loop → String
  | .doLoop => "DO"
  | .forLoop => "FOR"

/-- The spelling of the word that begins a routine. -/
def routineSpelling (kind : Kind) : String := if kind = .function then "FUNCTION" else "SUB"

/-- The statement that leaves the given loop or routine. -/
def exitFrom (at_ : Place) (sym : Symbol) : Loop ⊕ Kind → Except Fault Stmt
  | .inl loop =>
    if at_.loops.contains loop then .ok (.exitLoop loop (at_.loops.takeWhile (· != loop)))
    else
      let word := Loop.spelling loop
      .error (sym.fault .violation s!"'EXIT {word}' not allowed outside a {word} loop")
  | .inr kind =>
    if at_.routine = some kind then .ok .exitRoutine
    else
      let word := routineSpelling kind
      .error (sym.fault .violation s!"'EXIT {word}' not allowed outside a {kind.name}")

/-- The rest of an `EXIT` statement. -/
def exitStatement (env : Context) (at_ : Place) (s : List Symbol) : StmtRest s :=
  match s with
  | [] => .error (env.unexpected [] "DO, FOR, FUNCTION or SUB after EXIT")
  | sym :: rest =>
    match exitTarget? sym.token with
    | some target => do
      let stmt ← exitFrom at_ sym target
      env.arrive rest
      return (Parsed.one (stmt, env.names) sym rest).passed
    | none => .error (env.unexpected (sym :: rest) "DO, FOR, FUNCTION or SUB after EXIT")

/-- The rest of a print statement. -/
def printStatement (env : Context) (s : List Symbol) : StmtRest s := do
  if (env.token s).startsExpression then
    return ((← expression env s).map fun e => (.print (some e), env.names)).passed
  else return .stay (.print none, env.names) s

/-! ## Closing words -/

/-- The words that end a routine. -/
def routineEnds : List Word := [.endWord, .endFunction, .endSub]

/-- Passes the words that end a routine of the given kind. -/
def closeRoutine (env : Context) (isFunction : Bool) (s : List Symbol) :
    Except Fault (Passed Unit s.length) :=
  let closer := if isFunction then "END FUNCTION" else "END SUB"
  match s with
  | [] => .error (env.unexpected [] closer)
  | sym :: rest =>
    if sym.token = .word (if isFunction then .endFunction else .endSub) then do
      env.arrive rest
      return (Parsed.one () sym rest).passed
    else if sym.token = .word .endWord then do
      env.arrive rest
      let closed ← env.require (.word (if isFunction then .function else .sub)) rest
        (env.unexpected rest closer)
      return (closed.map fun _ => ()).passed.behind sym
    else .error (env.unexpected (sym :: rest) closer)

/-- Passes the words that end an `IF`; they may be absent when it began its block on its own line. -/
def closeIf (env : Context) (optional : Bool) (s : List Symbol) : Except Fault (Passed Unit s.length) :=
  let absent (s : List Symbol) : Except Fault (Passed Unit s.length) :=
    if optional then .ok (.stay () s)
    else .error (env.violation s "'END IF' or 'ENDIF' expected")
  match s with
  | [] => absent []
  | sym :: rest =>
    if sym.token = .word .endIf then do
      env.arrive rest
      return (Parsed.one () sym rest).passed
    else if sym.token = .word .endWord then do
      env.arrive rest
      let closed ← env.require (.word .ifWord) rest (env.unexpected rest "IF after END")
      return (closed.map fun _ => ()).passed.behind sym
    else absent (sym :: rest)

/-- Passes the counter of a `FOR` where it is repeated. -/
def repeatedCounter (env : Context) (counter : String) (s : List Symbol) :
    Except Fault (Passed Unit s.length) :=
  match s with
  | [] => .ok (.stay () [])
  | sym :: rest =>
    if sym.token = .name && sym.text == counter then do
      env.arrive rest
      return (Parsed.one () sym rest).passed
    else .ok (.stay () (sym :: rest))

/-- Passes the word that ends a `FOR`, and the counter behind it if it is repeated there. -/
def closeFor (env : Context) (counter : String) (optional : Bool) (s : List Symbol) :
    Except Fault (Passed Unit s.length) :=
  let absent (s : List Symbol) : Except Fault (Passed Unit s.length) :=
    if optional then .ok (.stay () s)
    else .error (env.violation s "NEXT expected at end of FOR")
  match s with
  | [] => absent []
  | sym :: rest =>
    if sym.token = .word .next then do
      env.arrive rest
      return (← repeatedCounter env counter rest).behind sym
    else absent (sym :: rest)

/-- The condition of a loop, if one of its words comes next. -/
def loopGuard (env : Context) (s : List Symbol) : Except Fault (Passed (Option Guard) s.length) :=
  match s with
  | [] => .ok (.stay none [])
  | sym :: rest =>
    if sym.token = .word .whileWord || sym.token = .word .untilWord then do
      env.arrive rest
      let condition ← expression env rest
      return (condition.map fun e => some ⟨sym.token = .word .untilWord, e⟩).passed.behind sym
    else .ok (.stay none (sym :: rest))

/-- Passes the word that ends a `DO` and gives the condition behind it. The word may be absent when
the loop has a condition at its head and began its block on its own line. -/
def closeDo (env : Context) (hasHead optional : Bool) (s : List Symbol) :
    Except Fault (Passed (Option Guard) s.length) :=
  let absent (s : List Symbol) : Except Fault (Passed (Option Guard) s.length) :=
    if optional && hasHead then .ok (.stay none s)
    else .error (env.violation s "LOOP expected at end of DO")
  match s with
  | [] => absent []
  | sym :: rest =>
    if sym.token = .word .loop then do
      env.arrive rest
      let next := env.token rest
      if hasHead && (next = .word .whileWord || next = .word .untilWord) then
        throw (env.violation rest "No WHILE or UNTIL allowed after LOOP when DO has a condition")
      return (← loopGuard env rest).behind sym
    else absent (sym :: rest)

/-- The step of a `FOR`, if it is given. -/
def forStep (env : Context) (s : List Symbol) : Except Fault (Passed (Option Expr) s.length) :=
  match s with
  | [] => .ok (.stay none [])
  | sym :: rest =>
    if sym.token = .word .step then do
      env.arrive rest
      return ((← expression env rest).map some).passed.behind sym
    else .ok (.stay none (sym :: rest))

/-- The head of a `FOR`: its counter, start, limit and step, and the names that are visible then. -/
def forHead (env : Context) (s : List Symbol) :
    Except Fault (Passed ((String × Expr × Expr × Option Expr) × Scopes) s.length) :=
  match s with
  | [] => .error (env.unexpected [] "counter variable")
  | counter :: rest =>
    if counter.token = .name then do
      let names ← checkAssignable env counter
      env.arrive rest
      let env := { env with names := names }
      let ⟨_, r, h⟩ ← env.require (.operator (.binary .equal)) rest
        (env.violation rest "'=' expected after FOR counter")
      let ⟨start, r, h⟩ ← expression env r
      let ⟨_, r, h⟩ ← env.require (.word .to) r (env.violation r "TO expected in FOR statement")
      let ⟨limit, r, h⟩ ← expression env r
      let ⟨step, r, h⟩ ← forStep env r
      return ⟨((counter.text, start, limit, step), names), r, by simp only [List.length_cons]; omega⟩
    else .error (env.unexpected (counter :: rest) "counter variable")

/-- The head of a routine: its name and parameters. -/
def routineHead (env : Context) (s : List Symbol) :
    Except Fault (Passed (String × List String) s.length) :=
  match s with
  | [] => .error (env.unexpected [] "function name")
  | name :: rest =>
    if name.token = .name then do
      if (env.names.getTop? name.text).isSome then throw (Context.alreadyDeclared name name.text)
      env.arrive rest
      return ((← parameterList env rest).map fun parameters => (name.text, parameters)).behind name
    else .error (env.unexpected (name :: rest) "function name")

/-- The names inside a routine: its own name is visible, and a new scope holds its parameters. -/
def enterRoutine (names : Scopes) (b : Binding) : Except Fault (Scopes × Scopes) :=
  let outside := names.allocate b
  match Scopes.pushScope outside with
  | .ok _ inside => .ok (outside, b.parameters.foldl (fun n p => n.allocate { name := p }) inside)
  | .error f _ => .error f

/-! ## Blocks -/

/-- What the word that begins a statement leads to. -/
inductive Lead where
  | share
  | declare
  | constants
  | routine (isFunction : Bool)
  | branch
  | countLoop
  | guardLoop
  | exit
  | print
  | notify (n : Notice)
  | dialog (d : Dialog)
  | name
  | none

/-- What a statement that begins with a symbol of the given class is. -/
def lead : Token → Lead
  | .word .external => .share
  | .word .dim => .declare
  | .word .const => .constants
  | .word .function => .routine true
  | .word .sub => .routine false
  | .word .ifWord => .branch
  | .word .forWord => .countLoop
  | .word .doWord => .guardLoop
  | .word .exit => .exit
  | .word .debugPrint => .print
  | .word .debugClear => .notify .clear
  | .word .debugShow => .notify .reveal
  | .word .debugHide => .notify .hide
  | .word .doEvents => .notify .yield
  | .word .message => .dialog .message
  | .word .msgBox => .dialog .msgBox
  | .word .inputBox => .dialog .inputBox
  | .name => .name
  | _ => .none

/-- Whether a statement may end in front of a symbol of the given class. -/
def endsStatement (stops : List Word) : Token → Bool
  | .delimiter | .eof => true
  | .word w => stops.contains w
  | _ => false

/-- Whether a block ends at a symbol of the given class. -/
def endsBlock (stops : List Word) : Token → Bool
  | .eof => true
  | .word w => stops.contains w
  | _ => false

mutual

/-- Statements up to one of the given words, the end of the source or, in a block of one line, the end
of the line. The block begins at address `a`. -/
def block (env : Context) (at_ : Place) (stops : List Word) (a : Address) (s : List Symbol) :
    Except Fault (Passed (Block × Scopes) s.length) :=
  match s with
  | [] => .ok (.stay (.nil, env.names) [])
  | sym :: rest =>
    if sym.token = .delimiter then
      if at_.singleLine && sym.isNewline then .ok (.stay (.nil, env.names) (sym :: rest))
      else do
        env.arrive rest
        return (← block env at_ stops a rest).behind sym
    else if endsBlock stops sym.token then .ok (.stay (.nil, env.names) (sym :: rest))
    else do
      let ⟨(first, names), r, h⟩ ← statement env at_ a sym rest
      if endsStatement stops (env.token r) then
        let more ← block { env with names := names } at_ stops (a + first.size) r
        return ((more.map fun (more, names) => (.cons sym.position first more, names)).within h).behind sym
      else throw (env.unexpected r "end of statement")
termination_by 3 * s.length

/-- A statement that begins with the symbol `sym` and at address `a`; the symbols behind `sym` are
given. -/
def statement (env : Context) (at_ : Place) (a : Address) (sym : Symbol) (rest : List Symbol) :
    StmtRest rest :=
  match lead sym.token with
  | .share => do
    if !env.external then throw (sym.fault .violation "IMPORT declarations not allowed")
    env.arrive rest
    return (← nameList declareShared env rest).map fun (shared, names) => (.share shared, names)
  | .declare => do
    env.arrive rest
    return (← nameList declareVariable env rest).map fun (declared, names) => (.declare declared, names)
  | .constants => do
    env.arrive rest
    return ((← constantList env rest).map fun (definitions, names) => (.constants definitions, names)).passed
  | .routine isFunction => do
    if !at_.declarations then
      throw (sym.fault .violation
        "FUNCTION and SUB may only be declared at top level or inside a function")
    env.arrive rest
    let ⟨(name, parameters), r, headed⟩ ← routineHead env rest
    let kind := if isFunction then Kind.function else .sub
    let entry := a + routineHeadSize isFunction
    let (outside, inside) ← enterRoutine env.names (.routine name kind entry parameters)
    let inner : Place := ⟨false, true, [], some kind⟩
    let ⟨(body, _), r, h⟩ ← block { env with names := inside } inner routineEnds entry r
    let result : Stmt × Scopes := (.routine isFunction name parameters body, outside)
    return (((← closeRoutine env isFunction r).map fun _ => result).within h).within headed
  | .branch => do
    env.arrive rest
    let ⟨condition, r, tested⟩ ← expression env rest
    let ⟨_, r, headed⟩ ← env.require (.word .thenWord) r (env.violation r "THEN missing after IF")
    let onLine := !(env.current r).isNewline
    let inner := { at_ with singleLine := at_.singleLine || onLine, declarations := false }
    let start := a + condition.size + 1
    let ⟨(yes, names), r, h⟩ ← block env inner [.elseWord, .endWord, .endIf] start r
    let closed ← branchRest { env with names := names } inner onLine condition yes (start + yes.size + 1) r
    return (((closed.within h).inside headed).passed.inside tested).passed
  | .countLoop => do
    env.arrive rest
    let ⟨((counter, start, limit, step), names), r, headed⟩ ← forHead env rest
    let onLine := !(env.current r).isNewline
    let inner : Place :=
      ⟨at_.singleLine || onLine, false, .forLoop :: at_.loops, at_.routine⟩
    let env := { env with names := names }
    let ⟨(body, names), r, h⟩ ← block env inner [.next] (a + countHeadSize start limit step) r
    let result : Stmt × Scopes := (.countLoop counter start limit step body, names)
    return (((← closeFor env counter onLine r).map fun _ => result).within h).within headed
  | .guardLoop => do
    env.arrive rest
    let ⟨head, r, headed⟩ ← loopGuard env rest
    let onLine := !(env.current r).isNewline
    let inner : Place :=
      ⟨at_.singleLine || onLine, false, .doLoop :: at_.loops, at_.routine⟩
    let ⟨(body, names), r, h⟩ ← block env inner [.loop] (a + 1 + headSize head) r
    let closed ← closeDo { env with names := names } head.isSome onLine r
    return ((closed.map fun tail => (.guardLoop head body tail, names)).within h).within headed
  | .exit => do
    env.arrive rest
    exitStatement env at_ rest
  | .print => do
    env.arrive rest
    printStatement env rest
  | .notify n => do
    env.arrive rest
    return .stay (.notify n, env.names) rest
  | .dialog d => do
    env.arrive rest
    return (← dialogSlots env d true rest).map fun found => (.dialog d found, env.names)
  | .name => do
    env.arrive rest
    nameStatement env sym rest
  | .none => .error (env.unexpected (sym :: rest) "declaration, function call or assignment")
termination_by 3 * rest.length + 2

/-- The rest of an `IF` behind its first block, with the block of `ELSE` if there is one. -/
def branchRest (env : Context) (inner : Place) (onLine : Bool) (condition : Expr) (yes : Block)
    (otherwise : Address) (s : List Symbol) : StmtRest s :=
  match s with
  | sym :: rest =>
    if sym.token = .word .elseWord then do
      env.arrive rest
      let ⟨(no, names), r, h⟩ ← block env inner [.endWord, .endIf] otherwise rest
      let result : Stmt × Scopes := (.branchElse condition yes no, names)
      return (((← closeIf env onLine r).map fun _ => result).within h).behind sym
    else do
      return (← closeIf env onLine (sym :: rest)).map fun _ => (.branch condition yes, env.names)
  | [] => do
    return (← closeIf env onLine []).map fun _ => (.branch condition yes, env.names)
termination_by 3 * s.length + 1

end

/-! ## Scripts -/

/-- A whole script, given its symbols, the rules and the names it can see from outside. -/
def script (text : Symbols) (explicit external : Bool) (shared : Scope) : Except Fault Block := do
  let env : Context := ⟨.onBottom shared.unbound, explicit, external, text.ending⟩
  env.arrive text.ahead
  let ⟨(body, _), r, _⟩ ← block env ⟨false, true, [], none⟩ [] 0 text.ahead
  if env.token r = .eof then return body else throw (env.unexpected r "end of source")

end MacroBasic.Grammar
