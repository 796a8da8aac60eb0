/-
What is written for a script. While a script is parsed, the lines of its tree are written, or parsing fails as it does
without writing. All branches land, and every scope that is entered is left.
-/
import MacroBasic.Compiler.Statement
import MacroBasic.Proofs.Compiler.Expression
import MacroBasic.Proofs.Grammar.Refusals

namespace MacroBasic.Compiler

open Grammar

variable {env : Context}

/-- What is behind a statement that began at the given place: its lines. -/
def Draft.behindStmt {n : Nat} (d : Draft) (place : Position) (p : Passed (Stmt × Scopes) n) :
    Passed Scopes n × Draft :=
  (p.map Prod.snd, d.extend (p.value.1.lines d.size place) (p.value.1.lastPlace place))

/-- What is behind a block: its lines. -/
def Draft.behindBlock {n : Nat} (d : Draft) (p : Passed (Block × Scopes) n) : Passed Scopes n × Draft :=
  (p.map Prod.snd, d.extend (p.value.1.lines d.size) (p.value.1.lastPlace d.place))

/-! ## Simple statements -/

theorem assignment_eq (target : Symbol) (op : Option BinaryOperator) (rest : List Symbol) (d : Draft) :
    assignment env target op rest d = (Grammar.assignment env target op rest).map (d.behindStmt d.place) := by
  rw [assignment, Grammar.assignment]
  refine follow_lift fun names => (bind_writeAll _ _).trans ?_
  refine follow_lift fun _ => follow_parsed (expression_eq rest _) fun e r h => ?_
  refine (bind_writeAll _ _).trans ((bind_discard _ _).trans ?_)
  rw [Draft.append_append, Draft.append_append, Draft.append_append, Draft.size_append]
  cases op <;> rfl

theorem callStatement_eq (target : Symbol) (s : List Symbol) (d : Draft) :
    callStatement env target s d = (Grammar.callStatement env target s).map (d.behindStmt d.place) := by
  rw [callStatement, Grammar.callStatement]
  rcases (env.names.get? target.text).map Binding.isRoutine with _ | _ | _
  · rfl
  · rfl
  · exact follow (call_eq target false s d) fun _ => rfl

theorem nameStatement_eq (target : Symbol) (s : List Symbol) (d : Draft) :
    nameStatement env target s d = (Grammar.nameStatement env target s).map (d.behindStmt d.place) := by
  cases s with
  | nil => exact callStatement_eq target [] d
  | cons sym rest =>
    have hassigned (op : Option BinaryOperator) :
        (assignment env target op rest >>= fun p => pure (p.behind sym) : StmtWriting (sym :: rest)) d =
          (Grammar.assignment env target op rest >>= fun p => pure (p.behind sym)).map (d.behindStmt d.place) :=
      follow (assignment_eq target op rest d) fun _ => rfl
    rw [nameStatement, Grammar.nameStatement]
    cases sym.token with
    | update op => exact hassigned (some op)
    | operator op =>
      cases op with
      | binary op =>
        cases op
        case equal => exact hassigned none
        all_goals exact callStatement_eq target (sym :: rest) d
      | _ => exact callStatement_eq target (sym :: rest) d
    | _ => exact callStatement_eq target (sym :: rest) d

/-- What leaves a loop or a routine has no parts. -/
theorem lines_of_exitFrom {at_ : Place} {sym : Symbol} {target : Loop ⊕ Kind} {stmt : Stmt}
    (h : exitFrom at_ sym target = .ok stmt) (a : Address) (p : Position) :
    stmt.lines a p = mark p (leaving stmt) ∧ stmt.lastPlace p = p := by
  unfold exitFrom at h
  split at h
  · split at h <;> cases h
    exact ⟨rfl, rfl⟩
  · split at h <;> cases h
    exact ⟨rfl, rfl⟩

theorem exitStatement_eq (at_ : Place) (s : List Symbol) (d : Draft) :
    exitStatement env at_ s d = (Grammar.exitStatement env at_ s).map (d.behindStmt d.place) := by
  cases s with
  | nil => rfl
  | cons sym rest =>
    rw [exitStatement, Grammar.exitStatement]
    cases exitTarget? sym.token with
    | none => rfl
    | some target =>
      refine follow_lift_ok fun stmt hstmt => (bind_writeAll _ _).trans (follow_lift fun _ => ?_)
      obtain ⟨hlines, hplace⟩ := lines_of_exitFrom hstmt d.size d.place
      show Except.ok (_, d.extend _ _) = Except.ok (_, d.extend (stmt.lines d.size d.place) (stmt.lastPlace d.place))
      rw [hlines, hplace]
      rfl

theorem printStatement_eq (s : List Symbol) (d : Draft) :
    printStatement env s d = (Grammar.printStatement env s).map (d.behindStmt d.place) := by
  rw [printStatement, Grammar.printStatement]
  by_cases hgiven : (env.token s).startsExpression = true
  · rw [if_pos hgiven, if_pos hgiven]
    refine follow_parsed (expression_eq s d) fun e r h => (bind_discard _ _).trans ?_
    rw [Draft.append_append]
    rfl
  · rw [if_neg hgiven, if_neg hgiven]
    refine (bind_discard _ _).trans ((bind_discard _ _).trans ?_)
    rw [Draft.append_append]
    rfl

/-! ## Loops -/

theorem forStep_eq (s : List Symbol) (d : Draft) :
    forStep env s d = (Grammar.forStep env s).map fun p =>
      (p.map fun _ => (), d.append (stepCode d.size p.value)) := by
  cases s with
  | nil => exact bind_discard _ _
  | cons sym rest =>
    rw [forStep, Grammar.forStep]
    by_cases hstep : sym.token = .word .step
    · rw [if_pos hstep, if_pos hstep]
      exact follow_lift fun _ => follow_parsed (expression_eq rest d) fun _ _ _ => rfl
    · rw [if_neg hstep, if_neg hstep]
      exact bind_discard _ _

/-- The instructions of the head of a `FOR` up to its step. -/
def forCode (a : Nat) (counter : String) (start limit : Expr) (step : Option Expr) : List Instruction :=
  start.code a ++ .assign counter :: limit.code (a + start.size + 1) ++
    stepCode (a + start.size + 1 + limit.size) step

theorem forHead_eq (s : List Symbol) (d : Draft) :
    forHead env s d = (Grammar.forHead env s).map fun p =>
      (p.map fun ((counter, _), names) => (counter, names),
        d.append (forCode d.size p.value.1.1 p.value.1.2.1 p.value.1.2.2.1 p.value.1.2.2.2)) := by
  cases s with
  | nil => rfl
  | cons counter rest =>
    rw [forHead, Grammar.forHead]
    by_cases hname : counter.token = .name
    · rw [if_pos hname, if_pos hname]
      refine follow_lift fun names => follow_lift fun _ => follow_lift fun assigned => ?_
      refine follow_parsed (expression_eq assigned.rest d) fun start r h => (bind_discard _ _).trans ?_
      refine follow_lift fun bound => follow_parsed (expression_eq bound.rest _) fun limit r h => ?_
      refine follow (forStep_eq r _) fun step => ?_
      simp only [Draft.append_append]
      refine congrArg (fun code => Except.ok (_, d.append code)) ?_
      simp [forCode, Nat.add_assoc, Nat.add_comm 1]
    · rw [if_neg hname, if_neg hname]
      rfl

theorem headGuard_eq (s : List Symbol) (d : Draft) :
    headGuard env s d = (loopGuard env s).map fun p =>
      (p.map fun g => g.map fun g => d.size + g.condition.size, d.append (headCode d.size 0 p.value)) := by
  cases s with
  | nil => exact pure_append _ _
  | cons sym rest =>
    rw [headGuard, loopGuard]
    by_cases hword : (sym.token = .word .whileWord || sym.token = .word .untilWord) = true
    · rw [if_pos hword, if_pos hword]
      refine follow_lift fun _ => follow_parsed (expression_eq rest d) fun e r h => (bind_write _ _).trans ?_
      rw [Draft.append_append, Draft.size_append, Expr.length_code]
      refine congrArg (fun code => Except.ok (_, d.append code)) ?_
      simp [headCode, Passed.behind, Parsed.passed, Parsed.map]
    · rw [if_neg hword, if_neg hword]
      exact pure_append _ _

theorem tailGuard_eq (back : Address) (s : List Symbol) (d : Draft) :
    tailGuard env back s d = (loopGuard env s).map fun p =>
      (p.map fun _ => (), d.append (tailCode d.size back p.value)) := by
  cases s with
  | nil => exact bind_discard _ _
  | cons sym rest =>
    rw [tailGuard, loopGuard]
    by_cases hword : (sym.token = .word .whileWord || sym.token = .word .untilWord) = true
    · rw [if_pos hword, if_pos hword]
      refine follow_lift fun _ => follow_parsed (expression_eq rest d) fun e r h => (bind_discard _ _).trans ?_
      rw [Draft.append_append]
      refine congrArg (fun code => Except.ok (_, d.append code)) ?_
      simp [tailCode, Passed.behind, Parsed.passed, Parsed.map]
    · rw [if_neg hword, if_neg hword]
      exact bind_discard _ _

theorem closeDo_eq (hasHead optional : Bool) (back : Address) (s : List Symbol) (d : Draft) :
    closeDo env hasHead optional back s d = (Grammar.closeDo env hasHead optional s).map fun p =>
      (p.map fun _ => (), d.append (tailCode d.size back p.value)) := by
  have habsent (s : List Symbol) :
      (if optional && hasHead then discard (write (.jump back)) >>= fun _ => pure (.stay () s)
        else throw (env.violation s "LOOP expected at end of DO") : Writing (Passed Unit s.length)) d =
      (if optional && hasHead then .ok (.stay none s)
        else .error (env.violation s "LOOP expected at end of DO") : Except Fault (Passed (Option Guard) s.length)).map
          fun p => (p.map fun _ => (), d.append (tailCode d.size back p.value)) := by
    cases optional && hasHead
    · rfl
    · exact bind_discard _ _
  unfold closeDo Grammar.closeDo
  cases s with
  | nil => exact habsent []
  | cons sym rest =>
    dsimp only
    by_cases hloop : sym.token = .word .loop
    · rw [if_pos hloop, if_pos hloop]
      refine follow_lift fun _ => ?_
      by_cases hguard : (hasHead && (env.token rest = .word .whileWord || env.token rest = .word .untilWord)) = true
      · rw [if_pos hguard, if_pos hguard]
        rfl
      · rw [if_neg hguard, if_neg hguard]
        exact follow (tailGuard_eq back rest d) fun _ => rfl
    · rw [if_neg hloop, if_neg hloop]
      exact habsent (sym :: rest)

theorem countLoop_lines (a : Nat) (p : Position) (counter : String) (start limit : Expr) (step : Option Expr)
    (body : Block) {again done : Nat} (hagain : again = a + countHeadSize start limit step)
    (hdone : done = again + body.size + 12) :
    (Stmt.countLoop counter start limit step body).lines a p =
      mark p (forCode a counter start limit step ++ .pushValue (.address (done + 1)) :: countTest counter ++
          [.jumpFalse done]) ++
        body.lines again ++
        mark (body.lastPlace p) ([Instruction.copy 1, .pushVariable counter, .binary .add, .assign counter] ++
          countTest counter ++ [Instruction.jumpTrue again, .pop, .pop, .pop]) := by
  subst hagain hdone
  simp [Stmt.lines, forCode, mark]

/-- Behind the body of a `FOR` both branches out of it land. -/
theorem endFor_eq (head : List Instruction) (counter : String) (body : List Line) (again done : Nat) (p q : Position)
    (d : Draft) (hdone : done = d.size + head.length + 9 + body.length + 12) :
    endFor counter again (d.size + (head ++ [Instruction.pushValue (.address 0)] ++ countTest counter).length)
        (d.size + head.length)
        (d.extend (mark p (head ++ [Instruction.pushValue (.address 0)] ++ countTest counter ++
          [Instruction.jumpFalse 0]) ++ body) q) =
      .ok ((), d.extend (mark p (head ++ .pushValue (.address (done + 1)) :: countTest counter ++
        [Instruction.jumpFalse done]) ++ body ++
          mark q ([Instruction.copy 1, .pushVariable counter, .binary .add, .assign counter] ++ countTest counter ++
            [Instruction.jumpTrue again, .pop, .pop, .pop])) q) := by
  have hlength : (countTest counter).length = 7 := rfl
  unfold endFor
  -- only the number of the instructions between the branches matters
  generalize countTest counter = test at hlength
  generalize hmove : [Instruction.copy 1, .pushVariable counter, .binary .add, .assign counter] ++ test = move
  have hmoved : move.length = 11 := by
    rw [← hmove]
    simp [hlength]
  rw [bind_writeAll, bind_discard]
  simp only [Draft.extend_append]
  have hdone : land (d.size + (head ++ [Instruction.pushValue (.address 0)] ++ test).length)
      (d.extend (mark p (head ++ [Instruction.pushValue (.address 0)] ++ test ++ [Instruction.jumpFalse 0]) ++ body ++
        mark q move ++ mark q [.jumpTrue again]) q) =
      .ok ((), d.extend (mark p (head ++ [Instruction.pushValue (.address 0)] ++ test ++
        [Instruction.jumpFalse done]) ++ body ++ mark q move ++ mark q [.jumpTrue again]) q) :=
    land_extend (.jumpFalse 0) done p (mark p (head ++ [Instruction.pushValue (.address 0)] ++ test))
      (body ++ mark q (move ++ [Instruction.jumpTrue again])) rfl (by simp [mark]) (by simp [mark]) (by simp)
      (by simp [hlength, hmoved]; omega)
  have hexit : land (d.size + head.length)
      (d.extend (mark p (head ++ [Instruction.pushValue (.address 0)] ++ test ++ [Instruction.jumpFalse done]) ++
        body ++ mark q move ++ mark q [.jumpTrue again] ++ mark q [.pop]) q) =
      .ok ((), d.extend (mark p (head ++ .pushValue (.address (done + 1)) :: test ++ [Instruction.jumpFalse done]) ++
        body ++ mark q move ++ mark q [.jumpTrue again] ++ mark q [.pop]) q) :=
    land_extend (.pushValue (.address 0)) (done + 1) p (mark p head)
      (mark p (test ++ [Instruction.jumpFalse done]) ++ body ++ mark q (move ++ [Instruction.jumpTrue again, .pop])) rfl
      (by simp [mark]) (by simp [mark]) (by simp) (by simp [hlength, hmoved]; omega)
  rw [bind_ok hdone, bind_discard, Draft.extend_append, bind_ok hexit, writeAll_eq, Draft.extend_append]
  simp [mark]

/-- Behind a `DO` both branches out of it land. -/
theorem endDo_eq (head : Option Guard) (body : List Line) (tail : List Instruction) (done : Nat) (p q : Position)
    (d : Draft) (hdone : done = d.size + 1 + headSize head + body.length + tail.length) :
    endDo (head.map fun g => d.size + 1 + g.condition.size) d.size
        (d.extend (mark p (.pushValue (.address 0) :: headCode (d.size + 1) 0 head) ++ body ++ mark q tail) q) =
      .ok ((), d.extend (mark p (.pushValue (.address (done + 1)) :: headCode (d.size + 1) done head) ++ body ++
        mark q (tail ++ [Instruction.pop])) q) := by
  have htest : (head.map fun g => d.size + 1 + g.condition.size).forM land
      (d.extend (mark p (.pushValue (.address 0) :: headCode (d.size + 1) 0 head) ++ body ++ mark q tail) q) =
      .ok ((), d.extend (mark p (.pushValue (.address 0) :: headCode (d.size + 1) done head) ++ body ++ mark q tail) q)
      := by
    cases head with
    | none => rfl
    | some g =>
      exact land_extend (if g.untilTrue then .jumpTrue 0 else .jumpFalse 0) done p
        (mark p (.pushValue (.address 0) :: g.condition.code (d.size + 1))) (body ++ mark q tail)
        (show _ = some (if g.untilTrue then .jumpTrue done else .jumpFalse done) by cases g.untilTrue <;> rfl)
        (by simp [mark, headCode]) (by simp [mark, headCode]) (by simp; omega) (by simp [hdone]; omega)
  have hexit : land d.size
      (d.extend (mark p (.pushValue (.address 0) :: headCode (d.size + 1) done head) ++ body ++ mark q tail ++
        mark q [.pop]) q) =
      .ok ((), d.extend (mark p (.pushValue (.address (done + 1)) :: headCode (d.size + 1) done head) ++ body ++
        mark q tail ++ mark q [.pop]) q) :=
    land_extend (.pushValue (.address 0)) (done + 1) p []
      (mark p (headCode (d.size + 1) done head) ++ body ++ mark q tail ++ mark q [.pop]) rfl (by simp [mark])
      (by simp [mark]) (by simp) (by simp [hdone]; omega)
  unfold endDo
  rw [bind_ok htest, bind_discard, Draft.extend_append, hexit]
  simp [mark]

/-! ## Routines and branches -/

/-- Behind a routine the branch around it lands. -/
theorem land_routine (isFunction : Bool) (name : String) (parameters : List String) (body : Block) (d : Draft) :
    land (d.size + (if isFunction then [Instruction.allocVar name] else []).length)
        (d.extend (mark d.place ((if isFunction then [Instruction.allocVar name] else []) ++ [.jump 0]) ++
          body.lines (d.size + routineHeadSize isFunction) ++ mark (body.lastPlace d.place) [.ret])
            (body.lastPlace d.place)) =
      .ok ((), d.extend ((Stmt.routine isFunction name parameters body).lines d.size d.place)
        (body.lastPlace d.place)) :=
  land_extend (.jump 0) (d.size + routineHeadSize isFunction + body.size + 1) d.place
    (mark d.place (if isFunction then [.allocVar name] else []))
    (body.lines (d.size + routineHeadSize isFunction) ++ mark (body.lastPlace d.place) [.ret]) rfl (by simp [mark])
    (by simp [mark, Stmt.lines]) (by simp) (by cases isFunction <;> simp [routineHeadSize] <;> omega)

/-- What is written for an `IF` up to the end of its first block, where the branch around that leads to `no`. -/
def branchLines (c : Expr) (yes : Block) (no : Address) (d : Draft) : List Line :=
  mark d.place (c.code d.size ++ [.jumpFalse no]) ++ yes.lines (d.size + c.size + 1)

/-- The branch around the first block of an `IF` lands behind it and behind the `done` instructions that follow. -/
theorem land_branch (c : Expr) (yes : Block) (done : List Line) (d : Draft) {no : Address}
    (hno : no = d.size + c.size + 1 + yes.size + done.length) :
    land (d.size + c.size) (d.extend (branchLines c yes 0 d ++ done) (yes.lastPlace d.place)) =
      .ok ((), d.extend (branchLines c yes no d ++ done) (yes.lastPlace d.place)) :=
  land_extend (.jumpFalse 0) no d.place (mark d.place (c.code d.size)) (yes.lines (d.size + c.size + 1) ++ done) rfl
    (by simp [branchLines, mark]) (by simp [branchLines, mark]) (by simp) (by simp [hno, branchLines]; omega)

/-- Behind the second block of an `IF` the branch around that lands. -/
theorem land_branchElse (c : Expr) (yes no : Block) (d : Draft) :
    land (d.size + c.size + 1 + yes.size)
        (d.extend (branchLines c yes (d.size + c.size + 1 + yes.size + 1) d ++
          mark (yes.lastPlace d.place) [.jump 0] ++ no.lines (d.size + c.size + 1 + yes.size + 1))
            (no.lastPlace (yes.lastPlace d.place))) =
      .ok ((), d.extend ((Stmt.branchElse c yes no).lines d.size d.place) (no.lastPlace (yes.lastPlace d.place))) :=
  land_extend (.jump 0) (d.size + c.size + 1 + yes.size + 1 + no.size) (yes.lastPlace d.place)
    (branchLines c yes (d.size + c.size + 1 + yes.size + 1) d) (no.lines (d.size + c.size + 1 + yes.size + 1)) rfl
    (by simp [mark]) (by simp [branchLines, mark, Stmt.lines]) (by simp [branchLines]; omega)
    (by simp [branchLines]; omega)

/-! ## Blocks -/

theorem leaveScope_eq {names outside : Scopes} {top : Scope} (h : Scopes.popScope names = .ok top outside) (d : Draft) :
    leaveScope names d = .ok (outside, d) := by
  rw [leaveScope, h]
  rfl

theorem bind_begin {β : Type} (p : Position) (k : Unit → Writing β) (d : Draft) :
    (begin p >>= k) d = k () { d with place := p } := rfl

theorem bind_here {β : Type} (k : Address → Writing β) (d : Draft) : (here >>= k) d = k d.size d := rfl

mutual

theorem block_eq (env : Context) (at_ : Place) (stops : List Word) (s : List Symbol) {a : Nat} (d : Draft)
    (ha : a = d.size) : block env at_ stops s d = (Grammar.block env at_ stops a s).map d.behindBlock := by
  subst ha
  cases s with
  | nil =>
    rw [block, Grammar.block]
    exact pure_extend _ _
  | cons sym rest =>
    rw [block, Grammar.block]
    by_cases hdelimiter : sym.token = .delimiter
    · rw [if_pos hdelimiter, if_pos hdelimiter]
      by_cases hend : (at_.singleLine && sym.isNewline) = true
      · rw [if_pos hend, if_pos hend]
        exact pure_extend _ _
      · rw [if_neg hend, if_neg hend]
        exact follow_lift fun _ => follow (block_eq env at_ stops rest d rfl) fun _ => rfl
    rw [if_neg hdelimiter, if_neg hdelimiter]
    by_cases hstop : endsBlock stops sym.token = true
    · rw [if_pos hstop, if_pos hstop]
      exact pure_extend _ _
    rw [if_neg hstop, if_neg hstop]
    refine follow (statement_eq env at_ sym rest d) fun ⟨⟨first, names⟩, r, h⟩ => ?_
    dsimp only [Draft.behindStmt, Passed.map]
    by_cases hends : endsStatement stops (env.token r) = true
    · rw [if_pos hends, if_pos hends]
      refine follow (block_eq _ at_ stops r _ (by simp)) fun ⟨⟨more, names⟩, r', h'⟩ => ?_
      refine congrArg (fun d => Except.ok (_, d)) ?_
      dsimp only [Draft.behindBlock]
      simp only [Draft.extend_extend, Draft.size_extend, Draft.place_extend, Stmt.length_lines]
      rfl
    · rw [if_neg hends, if_neg hends]
      rfl
termination_by 3 * s.length

theorem statement_eq (env : Context) (at_ : Place) (sym : Symbol) (rest : List Symbol) (d : Draft) :
    statement env at_ sym rest d =
      (Grammar.statement env at_ d.size sym rest).map (d.behindStmt sym.position) := by
  rw [statement, Grammar.statement]
  refine (bind_begin _ _ _).trans ?_
  -- from here on the draft bears the place of the statement, so that what is written bears it too
  obtain ⟨d', hd'⟩ : ∃ d' : Draft, d' = { d with place := sym.position } := ⟨_, rfl⟩
  have hsize : d.size = d'.size := by rw [hd']; rfl
  have hbehind : (d.behindStmt sym.position : _ → Passed Scopes rest.length × Draft) = d'.behindStmt d'.place := by
    rw [hd']; rfl
  rw [← hd', hsize, hbehind]
  clear hsize hbehind hd'
  cases lead sym.token with
  | share =>
    by_cases hclosed : (!env.external) = true
    · simp only [hclosed, if_true]
      rfl
    · simp only [hclosed]
      refine follow_lift fun _ => follow_lift fun ⟨⟨shared, names⟩, r, h⟩ => ?_
      exact pure_extend _ _
  | declare =>
    refine follow_lift fun _ => follow_lift fun ⟨⟨declared, names⟩, r, h⟩ => ?_
    exact bind_writeAll _ _
  | constants =>
    refine follow_lift fun _ => follow_lift fun ⟨⟨definitions, names⟩, r, h⟩ => ?_
    exact bind_writeAll _ _
  | routine isFunction =>
    by_cases hclosed : (!at_.declarations) = true
    · simp only [hclosed, if_true]
      rfl
    simp only [hclosed]
    refine follow_lift fun _ => follow_lift fun ⟨⟨name, parameters⟩, r, headed⟩ => ?_
    refine (bind_writeAll _ _).trans ((bind_write _ _).trans ((bind_here _ _).trans ?_))
    have hentry : ((d'.append (if isFunction then [.allocVar name] else [])).append [.jump 0]).size =
        d'.size + routineHeadSize isFunction := by
      cases isFunction <;> simp [routineHeadSize]
    rw [hentry]
    refine follow_lift_ok fun ⟨outside, inside⟩ henter => ?_
    -- the scope that is left behind the body is there, since the body leaves the scopes below its own alone
    refine follow_ok (block_eq _ _ _ r _ hentry.symm) fun ⟨⟨body, names⟩, r, h⟩ hbody => ?_
    refine follow_lift fun closed => ?_
    refine (bind_ok (leaveScope_eq (popScope_body henter hbody) _) _).trans ((bind_discard _ _).trans ?_)
    dsimp only [Draft.behindBlock]
    simp only [hentry]
    simp only [Draft.append_append, Draft.append_extend, Draft.extend_append, Draft.place_append, Draft.size_append]
    exact bind_ok (land_routine isFunction name parameters body d') _
  | branch =>
    refine follow_lift fun _ => follow_parsed (expression_eq rest d') fun c r h => ?_
    refine follow_lift fun ⟨_, r, h⟩ => (bind_write _ _).trans ?_
    refine follow (block_eq _ _ _ r _ (by simp [Nat.add_assoc])) fun ⟨⟨yes, names⟩, r, h⟩ => ?_
    refine follow (branchRest_eq _ _ _ c yes _ _ r d' (by simp) rfl ?_) fun _ => rfl
    simp [Draft.behindBlock, branchLines, Draft.append, Draft.extend_extend, mark, Nat.add_assoc]
  | countLoop =>
    refine follow_lift fun _ => ?_
    refine follow (forHead_eq rest d') fun ⟨⟨⟨counter, start, limit, step⟩, names⟩, r, headed⟩ => ?_
    refine (bind_write _ _).trans ((bind_writeAll _ _).trans ((bind_write _ _).trans ((bind_here _ _).trans ?_)))
    have hagain : ((((d'.append (forCode d'.size counter start limit step)).append [.pushValue (.address 0)]).append
        (countTest counter)).append [.jumpFalse 0]).size = d'.size + countHeadSize start limit step := by
      simp [forCode, countHeadSize]; omega
    refine follow (block_eq _ _ _ r _ hagain.symm) fun ⟨⟨body, names⟩, r, h⟩ => follow_lift fun closed => ?_
    dsimp only [Draft.behindBlock]
    simp only [hagain]
    simp only [Draft.append_append, Draft.append_extend, Draft.place_append, Draft.size_append]
    have hend := endFor_eq (forCode d'.size counter start limit step) counter
      (body.lines (d'.size + countHeadSize start limit step)) (d'.size + countHeadSize start limit step)
      (d'.size + countHeadSize start limit step + body.size + 12) d'.place (body.lastPlace d'.place) d'
      (by simp [forCode, countHeadSize]; omega)
    rw [← countLoop_lines d'.size d'.place counter start limit step body rfl rfl] at hend
    exact bind_ok hend _
  | guardLoop =>
    refine follow_lift fun _ => (bind_write _ _).trans ((bind_here _ _).trans ?_)
    refine follow (headGuard_eq rest _) fun ⟨head, r, headed⟩ => ?_
    have hstart : ((d'.append [.pushValue (.address 0)]).append
        (headCode (d'.append [.pushValue (.address 0)]).size 0 head)).size = d'.size + 1 + headSize head := by
      simp
    refine follow (block_eq _ _ _ r _ hstart.symm) fun ⟨⟨body, names⟩, r, h⟩ => ?_
    dsimp only [Draft.behindBlock, Passed.map]
    simp only [hstart]
    simp only [Draft.append_append, Draft.append_extend, Draft.place_append, Draft.size_append, Option.isSome_map,
      List.length_singleton]
    refine follow (closeDo_eq _ _ _ r _) fun ⟨tail, r, h⟩ => ?_
    have hsize : d'.size + (mark d'.place ([.pushValue (.address 0)] ++ headCode (d'.size + 1) 0 head) ++
        body.lines (d'.size + 1 + headSize head)).length = d'.size + 1 + headSize head + body.size := by
      simp; omega
    have hend := endDo_eq head (body.lines (d'.size + 1 + headSize head))
      (tailCode (d'.size + 1 + headSize head + body.size) (d'.size + 1) tail)
      (d'.size + 1 + headSize head + body.size + tailSize tail) d'.place (body.lastPlace d'.place) d' (by simp)
    simp only [Draft.extend_append, Draft.size_extend, hsize]
    exact bind_ok hend _
  | exit => exact follow_lift fun _ => exitStatement_eq at_ rest d'
  | print => exact follow_lift fun _ => printStatement_eq rest d'
  | notify n => exact (bind_discard _ _).trans (follow_lift fun _ => rfl)
  | dialog dl => exact follow_lift fun _ => follow (dialog_eq dl true rest d') fun _ => rfl
  | name => exact follow_lift fun _ => nameStatement_eq sym rest d'
  | none => rfl
termination_by 3 * rest.length + 2

theorem branchRest_eq (env : Context) (inner : Place) (onLine : Bool) (c : Expr) (yes : Block) (no otherwise : Address)
    (s : List Symbol) (d : Draft) (hno : no = d.size + c.size)
    (hotherwise : otherwise = d.size + c.size + 1 + yes.size + 1) {d' : Draft}
    (hd : d' = d.extend (branchLines c yes 0 d) (yes.lastPlace d.place)) :
    branchRest env inner onLine no s d' =
      (Grammar.branchRest env inner onLine c yes otherwise s).map (d.behindStmt d.place) := by
  subst hno hotherwise hd
  -- without `ELSE` the branch lands behind the block, whether words that close it are there or not
  have hclosed (s : List Symbol) :
      (liftM (closeIf env onLine s) >>= fun closed => land (d.size + c.size) >>= fun _ =>
          pure (closed.map fun _ => env.names) : StmtWriting s)
        (d.extend (branchLines c yes 0 d) (yes.lastPlace d.place)) =
      (closeIf env onLine s >>= fun closed =>
        pure (closed.map fun _ => (Stmt.branch c yes, env.names))).map (d.behindStmt d.place) := by
    have hland := land_branch c yes [] d rfl
    rw [List.append_nil, List.append_nil] at hland
    exact follow_lift fun closed => bind_ok hland _
  cases s with
  | nil =>
    rw [branchRest, Grammar.branchRest]
    exact hclosed []
  | cons sym rest =>
    rw [branchRest, Grammar.branchRest]
    by_cases helse : sym.token = .word .elseWord
    · rw [if_pos helse, if_pos helse]
      refine (bind_write _ _).trans ?_
      rw [Draft.extend_append]
      refine (bind_ok (land_branch c yes (mark _ [.jump 0]) d rfl) _).trans (follow_lift fun _ => ?_)
      refine follow (block_eq _ _ _ rest _ (by simp [branchLines]; omega)) fun ⟨⟨no, names⟩, r, h⟩ => ?_
      refine follow_lift fun closed => ?_
      have hdone : d.size + (branchLines c yes 0 d).length = d.size + c.size + 1 + yes.size := by
        simp [branchLines]; omega
      have hsize : d.size + (branchLines c yes (d.size + c.size + 1 + yes.size + 1) d ++
          mark (yes.lastPlace d.place) [.jump 0]).length = d.size + c.size + 1 + yes.size + 1 := by
        simp [branchLines]; omega
      dsimp only [Draft.behindBlock]
      simp only [Draft.extend_extend, Draft.size_extend, Draft.place_extend, length_mark, List.length_singleton, hdone,
        hsize]
      exact bind_ok (land_branchElse c yes no d) _
    · rw [if_neg helse, if_neg helse]
      exact hclosed (sym :: rest)
termination_by 3 * s.length + 1

end

/-! ## Scripts -/

/-- For a script the lines of its tree are written. -/
theorem script_eq (text : Symbols) (explicit external : Bool) (shared : Scope) (d : Draft) (hd : d.size = 0) :
    script text explicit external shared d = (Grammar.script text explicit external shared).map fun body =>
      ((), d.extend (body.lines 0) (body.lastPlace d.place)) := by
  unfold script Grammar.script
  refine follow_lift fun _ => follow (block_eq _ _ _ text.ahead d hd.symm) fun ⟨⟨body, names⟩, r, h⟩ => ?_
  dsimp only [Draft.behindBlock, Passed.map]
  rw [hd]
  split
  · rfl
  · rfl

end MacroBasic.Compiler
