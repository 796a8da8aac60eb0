/-
The pieces of code. A branch, a loop or a routine is made of the code of its expressions and blocks with instructions
of its own between them, and so is an expression that branches; each piece stands where the sizes of those in front of
it say. What holds of all instructions of the whole is what holds of those of its pieces, and its code stands in a
program where its pieces do.
-/
import MacroBasic.Proofs.Grammar.Code
import MacroBasic.Proofs.Machine.Code

namespace MacroBasic

open Machine

/-! ## Instructions around blocks -/

/-- The instructions of a routine before its body, given the address behind the routine. -/
def defineCode (isFunction : Bool) (name : String) (behind : Nat) : List Instruction :=
  (if isFunction then [.allocVar name] else []) ++ [.jump behind]

/-- The instructions of a counting loop before its body, given the address where the loop is done. -/
def openCode (a : Nat) (counter : String) (start limit : Expr) (step : Option Expr) (done : Nat) : List Instruction :=
  start.code a ++ (.assign counter :: limit.code (a + start.size + 1) ++
    (stepCode (a + start.size + 1 + limit.size) step ++
      (.pushValue (.address (done + 1)) :: countTest counter ++ [.jumpFalse done])))

/-- The instructions of a counting loop behind its body. -/
def closeCode (counter : String) (again : Nat) : List Instruction :=
  [.copy 1, .pushVariable counter, .binary .add, .assign counter] ++
    (countTest counter ++ [.jumpTrue again, .pop, .pop, .pop])

@[simp] theorem length_defineCode (isFunction : Bool) (name : String) (behind : Nat) :
    (defineCode isFunction name behind).length = routineHeadSize isFunction := by
  cases isFunction <;> rfl

@[simp] theorem length_openCode (a : Nat) (counter : String) (start limit : Expr) (step : Option Expr) (done : Nat) :
    (openCode a counter start limit step done).length = countHeadSize start limit step := by
  simp [openCode, countHeadSize]
  omega

@[simp] theorem length_closeCode (counter : String) (again : Nat) : (closeCode counter again).length = 15 := rfl

section Instructions

variable {a : Nat} {p : Position}

theorem code_choice {c x y : Expr} :
    (Expr.choice c x y).code a =
      c.code a ++ (.jumpFalse (a + c.size + x.size + 2) :: x.code (a + c.size + 1) ++
        (.jump (a + c.size + x.size + 2 + y.size) :: y.code (a + c.size + x.size + 2))) := by
  simp only [Expr.code, List.append_assoc]

theorem instructionsOf_routine {isFunction : Bool} {name : String} {parameters : List String} {body : Block} :
    instructionsOf ((Stmt.routine isFunction name parameters body).lines a p) =
      defineCode isFunction name (a + routineHeadSize isFunction + body.size + 1) ++
        (instructionsOf (body.lines (a + routineHeadSize isFunction)) ++ [.ret]) := by
  simp only [Stmt.lines, instructionsOf_append, instructionsOf_mark, defineCode, List.append_assoc]

theorem instructionsOf_branch {c : Expr} {yes : Block} :
    instructionsOf ((Stmt.branch c yes).lines a p) =
      (c.code a ++ [.jumpFalse (a + c.size + 1 + yes.size)]) ++ instructionsOf (yes.lines (a + c.size + 1)) := by
  simp only [Stmt.lines, instructionsOf_append, instructionsOf_mark]

theorem instructionsOf_branchElse {c : Expr} {yes no : Block} :
    instructionsOf ((Stmt.branchElse c yes no).lines a p) =
      (c.code a ++ [.jumpFalse (a + c.size + 1 + yes.size + 1)]) ++
        (instructionsOf (yes.lines (a + c.size + 1)) ++
          ([.jump (a + c.size + 1 + yes.size + 1 + no.size)] ++
            instructionsOf (no.lines (a + c.size + 1 + yes.size + 1)))) := by
  simp only [Stmt.lines, instructionsOf_append, instructionsOf_mark, List.append_assoc]

theorem instructionsOf_countLoop {counter : String} {start limit : Expr} {step : Option Expr} {body : Block} :
    instructionsOf ((Stmt.countLoop counter start limit step body).lines a p) =
      openCode a counter start limit step (a + countHeadSize start limit step + body.size + 12) ++
        (instructionsOf (body.lines (a + countHeadSize start limit step)) ++
          closeCode counter (a + countHeadSize start limit step)) := by
  simp only [Stmt.lines, instructionsOf_append, instructionsOf_mark, openCode, closeCode, List.append_assoc,
    List.cons_append]

theorem instructionsOf_guardLoop {head tail : Option Guard} {body : Block} :
    instructionsOf ((Stmt.guardLoop head body tail).lines a p) =
      .pushValue (.address (a + 1 + headSize head + body.size + tailSize tail + 1)) ::
          headCode (a + 1) (a + 1 + headSize head + body.size + tailSize tail) head ++
        (instructionsOf (body.lines (a + 1 + headSize head)) ++
          (tailCode (a + 1 + headSize head + body.size) (a + 1) tail ++ [.pop])) := by
  simp only [Stmt.lines, instructionsOf_append, instructionsOf_mark, List.append_assoc]

end Instructions

/-! ## What holds of every instruction -/

section EachAt

variable {P : Address → Instruction → Prop} {a : Nat} {p : Position}

theorem eachAt_conjunction {first : Expr} {rest : List Expr} :
    EachAt P a ((Expr.conjunction first rest).code a) ↔
      EachAt P a (first.code a) ∧
      EachAt P (a + first.size) (codeOfRest (a + first.size + sizeOfRest rest + 3) (a + first.size) rest) ∧
      EachAt P (a + first.size + sizeOfRest rest)
        [.jumpFalse (a + first.size + sizeOfRest rest + 3), .pushValue (.boolean true),
          .jump (a + first.size + sizeOfRest rest + 4), .pushValue (.boolean false)] := by
  rw [code_conjunction]
  exact (eachAt_append (by rw [first.length_code])).trans
    (and_congr_right' (eachAt_append (by rw [length_codeOfRest])))

theorem eachAt_choice {c x y : Expr} :
    EachAt P a ((Expr.choice c x y).code a) ↔
      EachAt P a (c.code a) ∧
      EachAt P (a + c.size) (.jumpFalse (a + c.size + x.size + 2) :: x.code (a + c.size + 1)) ∧
      EachAt P (a + c.size + x.size + 1)
        (.jump (a + c.size + x.size + 2 + y.size) :: y.code (a + c.size + x.size + 2)) := by
  rw [code_choice]
  exact (eachAt_append (by rw [c.length_code])).trans (and_congr_right' (eachAt_append (by simp; omega)))

theorem eachAt_routine {isFunction : Bool} {name : String} {parameters : List String} {body : Block} :
    EachAt P a (instructionsOf ((Stmt.routine isFunction name parameters body).lines a p)) ↔
      EachAt P a (defineCode isFunction name (a + routineHeadSize isFunction + body.size + 1)) ∧
      EachAt P (a + routineHeadSize isFunction) (instructionsOf (body.lines (a + routineHeadSize isFunction))) ∧
      EachAt P (a + routineHeadSize isFunction + body.size) [.ret] := by
  rw [instructionsOf_routine]
  exact (eachAt_append (by rw [length_defineCode])).trans (and_congr_right' (eachAt_append (by simp)))

theorem eachAt_branch {c : Expr} {yes : Block} :
    EachAt P a (instructionsOf ((Stmt.branch c yes).lines a p)) ↔
      EachAt P a (c.code a ++ [.jumpFalse (a + c.size + 1 + yes.size)]) ∧
      EachAt P (a + c.size + 1) (instructionsOf (yes.lines (a + c.size + 1))) := by
  rw [instructionsOf_branch]
  exact eachAt_append (by simp; omega)

theorem eachAt_branchElse {c : Expr} {yes no : Block} :
    EachAt P a (instructionsOf ((Stmt.branchElse c yes no).lines a p)) ↔
      EachAt P a (c.code a ++ [.jumpFalse (a + c.size + 1 + yes.size + 1)]) ∧
      EachAt P (a + c.size + 1) (instructionsOf (yes.lines (a + c.size + 1))) ∧
      EachAt P (a + c.size + 1 + yes.size) [.jump (a + c.size + 1 + yes.size + 1 + no.size)] ∧
      EachAt P (a + c.size + 1 + yes.size + 1) (instructionsOf (no.lines (a + c.size + 1 + yes.size + 1))) := by
  rw [instructionsOf_branchElse]
  exact (eachAt_append (by simp; omega)).trans
    (and_congr_right' ((eachAt_append (by simp)).trans (and_congr_right' (eachAt_append rfl))))

theorem eachAt_countLoop {counter : String} {start limit : Expr} {step : Option Expr} {body : Block} :
    EachAt P a (instructionsOf ((Stmt.countLoop counter start limit step body).lines a p)) ↔
      EachAt P a (openCode a counter start limit step (a + countHeadSize start limit step + body.size + 12)) ∧
      EachAt P (a + countHeadSize start limit step)
        (instructionsOf (body.lines (a + countHeadSize start limit step))) ∧
      EachAt P (a + countHeadSize start limit step + body.size)
        (closeCode counter (a + countHeadSize start limit step)) := by
  rw [instructionsOf_countLoop]
  exact (eachAt_append (by rw [length_openCode])).trans (and_congr_right' (eachAt_append (by simp)))

theorem eachAt_guardLoop {head tail : Option Guard} {body : Block} :
    EachAt P a (instructionsOf ((Stmt.guardLoop head body tail).lines a p)) ↔
      EachAt P a (.pushValue (.address (a + 1 + headSize head + body.size + tailSize tail + 1)) ::
        headCode (a + 1) (a + 1 + headSize head + body.size + tailSize tail) head) ∧
      EachAt P (a + 1 + headSize head) (instructionsOf (body.lines (a + 1 + headSize head))) ∧
      EachAt P (a + 1 + headSize head + body.size)
        (tailCode (a + 1 + headSize head + body.size) (a + 1) tail ++ [.pop]) := by
  rw [instructionsOf_guardLoop]
  exact (eachAt_append (by simp; omega)).trans (and_congr_right' (eachAt_append (by simp)))

theorem eachAt_cons {first : Stmt} {rest : Block} :
    EachAt P a (instructionsOf ((Block.cons p first rest).lines a)) ↔
      EachAt P a (instructionsOf (first.lines a p)) ∧
      EachAt P (a + first.size) (instructionsOf (rest.lines (a + first.size))) := by
  rw [Block.lines, instructionsOf_append]
  exact eachAt_append (by simp)

theorem eachAt_openCode {counter : String} {start limit : Expr} {step : Option Expr} {done : Nat} :
    EachAt P a (openCode a counter start limit step done) ↔
      EachAt P a (start.code a) ∧
      EachAt P (a + start.size) (.assign counter :: limit.code (a + start.size + 1)) ∧
      EachAt P (a + start.size + 1 + limit.size) (stepCode (a + start.size + 1 + limit.size) step) ∧
      EachAt P (a + start.size + 1 + limit.size + stepSize step)
        (.pushValue (.address (done + 1)) :: countTest counter ++ [.jumpFalse done]) := by
  rw [openCode]
  exact (eachAt_append (by simp)).trans
    (and_congr_right' ((eachAt_append (by simp; omega)).trans (and_congr_right' (eachAt_append (by simp)))))

theorem eachAt_closeCode {counter : String} {again : Nat} :
    EachAt P a (closeCode counter again) ↔
      EachAt P a [.copy 1, .pushVariable counter, .binary .add, .assign counter] ∧
      EachAt P (a + 4) (countTest counter) ∧ EachAt P (a + 11) [.jumpTrue again, .pop, .pop, .pop] := by
  exact (eachAt_append rfl).trans (and_congr_right' (eachAt_append rfl))

end EachAt

/-! ## Code in place -/

section CodeAt

variable {lines : Array Line} {a : Nat} {p : Position}

theorem codeAt_iff {code : List Instruction} :
    CodeAt lines a code ↔ EachAt (fun b i => lines[b]?.map Line.instruction = some i) a code := Iff.rfl

theorem Machine.CodeAt.conjunction {first : Expr} {rest : List Expr}
    (h : CodeAt lines a ((Expr.conjunction first rest).code a)) :
    CodeAt lines a (first.code a) ∧
      CodeAt lines (a + first.size) (codeOfRest (a + first.size + sizeOfRest rest + 3) (a + first.size) rest) ∧
      CodeAt lines (a + first.size + sizeOfRest rest)
        [.jumpFalse (a + first.size + sizeOfRest rest + 3), .pushValue (.boolean true),
          .jump (a + first.size + sizeOfRest rest + 4), .pushValue (.boolean false)] :=
  eachAt_conjunction.1 (codeAt_iff.1 h)

theorem Machine.CodeAt.choice {c x y : Expr} (h : CodeAt lines a ((Expr.choice c x y).code a)) :
    CodeAt lines a (c.code a) ∧
      CodeAt lines (a + c.size) (.jumpFalse (a + c.size + x.size + 2) :: x.code (a + c.size + 1)) ∧
      CodeAt lines (a + c.size + x.size + 1)
        (.jump (a + c.size + x.size + 2 + y.size) :: y.code (a + c.size + x.size + 2)) :=
  eachAt_choice.1 (codeAt_iff.1 h)

theorem Machine.CodeAt.routine {isFunction : Bool} {name : String} {parameters : List String} {body : Block}
    (h : CodeAt lines a (instructionsOf ((Stmt.routine isFunction name parameters body).lines a p))) :
    CodeAt lines a (defineCode isFunction name (a + routineHeadSize isFunction + body.size + 1)) ∧
      CodeAt lines (a + routineHeadSize isFunction) (instructionsOf (body.lines (a + routineHeadSize isFunction))) ∧
      CodeAt lines (a + routineHeadSize isFunction + body.size) [.ret] :=
  eachAt_routine.1 (codeAt_iff.1 h)

theorem Machine.CodeAt.branch {c : Expr} {yes : Block}
    (h : CodeAt lines a (instructionsOf ((Stmt.branch c yes).lines a p))) :
    CodeAt lines a (c.code a ++ [.jumpFalse (a + c.size + 1 + yes.size)]) ∧
      CodeAt lines (a + c.size + 1) (instructionsOf (yes.lines (a + c.size + 1))) :=
  eachAt_branch.1 (codeAt_iff.1 h)

theorem Machine.CodeAt.branchElse {c : Expr} {yes no : Block}
    (h : CodeAt lines a (instructionsOf ((Stmt.branchElse c yes no).lines a p))) :
    CodeAt lines a (c.code a ++ [.jumpFalse (a + c.size + 1 + yes.size + 1)]) ∧
      CodeAt lines (a + c.size + 1) (instructionsOf (yes.lines (a + c.size + 1))) ∧
      CodeAt lines (a + c.size + 1 + yes.size) [.jump (a + c.size + 1 + yes.size + 1 + no.size)] ∧
      CodeAt lines (a + c.size + 1 + yes.size + 1) (instructionsOf (no.lines (a + c.size + 1 + yes.size + 1))) :=
  eachAt_branchElse.1 (codeAt_iff.1 h)

theorem Machine.CodeAt.countLoop {counter : String} {start limit : Expr} {step : Option Expr} {body : Block}
    (h : CodeAt lines a (instructionsOf ((Stmt.countLoop counter start limit step body).lines a p))) :
    CodeAt lines a (openCode a counter start limit step (a + countHeadSize start limit step + body.size + 12)) ∧
      CodeAt lines (a + countHeadSize start limit step)
        (instructionsOf (body.lines (a + countHeadSize start limit step))) ∧
      CodeAt lines (a + countHeadSize start limit step + body.size)
        (closeCode counter (a + countHeadSize start limit step)) :=
  eachAt_countLoop.1 (codeAt_iff.1 h)

theorem Machine.CodeAt.guardLoop {head tail : Option Guard} {body : Block}
    (h : CodeAt lines a (instructionsOf ((Stmt.guardLoop head body tail).lines a p))) :
    CodeAt lines a (.pushValue (.address (a + 1 + headSize head + body.size + tailSize tail + 1)) ::
        headCode (a + 1) (a + 1 + headSize head + body.size + tailSize tail) head) ∧
      CodeAt lines (a + 1 + headSize head) (instructionsOf (body.lines (a + 1 + headSize head))) ∧
      CodeAt lines (a + 1 + headSize head + body.size)
        (tailCode (a + 1 + headSize head + body.size) (a + 1) tail ++ [.pop]) :=
  eachAt_guardLoop.1 (codeAt_iff.1 h)

theorem Machine.CodeAt.cons {first : Stmt} {rest : Block}
    (h : CodeAt lines a (instructionsOf ((Block.cons p first rest).lines a))) :
    CodeAt lines a (instructionsOf (first.lines a p)) ∧
      CodeAt lines (a + first.size) (instructionsOf (rest.lines (a + first.size))) :=
  eachAt_cons.1 (codeAt_iff.1 h)

theorem Machine.CodeAt.openCode {counter : String} {start limit : Expr} {step : Option Expr} {done : Nat}
    (h : CodeAt lines a (openCode a counter start limit step done)) :
    CodeAt lines a (start.code a) ∧
      CodeAt lines (a + start.size) (.assign counter :: limit.code (a + start.size + 1)) ∧
      CodeAt lines (a + start.size + 1 + limit.size) (stepCode (a + start.size + 1 + limit.size) step) ∧
      CodeAt lines (a + start.size + 1 + limit.size + stepSize step)
        (.pushValue (.address (done + 1)) :: countTest counter ++ [.jumpFalse done]) :=
  eachAt_openCode.1 (codeAt_iff.1 h)

end CodeAt

end MacroBasic
