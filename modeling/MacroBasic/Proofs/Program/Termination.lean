/-
Programs without loops always come to an end. All branches of their code lead onward, so a run of them could only
go on for ever by calling routines without end, and the limit to the number of scopes stops that.
-/
import MacroBasic.Proofs.Machine.Termination
import MacroBasic.Proofs.Program.Depth

namespace MacroBasic

/-! ## Trees without loops -/

mutual

/-- Whether there are no loops in a statement. -/
def Stmt.loopFree : Stmt → Bool
  | .countLoop _ _ _ _ _ | .guardLoop _ _ _ => false
  | .routine _ _ _ body => body.loopFree
  | .branch _ yes => yes.loopFree
  | .branchElse _ yes no => yes.loopFree && no.loopFree
  | _ => true

/-- Whether there are no loops in a block. -/
def Block.loopFree : Block → Bool
  | .nil => true
  | .cons _ first rest => first.loopFree && rest.loopFree

end

/-! ## Branches lead onward -/

section Expressions

theorem Routine.onward_enter (r : Routine) {a : Address} : EachAt Instruction.Onward a r.enter := by
  refine eachAt_of_forall fun x hx b => ?_
  rcases List.mem_append.1 hx with hx | hx
  · obtain ⟨p, _, hx⟩ := List.mem_flatMap.1 hx
    rcases List.mem_cons.1 hx with rfl | hx
    · trivial
    · cases List.mem_singleton.1 hx
      trivial
  · rcases List.mem_cons.1 hx with rfl | hx
    · trivial
    · cases List.mem_singleton.1 hx
      trivial

theorem onward_push {vs : List Value} {a : Address} : EachAt Instruction.Onward a (vs.map .pushValue) := by
  refine eachAt_of_forall fun x hx b => ?_
  obtain ⟨v, _, rfl⟩ := List.mem_map.1 hx
  trivial

mutual

/-- The branches in an expression lead onward. -/
theorem Expr.onward : (e : Expr) → (a : Nat) → EachAt Instruction.Onward a (e.code a)
  | .literal _, _ | .variable _, _ => .one trivial
  | .call r arguments, a =>
    .append (.append (.cons trivial (onward_all arguments (a + 1))) r.onward_enter rfl) (.one trivial) rfl
  | .unary _ e, a => .append (e.onward a) (.one trivial) rfl
  | .binary _ l r, a =>
    .append (.append (l.onward a) (r.onward (a + l.size)) (by rw [l.length_code])) (.one trivial) rfl
  | .conjunction first rest, a => by
    refine eachAt_conjunction.2 ⟨first.onward a, onward_rest rest (by omega),
      .cons ?_ (.cons trivial (.cons ?_ (.one trivial)))⟩
    · show (_ : Nat) < _
      omega
    · show (_ : Nat) < _
      omega
  | .choice c x y, a => by
    refine eachAt_choice.2 ⟨c.onward a, .cons ?_ (x.onward (a + c.size + 1)), .cons ?_ (y.onward _)⟩
    · show (_ : Nat) < _
      omega
    · show (_ : Nat) < _
      omega
  | .dialog d slots, a => by
    refine .append (onward_slots slots) (.cons trivial ?_) rfl
    split
    · exact .nil
    · exact .one trivial

theorem onward_all : (es : List Expr) → (a : Nat) → EachAt Instruction.Onward a (codeOfAll a es)
  | [], _ => .nil
  | e :: rest, a => .append (e.onward a) (onward_all rest (a + e.size)) (by rw [e.length_code])

theorem onward_rest : (es : List Expr) → ∀ {fails a : Nat}, a + sizeOfRest es ≤ fails →
    EachAt Instruction.Onward a (codeOfRest fails a es)
  | [], _, _, _ => .nil
  | e :: rest, fails, a, h => by
    rw [sizeOfRest] at h
    refine .append (b := a + 1 + e.size) (.cons ?_ (e.onward (a + 1))) (onward_rest rest (by omega)) ?_
    · show a < fails
      omega
    · rw [List.length_cons, e.length_code]
      omega

theorem onward_slots : (slots : List Slot) → ∀ {a : Nat} {defaults : List Value},
    EachAt Instruction.Onward a (codeOfSlots a defaults slots)
  | [], _, _ => onward_push
  | slot :: rest, a, defaults => by
    refine .append (slot.onward) (onward_slots rest) ?_
    rw [slot.length_code]
    cases defaults <;> rfl

theorem Slot.onward : (slot : Slot) → ∀ {a : Nat} {standard : Option Value},
    EachAt Instruction.Onward a (slot.code a standard)
  | .omitted, _, none => .nil
  | .omitted, _, some _ => .one trivial
  | .given e, a, standard => by
    refine .append (e.onward a) ?_ rfl
    split
    · exact .one trivial
    · exact .nil

end

end Expressions

section Statements

variable {R : Rules}

theorem onward_print {a : Nat} (e : Option Expr) : EachAt Instruction.Onward a (printCode a e) := by
  cases e with
  | some e => exact e.onward a
  | none => exact .one trivial

mutual

/-- The branches in a statement without loops lead onward. -/
theorem Stmt.onward : (s : Stmt) → ∀ {a : Nat} {p : Position} {inside : Bool}, s.loopFree = true →
    s.Obeys R [] inside → EachAt Instruction.Onward a (instructionsOf (s.lines a p))
  | .share _, _, _, _, _, _ => .nil
  | .declare names, a, p, _, _, _ => by
    rw [Stmt.lines, instructionsOf_mark]
    refine eachAt_of_forall fun x hx b => ?_
    obtain ⟨name, _, rfl⟩ := List.mem_map.1 hx
    trivial
  | .constants definitions, a, p, _, _, _ => by
    rw [Stmt.lines, instructionsOf_mark]
    refine eachAt_of_forall fun x hx b => ?_
    obtain ⟨d, _, rfl⟩ := List.mem_map.1 hx
    trivial
  | .routine isFunction name parameters body, a, p, _, hfree, hobeys => by
    refine eachAt_routine.2 ⟨?_, body.onward hfree hobeys.2.2, .one trivial⟩
    cases isFunction with
    | true => exact .cons trivial (.one (show a + 1 < a + 2 + body.size + 1 by omega))
    | false => exact .one (show a < a + 1 + body.size + 1 by omega)
  | .branch c yes, a, p, _, hfree, hobeys => by
    refine eachAt_branch.2 ⟨.append (b := a + c.size) (c.onward a) (.one ?_) (by rw [c.length_code]),
      yes.onward hfree hobeys.2⟩
    show (_ : Nat) < _
    omega
  | .branchElse c yes no, a, p, _, hfree, hobeys => by
    obtain ⟨hyes, hno⟩ := Bool.and_eq_true_iff.1 hfree
    refine eachAt_branchElse.2 ⟨.append (b := a + c.size) (c.onward a) (.one ?_) (by rw [c.length_code]),
      yes.onward hyes hobeys.2.1, .one ?_, no.onward hno hobeys.2.2⟩
    · show (_ : Nat) < _
      omega
    · show (_ : Nat) < _
      omega
  | .countLoop _ _ _ _ _, _, _, _, hfree, _ | .guardLoop _ _ _, _, _, _, hfree, _ => nomatch hfree
  | .exitLoop _ _, _, _, _, _, hobeys => nomatch hobeys.1
  | .exitRoutine, _, _, _, _, _ | .notify _, _, _, _, _, _ => .one trivial
  | .print e, a, p, _, _, _ => by
    rw [Stmt.lines, instructionsOf_mark]
    exact .append (onward_print e) (.one trivial) rfl
  | .dialog d slots, a, p, _, _, _ => by
    rw [Stmt.lines, instructionsOf_mark]
    refine .append (onward_slots slots) (.cons trivial ?_) rfl
    split
    · exact .one trivial
    · exact .nil
  | .assign name none e, a, p, _, _, _ => by
    rw [Stmt.lines, instructionsOf_mark]
    exact .append (e.onward a) (.one trivial) rfl
  | .assign name (some op) e, a, p, _, _, _ => by
    rw [Stmt.lines, instructionsOf_mark]
    exact .append (.cons trivial (e.onward (a + 1))) (.cons trivial (.one trivial)) rfl
  | .call r arguments, a, p, _, _, _ => by
    rw [Stmt.lines, instructionsOf_mark]
    exact .append (.cons trivial (onward_all arguments (a + 1))) r.onward_enter rfl

theorem Block.onward : (b : Block) → ∀ {a : Nat} {inside : Bool}, b.loopFree = true → b.Obeys R [] inside →
    EachAt Instruction.Onward a (instructionsOf (b.lines a))
  | .nil, _, _, _, _ => .nil
  | .cons p first rest, a, _, hfree, hobeys => by
    obtain ⟨hfirst, hrest⟩ := Bool.and_eq_true_iff.1 hfree
    exact eachAt_cons.2 ⟨first.onward hfirst hobeys.1, rest.onward hrest hobeys.2⟩

end

end Statements

/-! ## Runs -/

namespace Program

open Machine

/-- A source that is parsed to a script without loops is compiled to a program whose runs all come to an end, with
the same bound on the number of instructions for all hosts and shared bindings. It may branch, and its routines
may call each other and themselves as they like. -/
theorem run_ends (options : Options) (bindings : List (String × Value × Kind)) (source : String) (body : Block)
    (hscript : Grammar.script (.ofString source) options.explicit options.external
      (sharing options bindings).external = .ok body) (hfree : body.loopFree = true) :
    ∃ fuel, ∀ p, Prepared ((sharing options bindings).compile source).2 p →
      ∀ {σ : Type} (host : Host (StateM σ)) (st : σ),
        ∃ result after st', p.run host fuel st = (some (result, after), st') := by
  rw [compile_of_script hscript]
  refine ⟨weight body.size [0] + 1, fun p hp σ host st => ?_⟩
  have hlines : p.lines = (body.lines 0).toArray := hp.lines
  have hL := describes_table hscript
  have honward : ∀ (a : Address) (line : Line), p.lines[a]? = some line → line.instruction.Onward a := by
    intro a line hline
    rw [hlines, List.getElem?_toArray] at hline
    have honward := body.onward (a := 0) hfree (obeys_of_script hscript) a line.instruction
      (by rw [instructionsOf, List.getElem?_map, hline]; rfl)
    rwa [Nat.zero_add] at honward
  rw [← hlines] at hL
  have hstart : Laid body.table (starting p.external host st).config [] := ⟨_, hL.start, trivial, .script⟩
  have hfuel : weight p.lines.size [0] < weight body.size [0] + 1 := by
    rw [hlines, List.size_toArray, Block.length_lines]
    exact Nat.lt_succ_self _
  have hdepth : (starting p.external host st).scopes.depth ≤ Scopes.limit := by
    show 2 ≤ 65535
    decide
  obtain ⟨o, st', hrun⟩ : ∃ o st', Machine.run host p.options p.lines (weight body.size [0] + 1)
      (starting p.external host st) (host.clock st).2 = (some o, st') :=
    run_ends_of_onward hL honward hstart hdepth hfuel
  rw [run_ready hp.state hp.error, hrun]
  exact ⟨_, _, _, rfl⟩

/-- A sub that calls itself without end. -/
theorem run_ends_recursion :
    let source := "SUB S\nS\nEND SUB\nS"
    let host : Host (StateM Unit) := .indifferent (pure 0)
    ∃ body fuel result after, Grammar.script (.ofString source) true true .empty = .ok body ∧ body.loopFree = true ∧
      ((sharing {} []).compile source).2.run host fuel () = (some (result, after), ()) := by
  intro source host
  have hparsed : (Grammar.script (.ofString source) true true .empty).toOption.any Block.loopFree = true := by
    decide +kernel
  cases hscript : Grammar.script (.ofString source) true true .empty with
  | error f => rw [hscript] at hparsed; cases hparsed
  | ok body =>
    rw [hscript] at hparsed
    obtain ⟨fuel, hends⟩ := run_ends {} [] source body hscript hparsed
    have hcompile : (sharing {} []).compile source = (.ok (), ofScript {} (sharing {} []).external body) :=
      compile_of_script hscript
    rw [hcompile] at hends ⊢
    obtain ⟨result, after, st', hrun⟩ := hends _ (prepared_of_compile hcompile) host ()
    exact ⟨body, fuel, result, after, rfl, hparsed, hrun⟩

end Program

end MacroBasic
