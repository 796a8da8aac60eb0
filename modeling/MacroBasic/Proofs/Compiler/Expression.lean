/-
What is written for an expression. While an expression is parsed, the instructions of its tree are written, each at
its address, or parsing fails as it does without writing. All branches land.
-/
import MacroBasic.Compiler.Expression
import MacroBasic.Proofs.Compiler.Draft
import MacroBasic.Proofs.Grammar.Reading

namespace MacroBasic.Compiler

open Grammar

variable {d : Draft} {env : Context}

/-! ## Operands joined by `AND` -/

/-- The addresses of the branches in front of operands, the first of which is at `a`. -/
def branchesOf (a : Address) : List Expr → List Address
  | [] => []
  | e :: rest => a :: branchesOf (a + 1 + e.size) rest

theorem branchesOf_isEmpty (a : Address) (rest : List Expr) : (branchesOf a rest).isEmpty = rest.isEmpty := by
  cases rest <;> rfl

/-- The branches in front of operands land together. -/
theorem land_branches (target : Nat) (rest : List Expr) (before behind : List Instruction)
    (h : target = d.size + before.length + sizeOfRest rest + behind.length) :
    (branchesOf (d.size + before.length) rest).forM land
      (d.append (before ++ codeOfRest 0 (d.size + before.length) rest ++ behind)) =
        .ok ((), d.append (before ++ codeOfRest target (d.size + before.length) rest ++ behind)) := by
  induction rest generalizing before with
  | nil => rfl
  | cons e rest ih =>
    have hland := land_append d before
      (e.code (d.size + before.length + 1) ++ codeOfRest 0 (d.size + before.length + 1 + e.size) rest ++ behind)
      (by simp [h, sizeOfRest, length_codeOfRest]; omega) (rfl : (Instruction.jumpFalse 0).retarget? target = _)
    have hrest := ih (before ++ .jumpFalse target :: e.code (d.size + before.length + 1))
      (by simp [h, sizeOfRest]; omega)
    have hat : d.size + (before ++ .jumpFalse target :: e.code (d.size + before.length + 1)).length =
        d.size + before.length + 1 + e.size := by
      simp; omega
    rw [hat] at hrest
    simp only [codeOfRest, List.append_assoc, List.cons_append] at hland hrest ⊢
    -- the branch that has landed stands before the others, which are still open
    exact (bind_ok hland _).trans hrest

/-- What ends operands joined by `AND` leads all branches behind them. -/
theorem closeConjunction_eq (first : Expr) (more : List Expr) (d : Draft) :
    closeConjunction (branchesOf (d.size + first.size) more)
        (d.append (first.code d.size ++ codeOfRest 0 (d.size + first.size) more)) =
      .ok ((), d.append ((Expr.conjunction first more).code d.size)) := by
  have hbranches := land_branches (d := d) (d.size + first.size + sizeOfRest more + 3) more (first.code d.size)
    [.jumpFalse 0, .pushValue (.boolean true), .jump 0] (by simp)
  have hlast := land_append d (first.code d.size ++ codeOfRest (d.size + first.size + sizeOfRest more + 3)
      (d.size + first.size) more) [.pushValue (.boolean true), .jump 0]
    (by simp [length_codeOfRest]; omega)
    (rfl : (Instruction.jumpFalse 0).retarget? (d.size + first.size + sizeOfRest more + 3) = _)
  have hdone := land_append d (first.code d.size ++ codeOfRest (d.size + first.size + sizeOfRest more + 3)
      (d.size + first.size) more ++ [.jumpFalse (d.size + first.size + sizeOfRest more + 3),
        .pushValue (.boolean true)]) [.pushValue (.boolean false)]
    (by simp [length_codeOfRest]; omega)
    (rfl : (Instruction.jump 0).retarget? (d.size + first.size + sizeOfRest more + 4) = _)
  unfold closeConjunction
  rw [bind_write, bind_discard, bind_write]
  simp only [Draft.append_append, Draft.size_append, List.length_append, Expr.length_code, length_codeOfRest,
    List.length_cons, List.length_nil, List.append_assoc, List.cons_append, List.nil_append, Nat.add_assoc,
    Nat.zero_add, Nat.reduceAdd] at hbranches hlast hdone ⊢
  rw [bind_ok hbranches, bind_ok hlast, bind_discard]
  simp only [Draft.append_append, List.append_assoc, List.cons_append, List.nil_append]
  rw [hdone]
  simp [Expr.code, Nat.add_assoc]

/-! ## Choices -/

/-- What is written for a choice up to the branch behind its second operand, where the one behind its first operand
leads to `no`. -/
def choiceHead (c x : Expr) (no a : Address) : List Instruction :=
  c.code a ++ .jumpFalse no :: (x.code (a + c.size + 1) ++ [.jump 0])

/-- The branch behind the first operand of a choice lands. -/
theorem land_choiceHead (c x : Expr) (d : Draft) :
    land (d.size + c.size) (d.append (choiceHead c x 0 d.size)) =
      .ok ((), d.append (choiceHead c x (d.size + c.size + x.size + 2) d.size)) := by
  have hland := land_append d (c.code d.size) (x.code (d.size + c.size + 1) ++ [.jump 0])
    (by simp; omega) (rfl : (Instruction.jumpFalse 0).retarget? (d.size + c.size + x.size + 2) = _)
  rw [Expr.length_code] at hland
  exact hland

/-- The branch behind the second operand of a choice lands. -/
theorem land_choice (c x y : Expr) (d : Draft) :
    land (d.size + c.size + 1 + x.size)
        (d.append (choiceHead c x (d.size + c.size + x.size + 2) d.size ++ y.code (d.size + c.size + x.size + 2))) =
      .ok ((), d.append ((Expr.choice c x y).code d.size)) := by
  have hland := land_append d
    (c.code d.size ++ .jumpFalse (d.size + c.size + x.size + 2) :: x.code (d.size + c.size + 1))
    (y.code (d.size + c.size + x.size + 2)) (by simp; omega)
    (rfl : (Instruction.jump 0).retarget? (d.size + c.size + x.size + 2 + y.size) = _)
  simpa [choiceHead, Expr.code, Nat.add_assoc, Nat.add_comm 1] using hland

/-! ## Expressions -/

/-- What is behind an expression that passes a symbol: its instructions. -/
def Draft.parsed {n : Nat} (d : Draft) (p : Parsed Expr n) : Parsed Unit n × Draft :=
  (p.map fun _ => (), d.append (p.value.code d.size))

/-- What is behind an expression. -/
def Draft.passed {n : Nat} (d : Draft) (p : Passed Expr n) : Passed Unit n × Draft :=
  (p.map fun _ => (), d.append (p.value.code d.size))

/-- Going on behind an expression. -/
theorem follow_parsed {β δ : Type} {n : Nat} {w : Writing (Parsed Unit n)} {k : Parsed Unit n → Writing β}
    {x : Except Fault (Parsed Expr n)} {g : Parsed Expr n → Except Fault δ} {after : δ → β × Draft}
    (hw : w d = x.map d.parsed)
    (hk : ∀ e r h, k ⟨(), r, h⟩ (d.append (e.code d.size)) = (g ⟨e, r, h⟩).map after) :
    (w >>= k) d = (x >>= g).map after :=
  follow hw fun ⟨e, r, h⟩ => hk e r h

theorem factorials_eq (e : Expr) (s : List Symbol) {d d' : Draft} (hd : d' = d.append (e.code d.size)) :
    factorials env s d' = (Grammar.factorials env e s).map d.passed := by
  subst hd
  induction s generalizing e with
  | nil => rfl
  | cons sym rest ih =>
    rw [factorials, Grammar.factorials]
    by_cases hsign : sym.token = .operator .factorial
    · rw [if_pos hsign, if_pos hsign, bind_discard, Draft.append_append]
      exact follow_lift fun _ => follow (ih (.unary .factorial e)) fun _ => rfl
    · rw [if_neg hsign, if_neg hsign]
      rfl

/-! ### Parameters of dialogs -/

theorem codeOfSlots_given (defaults : List Value) (count a : Nat) (e : Expr) (more : List Slot) :
    codeOfSlots a (defaults.drop count) (.given e :: more) =
      e.code a ++ ((if defaults.length ≤ count then [Instruction.pop] else []) ++
        codeOfSlots (a + e.size + (if defaults.length ≤ count then [Instruction.pop] else []).length)
          (defaults.drop (count + 1)) more) := by
  rw [codeOfSlots, List.tail_drop, Slot.code, Slot.size]
  by_cases hdropped : defaults.length ≤ count <;> simp [hdropped, Nat.add_assoc]

theorem codeOfSlots_omitted (defaults : List Value) (count a : Nat) (more : List Slot) :
    codeOfSlots a (defaults.drop count) (.omitted :: more) =
      (defaults[count]?.map Instruction.pushValue).toList ++
        codeOfSlots (a + (defaults[count]?.map Instruction.pushValue).toList.length) (defaults.drop (count + 1))
          more := by
  rw [codeOfSlots, List.tail_drop, Slot.code, Slot.size]
  rcases Nat.lt_or_ge count defaults.length with hcount | hcount
  · simp [List.getElem?_eq_getElem hcount, Nat.not_le.2 hcount]
  · simp [hcount]

/-! ### Expressions in one pass -/

theorem call_name {name : Symbol} {inExpression : Bool} {s : List Symbol} {p : Passed (Routine × List Expr) s.length}
    (h : Grammar.call env name inExpression s = .ok p) : p.value.1.name = name.text := by
  rw [Grammar.call] at h
  obtain ⟨routine, hroutine, h⟩ := bind_eq_ok.1 h
  obtain ⟨⟨found, r, hr⟩, _, h⟩ := bind_eq_ok.1 h
  dsimp only at h
  split at h
  · cases h
    unfold routineOf at hroutine
    split at hroutine
    · split at hroutine
      · split at hroutine <;> cases hroutine
        rfl
      · cases hroutine
    · cases hroutine
  · cases h

mutual

theorem expression_eq (s : List Symbol) (d : Draft) : expression env s d = (Grammar.expression env s).map d.parsed := by
  rw [expression, Grammar.expression]
  refine follow_parsed (conjunction_eq s d) fun first r h => ?_
  exact follow (alternatives_eq first r d rfl) fun _ => rfl
termination_by 16 * s.length + 11

theorem alternatives_eq (left : Expr) (s : List Symbol) (d : Draft) {d' : Draft}
    (hd : d' = d.append (left.code d.size)) :
    alternatives env s d' = (Grammar.alternatives env left s).map d.passed := by
  subst hd
  cases s with
  | nil =>
    rw [alternatives, Grammar.alternatives]
    rfl
  | cons sym rest =>
    rw [alternatives, Grammar.alternatives]
    by_cases hor : sym.token = .operator (.binary .or)
    · rw [if_pos hor, if_pos hor]
      refine follow_lift fun _ => follow_parsed (conjunction_eq rest _) fun right r h => ?_
      refine (bind_discard _ _).trans ?_
      refine follow (alternatives_eq (.binary .or left right) r d ?_) fun _ => rfl
      simp [Draft.append_append, Expr.code]
    · rw [if_neg hor, if_neg hor]
      rfl
termination_by 16 * s.length

theorem conjunction_eq (s : List Symbol) (d : Draft) :
    conjunction env s d = (Grammar.conjunction env s).map d.parsed := by
  rw [conjunction, Grammar.conjunction]
  refine follow_parsed (chain_eq .relation s d) fun first r h => ?_
  refine follow (conjuncts_eq r _) fun ⟨more, r', h'⟩ => ?_
  simp only [Passed.map, branchesOf_isEmpty, Draft.append_append, Draft.size_append, Expr.length_code]
  cases more with
  | nil =>
    rw [codeOfRest, List.append_nil]
    rfl
  | cons e more => exact bind_ok (closeConjunction_eq first (e :: more) d) _
termination_by 16 * s.length + 10
decreasing_by all_goals have := Level.relation.rank_le; omega

theorem conjuncts_eq (s : List Symbol) (d : Draft) :
    conjuncts env s d = (Grammar.conjuncts env s).map fun p =>
      (p.map (branchesOf d.size), d.append (codeOfRest 0 d.size p.value)) := by
  cases s with
  | nil =>
    rw [conjuncts, Grammar.conjuncts]
    exact pure_append _ _
  | cons sym rest =>
    rw [conjuncts, Grammar.conjuncts]
    by_cases hand : sym.token = .operator (.binary .and)
    · rw [if_pos hand, if_pos hand, bind_write]
      refine follow_lift fun _ => follow_parsed (chain_eq .relation rest _) fun e r h => ?_
      refine follow (conjuncts_eq r _) fun ⟨more, r', h'⟩ => ?_
      have hsize : d.size + ([Instruction.jumpFalse 0] ++ e.code (d.size + 1)).length = d.size + 1 + e.size := by
        simp only [List.length_append, List.length_singleton, Expr.length_code]
        omega
      simp only [Draft.append_append, Draft.size_append, List.length_singleton, hsize]
      rfl
    · rw [if_neg hand, if_neg hand]
      exact pure_append _ _
termination_by 16 * s.length
decreasing_by all_goals have := Level.relation.rank_le; simp only [List.length_cons]; omega

theorem chain_eq (l : Level) (s : List Symbol) (d : Draft) :
    chain env l s d = (Grammar.chain env l s).map d.parsed := by
  rw [chain, Grammar.chain]
  refine follow_parsed (chainOperand_eq l s d) fun first r h => ?_
  exact follow (chainRest_eq l first r d rfl) fun _ => rfl
termination_by 16 * s.length + l.rank + 1

theorem chainOperand_eq (l : Level) (s : List Symbol) (d : Draft) :
    chainOperand env l s d = (Grammar.chainOperand env l s).map d.parsed := by
  rw [chainOperand, Grammar.chainOperand]
  cases hl : l.tighter? with
  | some m =>
    have := Level.rank_tighter hl
    exact chain_eq m s d
  | none =>
    have := l.one_lt_rank
    exact factorial_eq s d
termination_by 16 * s.length + l.rank

theorem chainRest_eq (l : Level) (left : Expr) (s : List Symbol) (d : Draft) {d' : Draft}
    (hd : d' = d.append (left.code d.size)) :
    chainRest env l s d' = (Grammar.chainRest env l left s).map d.passed := by
  subst hd
  cases s with
  | nil =>
    rw [chainRest, Grammar.chainRest]
    rfl
  | cons sym rest =>
    rw [chainRest, Grammar.chainRest]
    cases l.operator? sym with
    | some op =>
      have := l.rank_le
      refine follow_lift fun _ => follow_parsed (chainOperand_eq l rest _) fun right r h => ?_
      refine (bind_discard _ _).trans ?_
      refine follow (chainRest_eq l (.binary op left right) r d ?_) fun _ => rfl
      simp [Draft.append_append, Expr.code]
    | none => rfl
termination_by 16 * s.length
decreasing_by all_goals simp only [List.length_cons]; omega

theorem factorial_eq (s : List Symbol) (d : Draft) : factorial env s d = (Grammar.factorial env s).map d.parsed := by
  rw [factorial, Grammar.factorial]
  refine follow_parsed (operand_eq s d) fun first r h => ?_
  exact follow (factorials_eq first r rfl) fun _ => rfl
termination_by 16 * s.length + 1

theorem operand_eq (s : List Symbol) (d : Draft) : operand env s d = (Grammar.operand env s).map d.parsed := by
  cases s with
  | nil =>
    rw [operand, Grammar.operand]
    rfl
  | cons sym rest =>
    rw [operand, Grammar.operand]
    cases opening sym with
    | value v =>
      refine (bind_discard _ _).trans ?_
      exact follow_lift fun _ => rfl
    | sign op =>
      refine follow_lift fun _ => follow_parsed (operand_eq rest d) fun e r h => ?_
      refine (bind_writeAll _ _).trans ?_
      rw [Draft.append_append]
      cases op with
      | none => exact congrArg (fun code => Except.ok (_, d.append code)) (List.append_nil _)
      | some op => rfl
    | function name op =>
      refine follow_lift fun _ => follow_lift fun ⟨_, r, h⟩ => follow_parsed (expression_eq r d) fun e r' h' => ?_
      refine follow_lift fun ⟨_, r'', h''⟩ => (bind_discard _ _).trans ?_
      rw [Draft.append_append]
      rfl
    | choice =>
      refine follow_lift fun _ => follow_lift fun ⟨_, r, h⟩ => follow_parsed (expression_eq r d) fun c r h => ?_
      refine (bind_write _ _).trans ?_
      refine follow_lift fun ⟨_, r, h⟩ => follow_parsed (expression_eq r _) fun x r h => ?_
      refine (bind_write _ _).trans ?_
      -- a branch is written before its target is known, and lands when the code up to there is written
      have hhead : (((d.append (c.code d.size)).append [.jumpFalse 0]).append
          (x.code (d.size + c.size + 1))).append [.jump 0] = d.append (choiceHead c x 0 d.size) := by
        simp [Draft.append_append, choiceHead]
      have hsize (no : Address) : d.size + (choiceHead c x no d.size).length = d.size + c.size + x.size + 2 := by
        simp [choiceHead]; omega
      simp only [Draft.size_append, Expr.length_code, List.length_singleton]
      rw [hhead]
      refine (bind_ok (land_choiceHead c x d) _).trans ?_
      refine follow_lift fun ⟨_, r, h⟩ => follow_parsed (expression_eq r _) fun y r h => ?_
      rw [Draft.append_append, Draft.size_append, hsize]
      refine (bind_ok (land_choice c x y d) _).trans ?_
      exact follow_lift fun _ => rfl
    | dialog dl =>
      refine follow_lift fun _ => ?_
      exact follow (dialog_eq dl false rest d) fun _ => rfl
    | group =>
      refine follow_lift fun _ => follow_parsed (expression_eq rest d) fun e r h => ?_
      exact follow_lift fun ⟨_, r', h'⟩ => rfl
    | name =>
      generalize (env.names.get? sym.text).map Binding.kind = known
      have hvariable : (discard (write (.pushVariable sym.text)) >>= fun _ =>
          liftM (env.arrive rest) >>= fun _ => pure (.one () sym rest) : Writing (Parsed Unit (sym :: rest).length)) d =
          (env.arrive rest >>= fun _ => pure (.one (.variable sym.text) sym rest)).map d.parsed :=
        (bind_discard _ _).trans (follow_lift fun _ => rfl)
      rcases known with _ | kind
      · by_cases hexplicit : env.explicit = true
        · simp only [Option.isNone_none, hexplicit, Bool.and_self, if_true]
          rfl
        · simp only [Option.isNone_none, hexplicit, Bool.and_false, Bool.false_eq_true, if_false]
          exact hvariable
      · cases kind
        case function =>
          refine follow_lift fun _ => follow_ok (call_eq sym true rest d) fun ⟨⟨r, arguments⟩, rest, h⟩ hcall => ?_
          refine (bind_discard _ _).trans ?_
          have hname : r.name = sym.text := call_name hcall
          rw [← hname, Draft.append_append]
          rfl
        case sub => rfl
        all_goals exact hvariable
    | none => rfl
termination_by 16 * s.length

theorem arguments_eq (s : List Symbol) (d : Draft) :
    arguments env s d = (Grammar.arguments env s).map fun p =>
      (p.map List.length, d.append (codeOfAll d.size p.value)) := by
  rw [arguments, Grammar.arguments]
  refine follow_parsed (expression_eq s d) fun e r h => ?_
  refine follow (moreArguments_eq r _) fun p => ?_
  rw [Draft.append_append, Draft.size_append, Expr.length_code]
  rfl
termination_by 16 * s.length + 12

theorem moreArguments_eq (s : List Symbol) (d : Draft) :
    moreArguments env s d = (Grammar.moreArguments env s).map fun p =>
      (p.map List.length, d.append (codeOfAll d.size p.value)) := by
  cases s with
  | nil =>
    rw [moreArguments, Grammar.moreArguments]
    exact pure_append _ _
  | cons sym rest =>
    rw [moreArguments, Grammar.moreArguments]
    by_cases hcomma : sym.token = .comma
    · rw [if_pos hcomma, if_pos hcomma]
      exact follow_lift fun _ => follow (arguments_eq rest d) fun _ => rfl
    · rw [if_neg hcomma, if_neg hcomma]
      exact pure_append _ _
termination_by 16 * s.length

theorem callArguments_eq (inExpression : Bool) (s : List Symbol) (d : Draft) :
    callArguments env inExpression s d = (Grammar.callArguments env inExpression s).map fun p =>
      (p.map List.length, d.append (codeOfAll d.size p.value)) := by
  cases s with
  | nil =>
    rw [callArguments, Grammar.callArguments]
    exact pure_append _ _
  | cons sym rest =>
    rw [callArguments, Grammar.callArguments]
    by_cases hopen : sym.token = .openParen
    · rw [if_pos hopen, if_pos hopen]
      refine follow_lift fun _ => ?_
      by_cases hclose : env.token rest = .closeParen
      · rw [if_pos hclose, if_pos hclose]
        refine follow_lift fun _ => ?_
        exact pure_append _ _
      · rw [if_neg hclose, if_neg hclose]
        refine follow (arguments_eq rest d) fun ⟨found, r, h⟩ => ?_
        exact follow_lift fun _ => rfl
    · rw [if_neg hopen, if_neg hopen]
      by_cases hbare : (!inExpression && sym.token.startsExpression) = true
      · rw [if_pos hbare, if_pos hbare]
        exact follow (arguments_eq (sym :: rest) d) fun _ => rfl
      · rw [if_neg hbare, if_neg hbare]
        exact pure_append _ _
termination_by 16 * s.length + 13

theorem call_eq (name : Symbol) (inExpression : Bool) (s : List Symbol) (d : Draft) :
    call env name inExpression s d = (Grammar.call env name inExpression s).map fun p =>
      (p.map fun _ => (), d.append (.pushScope :: codeOfAll (d.size + 1) p.value.2 ++ p.value.1.enter)) := by
  rw [call, Grammar.call]
  refine follow_lift fun routine => (bind_discard _ _).trans ?_
  refine follow (callArguments_eq inExpression s _) fun ⟨found, r, h⟩ => ?_
  dsimp only [Passed.map]
  by_cases hcount : found.length = routine.parameters.length
  · rw [if_pos hcount, if_pos hcount]
    refine (bind_writeAll _ _).trans ?_
    rw [Draft.append_append, Draft.append_append, Draft.size_append]
    rfl
  · rw [if_neg hcount, if_neg hcount]
    rfl
termination_by 16 * s.length + 14

theorem dialog_eq (dl : Dialog) (asStatement : Bool) (s : List Symbol) (d : Draft) :
    dialog env dl asStatement s d = (Grammar.dialogSlots env dl asStatement s).map fun p =>
      (p.map fun _ => (),
        d.append (codeOfSlots d.size dl.defaults p.value ++ .dialog dl :: dialogEnd dl asStatement)) := by
  rw [dialog, ← bind_pure (Grammar.dialogSlots env dl asStatement s)]
  refine follow (dialogSlots_eq dl asStatement s d) fun p => (bind_writeAll _ _).trans ?_
  rw [Draft.append_append]
  rfl
termination_by 16 * s.length + 14

theorem dialogSlots_eq (dl : Dialog) (asStatement : Bool) (s : List Symbol) (d : Draft) :
    dialogSlots env dl asStatement s d = (Grammar.dialogSlots env dl asStatement s).map fun p =>
      (p.map fun _ => (), d.append (codeOfSlots d.size dl.defaults p.value)) := by
  cases s with
  | nil =>
    rw [dialogSlots, Grammar.dialogSlots]
    cases asStatement with
    | true => exact bind_writeAll _ _
    | false => rfl
  | cons sym rest =>
    rw [dialogSlots, Grammar.dialogSlots]
    by_cases hopen : sym.token = .openParen
    · rw [if_pos hopen, if_pos hopen]
      refine follow_lift fun _ => ?_
      by_cases hclose : env.token rest = .closeParen
      · rw [if_pos hclose, if_pos hclose]
        exact (bind_writeAll _ _).trans (follow_lift fun _ => rfl)
      · rw [if_neg hclose, if_neg hclose]
        refine follow (slots_eq dl 0 rest d) fun ⟨found, r, h⟩ => ?_
        exact follow_lift fun _ => rfl
    · rw [if_neg hopen, if_neg hopen]
      by_cases hexpression : (!asStatement) = true
      · rw [if_pos hexpression, if_pos hexpression]
        rfl
      · rw [if_neg hexpression, if_neg hexpression]
        by_cases hbare : (sym.token.startsExpression || sym.token = .comma) = true
        · rw [if_pos hbare, if_pos hbare]
          exact slots_eq dl 0 (sym :: rest) d
        · rw [if_neg hbare, if_neg hbare]
          exact bind_writeAll _ _
termination_by 16 * s.length + 13

theorem slots_eq (dl : Dialog) (count : Nat) (s : List Symbol) (d : Draft) :
    slots env dl count s d = (Grammar.slots env dl count s).map fun p =>
      (p.map fun _ => (), d.append (codeOfSlots d.size (dl.defaults.drop count) p.value)) := by
  rw [slots, Grammar.slots]
  by_cases hmost : count = dl.most
  · rw [if_pos hmost, if_pos hmost]
    rfl
  rw [if_neg hmost, if_neg hmost]
  by_cases hgiven : (env.token s).startsExpression = true
  · rw [if_pos hgiven, if_pos hgiven]
    refine follow_parsed (expression_eq s d) fun e r h => ?_
    refine (bind_writeAll _ _).trans ?_
    refine follow (moreSlots_eq dl (count + 1) r _) fun ⟨more, r', h'⟩ => ?_
    rw [Draft.append_append, Draft.append_append, Draft.size_append, Draft.size_append, Expr.length_code]
    exact congrArg (fun code => Except.ok (_, d.append code)) (codeOfSlots_given dl.defaults count d.size e more).symm
  · rw [if_neg hgiven, if_neg hgiven]
    refine (bind_writeAll _ _).trans ?_
    rw [← bind_pure (moreSlots env dl (count + 1) s)]
    refine follow (moreSlots_eq dl (count + 1) s _) fun ⟨more, r, h⟩ => ?_
    rw [Draft.append_append, Draft.size_append]
    exact congrArg (fun code => Except.ok (_, d.append code)) (codeOfSlots_omitted dl.defaults count d.size more).symm
termination_by 16 * s.length + 12

theorem moreSlots_eq (dl : Dialog) (count : Nat) (s : List Symbol) (d : Draft) :
    moreSlots env dl count s d = (Grammar.moreSlots env dl count s).map fun p =>
      (p.map fun _ => (), d.append (codeOfSlots d.size (dl.defaults.drop count) p.value)) := by
  cases s with
  | nil =>
    rw [moreSlots, Grammar.moreSlots]
    exact bind_writeAll _ _
  | cons sym rest =>
    rw [moreSlots, Grammar.moreSlots]
    by_cases hcomma : sym.token = .comma
    · rw [if_pos hcomma, if_pos hcomma]
      exact follow_lift fun _ => follow (slots_eq dl count rest d) fun _ => rfl
    · rw [if_neg hcomma, if_neg hcomma]
      exact bind_writeAll _ _
termination_by 16 * s.length

end

end MacroBasic.Compiler
