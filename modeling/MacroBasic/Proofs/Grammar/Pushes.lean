/-
What the code of a proper tree puts on the stacks. The only addresses that it pushes are those behind loops, and each
of them comes to a place where the table of layouts has that address; what it copies comes from a place of a value,
and no name that it reads is that of a return address.
-/
import MacroBasic.Proofs.Grammar.Layout
import MacroBasic.Proofs.Grammar.Wording
import MacroBasic.Proofs.Machine.Operands

namespace MacroBasic

open Machine

/-! ## Expressions

Code of expressions is clean wherever it stands.
-/

section Expressions

variable {L : Address → Option Layout} {R : Rules}

theorem clean_enter (r : Routine) : ∀ i ∈ r.enter, ∀ b, i.Clean L b := by
  intro i hi b
  simp only [Routine.enter, bindParameters, List.mem_append, List.mem_flatMap, List.mem_cons, List.not_mem_nil,
    or_false] at hi
  rcases hi with ⟨p, _, rfl | rfl⟩ | rfl | rfl
  all_goals trivial

theorem Dialog.plain_defaults (d : Dialog) : ∀ v ∈ d.defaults, v.Plain := by
  cases d <;> simp [Dialog.defaults, Value.Plain]

mutual

theorem Expr.clean (hR : ∀ n, R.name n → n ≠ returnName) : (e : Expr) → ∀ {a : Address}, e.Proper R →
    ∀ i ∈ e.code a, ∀ b, i.Clean L b
  | .literal v, a, h, i, hi, b => by
    rw [List.mem_singleton.1 hi]
    exact .inl h
  | .variable name, a, h, i, hi, b => by
    rw [List.mem_singleton.1 hi]
    exact hR name h
  | .call r arguments, a, h, i, hi, b => by
    simp only [Expr.code, List.cons_append, List.mem_append, List.mem_cons, List.not_mem_nil, or_false] at hi
    rcases hi with rfl | (hi | hi) | rfl
    · trivial
    · exact clean_all hR arguments h.2 i hi b
    · exact clean_enter r i hi b
    · exact hR r.name h.1
  | .unary op e, a, h, i, hi, b => by
    rcases List.mem_append.1 hi with hi | hi
    · exact e.clean hR h i hi b
    · rw [List.mem_singleton.1 hi]
      trivial
  | .binary op l r, a, h, i, hi, b => by
    simp only [Expr.code, List.mem_append, List.mem_singleton] at hi
    rcases hi with (hi | hi) | rfl
    · exact l.clean hR h.1 i hi b
    · exact r.clean hR h.2 i hi b
    · trivial
  | .conjunction first rest, a, h, i, hi, b => by
    simp only [Expr.code, List.mem_append, List.mem_cons, List.not_mem_nil, or_false] at hi
    rcases hi with (hi | hi) | rfl | rfl | rfl | rfl
    · exact first.clean hR h.1 i hi b
    · exact clean_rest hR rest h.2 i hi b
    · trivial
    · exact .inl trivial
    · trivial
    · exact .inl trivial
  | .choice c x y, a, h, i, hi, b => by
    simp only [Expr.code, List.cons_append, List.append_assoc, List.mem_append, List.mem_cons] at hi
    rcases hi with hi | rfl | hi | rfl | hi
    · exact c.clean hR h.1 i hi b
    · trivial
    · exact x.clean hR h.2.1 i hi b
    · trivial
    · exact y.clean hR h.2.2 i hi b
  | .dialog d slots, a, h, i, hi, b => by
    simp only [Expr.code, List.mem_append, List.mem_cons] at hi
    rcases hi with hi | rfl | hi
    · exact clean_slots hR slots h d.plain_defaults i hi b
    · trivial
    · split at hi
      · cases hi
      · rw [List.mem_singleton.1 hi]
        exact .inl trivial

theorem clean_all (hR : ∀ n, R.name n → n ≠ returnName) : (es : List Expr) → ∀ {a : Address}, AllProper R es →
    ∀ i ∈ codeOfAll a es, ∀ b, i.Clean L b
  | [], _, _, _, hi, _ => by cases hi
  | e :: rest, a, h, i, hi, b => by
    rcases List.mem_append.1 hi with hi | hi
    · exact e.clean hR h.1 i hi b
    · exact clean_all hR rest h.2 i hi b

theorem clean_rest (hR : ∀ n, R.name n → n ≠ returnName) : (es : List Expr) → ∀ {fails a : Address}, AllProper R es →
    ∀ i ∈ codeOfRest fails a es, ∀ b, i.Clean L b
  | [], _, _, _, _, hi, _ => by cases hi
  | e :: rest, fails, a, h, i, hi, b => by
    rw [codeOfRest, List.cons_append, List.mem_cons, List.mem_append] at hi
    rcases hi with rfl | hi | hi
    · trivial
    · exact e.clean hR h.1 i hi b
    · exact clean_rest hR rest h.2 i hi b

theorem clean_slots (hR : ∀ n, R.name n → n ≠ returnName) : (slots : List Slot) → ∀ {a : Address}
    {defaults : List Value}, SlotsProper R slots → (∀ v ∈ defaults, v.Plain) →
    ∀ i ∈ codeOfSlots a defaults slots, ∀ b, i.Clean L b
  | [], a, defaults, _, hd, i, hi, b => by
    rw [codeOfSlots] at hi
    obtain ⟨v, hv, rfl⟩ := List.mem_map.1 hi
    exact .inl (hd v hv)
  | slot :: rest, a, defaults, h, hd, i, hi, b => by
    rw [codeOfSlots, List.mem_append] at hi
    rcases hi with hi | hi
    · exact slot.clean hR h.1 (fun v hv => hd v (List.mem_of_mem_head? hv)) i hi b
    · exact clean_slots hR rest h.2 (fun v hv => hd v (List.mem_of_mem_tail hv)) i hi b

theorem Slot.clean (hR : ∀ n, R.name n → n ≠ returnName) : (slot : Slot) → ∀ {a : Address} {standard : Option Value},
    slot.Proper R → (∀ v ∈ standard, v.Plain) → ∀ i ∈ slot.code a standard, ∀ b, i.Clean L b
  | .omitted, a, standard, _, hd, i, hi, b => by
    rw [Slot.code, Option.mem_toList] at hi
    obtain ⟨v, hv, rfl⟩ := Option.map_eq_some_iff.1 hi
    exact .inl (hd v hv)
  | .given e, a, standard, h, _, i, hi, b => by
    rw [Slot.code, List.mem_append] at hi
    rcases hi with hi | hi
    · exact e.clean hR h i hi b
    · split at hi
      · rw [List.mem_singleton.1 hi]
        trivial
      · cases hi

end

end Expressions

/-! ## Statements -/

section Loops

variable {L : Address → Option Layout} {R : Rules} (hR : ∀ n, R.name n → n ≠ returnName)

/-- The test of a counting loop copies the step and the limit of the loop. -/
theorem clean_test {counter : String} (hcounter : counter ≠ returnName) {a : Nat} {behind : Address} {s : Shape}
    (h : ListsAt L a (testLayouts (Loop.forLoop.inner behind s))) :
    EachAt (Instruction.Clean L) a (countTest counter) := by
  refine .cons ⟨_, h.first, rfl⟩ (.cons hcounter (.cons trivial ?_))
  exact .cons ⟨_, h.tail.tail.tail.first, rfl⟩ (.cons trivial (.cons (.inl trivial) (.one trivial)))

theorem clean_close {counter : String} (hcounter : counter ≠ returnName) {a : Nat} {behind again : Address} {s : Shape}
    (h : ListsAt L a (closeLayouts (Loop.forLoop.inner behind s))) :
    EachAt (Instruction.Clean L) a (closeCode counter again) := by
  have htest := h.right (b := a + 4) rfl
  refine eachAt_closeCode.2 ⟨?_, clean_test hcounter htest.left, ?_⟩
  · exact .cons ⟨_, h.first, rfl⟩ (.cons hcounter (.cons trivial (.one trivial)))
  · exact .cons trivial (.cons trivial (.cons trivial (.one trivial)))

include hR

theorem clean_step {step : Option Expr} {a : Address} (h : ∀ e ∈ step, e.Proper R) :
    ∀ i ∈ stepCode a step, ∀ b, i.Clean L b := by
  cases step with
  | none =>
    intro i hi b
    rw [List.mem_singleton.1 hi]
    exact .inl trivial
  | some e => exact e.clean hR (h e rfl)

theorem clean_head {head : Option Guard} {a exit : Address} (h : ∀ g ∈ head, g.condition.Proper R) :
    ∀ i ∈ headCode a exit head, ∀ b, i.Clean L b := by
  intro i hi b
  cases head with
  | none => cases hi
  | some g =>
    rcases List.mem_append.1 hi with hi | hi
    · exact g.condition.clean hR (h g rfl) i hi b
    · rw [List.mem_singleton.1 hi]
      split <;> trivial

theorem clean_tail {tail : Option Guard} {a back : Address} (h : ∀ g ∈ tail, g.condition.Proper R) :
    ∀ i ∈ tailCode a back tail, ∀ b, i.Clean L b := by
  intro i hi b
  cases tail with
  | none =>
    rw [List.mem_singleton.1 hi]
    trivial
  | some g =>
    rcases List.mem_append.1 hi with hi | hi
    · exact g.condition.clean hR (h g rfl) i hi b
    · rw [List.mem_singleton.1 hi]
      split <;> trivial

theorem clean_open {counter : String} (hcounter : counter ≠ returnName) {start limit : Expr} (hstart : start.Proper R)
    (hlimit : limit.Proper R) {step : Option Expr} (hstep : ∀ e ∈ step, e.Proper R) {a done : Nat} {s : Shape}
    (h : ListsAt L a (openLayouts s (Loop.forLoop.inner (done + 1) s) start limit step)) :
    EachAt (Instruction.Clean L) a (openCode a counter start limit step done) := by
  have hassign := h.right (b := a + start.size) (by rw [start.length_layouts])
  have hafter := hassign.tail.right (b := a + start.size + 1 + limit.size) (by rw [limit.length_layouts])
  have hexit := hafter.right (b := a + start.size + 1 + limit.size + stepSize step) (by rw [length_stepLayouts])
  refine eachAt_openCode.2 ⟨eachAt_of_forall (start.clean hR hstart), .cons trivial ?_, ?_, ?_⟩
  · exact eachAt_of_forall (limit.clean hR hlimit)
  · exact eachAt_of_forall (clean_step hR hstep)
  · -- above the limit and the step comes the address behind the loop
    refine .cons (.inr ⟨s.values 2, done + 1, hexit.tail.first⟩) ?_
    exact .append (clean_test hcounter hexit.tail.left) (.one trivial) rfl

end Loops

section Statements

variable {L : Address → Option Layout} {R : Rules}

mutual

/-- The code of a proper statement is clean if its layouts are in the table. -/
theorem Stmt.clean (hR : ∀ n, R.name n → n ≠ returnName) : (stmt : Stmt) → ∀ {a b : Nat} {p : Position} {s : Shape},
    stmt.Proper R → ListsAt L a (stmt.layouts a s) → L b = some (.shaped s) → a + stmt.size = b →
    EachAt (Instruction.Clean L) a (instructionsOf (stmt.lines a p))
  | .share _, _, _, _, _, _, _, _, _ => .nil
  | .declare names, a, b, p, s, _, _, _, _ => by
    rw [Stmt.lines, instructionsOf_mark]
    refine eachAt_of_forall fun i hi b => ?_
    obtain ⟨name, _, rfl⟩ := List.mem_map.1 hi
    trivial
  | .constants definitions, a, b, p, s, h, _, _, _ => by
    rw [Stmt.lines, instructionsOf_mark]
    refine eachAt_of_forall fun i hi b => ?_
    obtain ⟨d, hd, rfl⟩ := List.mem_map.1 hi
    exact h d hd
  | .routine isFunction name parameters body, a, b, p, s, h, hlaid, _, _ => by
    have hbody := Stmt.routine_body hlaid
    have hret := (hbody.right (b := a + routineHeadSize isFunction + body.size) (by rw [body.length_layouts])).first
    refine eachAt_routine.2 ⟨?_, body.clean hR h hbody.left hret rfl, .one trivial⟩
    cases isFunction with
    | true => exact .cons trivial (.one trivial)
    | false => exact .one trivial
  | .branch c yes, a, b, p, s, h, hlaid, hend, hb => by
    have hbranch := hlaid.right (b := a + c.size) (by rw [c.length_layouts])
    rw [Stmt.size] at hb
    rw [show b = a + c.size + 1 + yes.size by omega] at hend
    refine eachAt_branch.2 ⟨?_, yes.clean hR h.2 hbranch.tail hend rfl⟩
    exact .append (eachAt_of_forall (c.clean hR h.1)) (.one trivial) rfl
  | .branchElse c yes no, a, b, p, s, h, hlaid, hend, hb => by
    have hbranch := hlaid.right (b := a + c.size) (by rw [c.length_layouts])
    have hskip := hbranch.tail.right (b := a + c.size + 1 + yes.size) (by rw [yes.length_layouts])
    rw [Stmt.size] at hb
    rw [show b = a + c.size + 1 + yes.size + 1 + no.size by omega] at hend
    refine eachAt_branchElse.2 ⟨?_, yes.clean hR h.2.1 hbranch.tail.left hskip.first rfl, .one trivial,
      no.clean hR h.2.2 hskip.tail hend rfl⟩
    exact .append (eachAt_of_forall (c.clean hR h.1)) (.one trivial) rfl
  | .countLoop counter start limit step body, a, b, p, s, h, hlaid, _, _ => by
    obtain ⟨hcounter, hstart, hlimit, hstep, hbody⟩ := h
    have hinner := hlaid.right (b := a + countHeadSize start limit step) (by rw [length_openLayouts])
    have hclose := hinner.right (b := a + countHeadSize start limit step + body.size) (by rw [body.length_layouts])
    refine eachAt_countLoop.2 ⟨?_, ?_, clean_close (hR _ hcounter) hclose⟩
    · exact clean_open hR (hR _ hcounter) hstart hlimit hstep hlaid.left
    · exact body.clean hR hbody hinner.left (hclose 0 _ rfl) rfl
  | .guardLoop head body tail, a, b, p, s, h, hlaid, _, _ => by
    obtain ⟨hhead, hbody, htail⟩ := h
    have hinner := hlaid.tail.right (b := a + 1 + headSize head) (by rw [length_headLayouts])
    have hclose := hinner.right (b := a + 1 + headSize head + body.size) (by rw [body.length_layouts])
    have hafter := start_tail hclose.left
    have hagain := start_head hlaid.tail.left (body.start hinner.left hafter)
    -- the address behind the loop is pushed to the place that the table has for it
    refine eachAt_guardLoop.2 ⟨?_, body.clean hR hbody hinner.left hafter rfl, ?_⟩
    · exact .cons (.inr ⟨s, _, hagain⟩) (eachAt_of_forall (clean_head hR hhead))
    · exact .append (eachAt_of_forall (clean_tail hR htail)) (.one trivial) rfl
  | .exitLoop kind inner, a, b, p, s, _, _, _, _ => by
    rw [Stmt.lines, instructionsOf_mark]
    refine eachAt_of_forall fun i hi b => ?_
    rcases List.mem_append.1 hi with hi | hi
    · rw [List.eq_of_mem_replicate hi]
      trivial
    · rw [List.mem_singleton.1 hi]
      trivial
  | .exitRoutine, _, _, _, _, _, _, _, _ | .notify _, _, _, _, _, _, _, _, _ => .one trivial
  | .print e, a, b, p, s, h, _, _, _ => by
    rw [Stmt.lines, instructionsOf_mark]
    refine .append (eachAt_of_forall ?_) (.one trivial) rfl
    cases e with
    | none =>
      intro i hi b
      rw [List.mem_singleton.1 hi]
      exact .inl trivial
    | some e => exact e.clean hR (h e rfl)
  | .dialog d slots, a, b, p, s, h, _, _, _ => by
    rw [Stmt.lines, instructionsOf_mark]
    refine .append (eachAt_of_forall (clean_slots hR slots h d.plain_defaults)) (.cons trivial ?_) rfl
    split
    · exact .one trivial
    · exact .nil
  | .assign name none e, a, b, p, s, h, _, _, _ => by
    rw [Stmt.lines, instructionsOf_mark]
    exact .append (eachAt_of_forall (e.clean hR h.2)) (.one trivial) rfl
  | .assign name (some op) e, a, b, p, s, h, _, _, _ => by
    rw [Stmt.lines, instructionsOf_mark]
    refine .cons (hR name h.1) (.append (eachAt_of_forall (e.clean hR h.2)) ?_ rfl)
    exact .cons trivial (.one trivial)
  | .call r arguments, a, b, p, s, h, _, _, _ => by
    rw [Stmt.lines, instructionsOf_mark]
    refine .cons trivial (.append (eachAt_of_forall (clean_all hR arguments h)) ?_ rfl)
    exact eachAt_of_forall (clean_enter r)

theorem Block.clean (hR : ∀ n, R.name n → n ≠ returnName) : (block : Block) → ∀ {a b : Nat} {s : Shape}, block.Proper R →
    ListsAt L a (block.layouts a s) → L b = some (.shaped s) → a + block.size = b →
    EachAt (Instruction.Clean L) a (instructionsOf (block.lines a))
  | .nil, _, _, _, _, _, _, _ => .nil
  | .cons p first rest, a, b, s, h, hlaid, hend, hb => by
    have hrest := hlaid.right (b := a + first.size) (by rw [first.length_layouts])
    rw [Block.size] at hb
    rw [show b = a + first.size + rest.size by omega] at hend
    refine eachAt_cons.2 ⟨?_, rest.clean hR h.2 hrest hend rfl⟩
    exact first.clean hR h.1 hlaid.left (rest.start hrest hend) rfl

end

end Statements

end MacroBasic
