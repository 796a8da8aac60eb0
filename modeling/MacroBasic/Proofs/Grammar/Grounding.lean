/-
Code that keeps to outlooks. An expression binds nothing but parameters of calls, and it leads only from one of its
instructions to another or to its end, so all its code has one outlook. Statements lead to where no more is sure: a
branch or a loop can be entered or skipped only where the outlook around it lasts.
-/
import MacroBasic.Proofs.Grammar.Outlooks

namespace MacroBasic

open Machine

section Expressions

variable (lines : Array Line) (L : Address → Option Layout) (O : Address → Option Outlook)

/-- An instruction keeps to the outlook at its address, and it gives a name a value only as a parameter that it has
just bound. -/
structure Steady (b : Nat) (i : Instruction) : Prop where
  secures : Secures lines L (sureAt O) b i
  given : ∀ x, i = .assign x → Readied lines x b ∧ ∃ r, Prepares lines r b

/-- Where an outlook lasts, a routine may be called that counts only on what is sure, and on its parameters. -/
def granted (o : Outlook) : Rules where
  name _ := True
  routine r := ∀ x ∈ sureAt O r.entry, x ∈ o.sure ∨ x ∈ r.parameters

end Expressions

section Expressions

variable {lines : Array Line} {L : Address → Option Layout} {O : Address → Option Outlook} {o : Outlook}
  {a b : Nat} {i : Instruction} {code code' : List Instruction} {x : String}

theorem secures_advances (hi : i.advances) (h : sureAt O (b + 1) ⊆ sureAt O b) : Secures lines L (sureAt O) b i := by
  cases i with
  | allocConst | allocVar | assign | jump | jumpTrue | jumpFalse | jumpPop | call | ret => cases hi
  | _ => exact h

theorem steady_advances (hi : i.advances) (ho : o.Lasts O b (b + 1)) : Steady lines L O b i := by
  refine ⟨secures_advances hi ?_, fun x hx => by rw [hx] at hi; cases hi⟩
  rw [ho.first]
  exact ho.last

theorem eachAt_steady_advances (ho : o.Lasts O a (a + code.length)) (hcode : ∀ x ∈ code, x.advances) :
    EachAt (Steady lines L O) a code := by
  intro n x hx
  have hn := (List.getElem?_eq_some_iff.1 hx).1
  exact steady_advances (hcode x (List.mem_of_getElem? hx)) ho.mono

/-- Code that advances may follow. -/
theorem EachAt.steady_before (h : EachAt (Steady lines L O) a code) (ho : o.Lasts O a (a + (code ++ code').length))
    (hcode : ∀ x ∈ code', x.advances) : EachAt (Steady lines L O) a (code ++ code') := by
  rw [List.length_append] at ho
  exact h.append (eachAt_steady_advances ho.mono hcode) rfl

/-! ## Calls -/

/-- Binding the parameters that are still missing, one after the other, and calling the routine. -/
theorem steady_bind {r : Routine} (hr : (granted O o).routine r) :
    ∀ (parameters : List String) {b : Nat}, parameters ⊆ r.parameters →
      (∀ p ∈ r.parameters, p ∈ parameters ∨ Readied lines p b) →
      CodeAt lines b (parameters.flatMap (fun p => [Instruction.allocVar p, .assign p]) ++
        [Instruction.call r.entry, .popScope]) →
      o.Lasts O b (b + 2 * parameters.length + 2) → Prepares lines r b ∧ EachAt (Steady lines L O) b
        (parameters.flatMap (fun p => [Instruction.allocVar p, .assign p]) ++
          [Instruction.call r.entry, .popScope]) := by
  intro parameters
  -- on the parameters that are still missing: every pair of instructions makes one more of them ready
  induction parameters with
  | nil =>
    intro b _ hready h ho
    obtain ⟨line, hline, hi⟩ := h.head
    have hleave : Steady lines L O (b + 1) .popScope := steady_advances rfl (ho.mono (by omega) (by simp))
    refine ⟨.call hline hi, .cons ⟨⟨?_, fun x hx => ?_⟩, by simp⟩ (.one hleave)⟩
    · rw [ho.sure_eq (c := b)]
      exact ho.sure_subset (by omega) (by simp)
    · rw [ho.sure_eq (c := b)]
      exact (hr x hx).imp_right fun hp => (hready x hp).resolve_left List.not_mem_nil
  | cons p rest ih =>
    intro b hparameters hready h ho
    rw [List.length_cons] at ho
    obtain ⟨line, hline, hi⟩ := h.head
    obtain ⟨line', hline', hi'⟩ := h.tail.head
    have hp : p ∈ r.parameters := hparameters List.mem_cons_self
    have hbound : Readied lines p (b + 1) := .here hline hi
    -- behind its assignment the name is ready, and those that were ready before stay so
    have hready' : ∀ q ∈ r.parameters, q ∈ rest ∨ Readied lines q (b + 1 + 1) := by
      intro q hq
      rcases hready q hq with hq | hq
      · rcases List.mem_cons.1 hq with rfl | hq
        · exact .inr (.later hline' (.inr hi') hbound)
        · exact .inl hq
      · exact .inr (.later hline' (.inr hi') (.later hline (.inl hi) hq))
    obtain ⟨hprepares, hrest⟩ := ih (fun q hq => hparameters (List.mem_cons_of_mem _ hq)) hready' h.tail.tail ho.mono
    have hassign : Prepares lines r (b + 1) := .bind hp hline' (.inr hi') hprepares
    refine ⟨.bind hp hline (.inl hi) hassign, .cons ⟨.inl ?_, by simp⟩ (.cons ⟨?_, ?_⟩ hrest)⟩
    · rw [ho.sure_eq (c := b)]
      exact ho.sure_subset
    · show sureAt O (b + 1 + 1) ⊆ sureAt O (b + 1)
      rw [ho.sure_eq (c := b + 1)]
      exact ho.sure_subset
    · rintro _ ⟨⟩
      exact ⟨hbound, r, hassign⟩

/-- The code of a call, of which the arguments keep to the outlook. -/
theorem steady_call {r : Routine} {arguments : List Expr} {inExpression : Bool} (hr : (granted O o).routine r)
    (h : CodeAt lines a (CallSite.code ⟨a, r, arguments, inExpression⟩))
    (ho : o.Lasts O a (a + (CallSite.code ⟨a, r, arguments, inExpression⟩).length))
    (harguments : EachAt (Steady lines L O) (a + 1) (codeOfAll (a + 1) arguments)) :
    EachAt (Steady lines L O) a (CallSite.code ⟨a, r, arguments, inExpression⟩) := by
  have hlength : (.pushScope :: codeOfAll (a + 1) arguments : List Instruction).length = 1 + sizeOfAll arguments := by
    rw [List.length_cons, length_codeOfAll, Nat.add_comm]
  have hsize : a + 1 + sizeOfAll arguments + 2 * r.parameters.length + 2 ≤
      a + (CallSite.code ⟨a, r, arguments, inExpression⟩).length := by
    simp only [CallSite.code, List.length_append, hlength, Routine.length_enter]
    omega
  have henter := h.left.right (b := a + 1 + sizeOfAll arguments) (by rw [hlength]; omega)
  have hbind := steady_bind (L := L) hr r.parameters.reverse (fun p hp => List.mem_reverse.1 hp)
    (fun p hp => .inl (List.mem_reverse.2 hp)) henter
    (ho.mono (by omega) (by rw [List.length_reverse]; exact hsize))
  refine EachAt.steady_before ((EachAt.cons (steady_advances rfl ho.mono) harguments).append hbind.2 ?_) ho ?_
  · rw [hlength]
    omega
  · cases inExpression <;> simp [Instruction.advances]

/-! ## Jumps in expressions -/

/-- The last instruction of an expression neither binds a name nor gives one a value. -/
theorem Expr.code_snoc : (e : Expr) → ∀ a : Address, ∃ code i, e.code a = code ++ [i] ∧
    ∀ p, i ≠ .allocVar p ∧ i ≠ .assign p
  | .literal _, _ | .variable _, _ => ⟨[], _, rfl, fun _ => ⟨nofun, nofun⟩⟩
  | .call _ _, _ | .unary _ _, _ | .binary _ _ _, _ => ⟨_, _, rfl, fun _ => ⟨nofun, nofun⟩⟩
  | .conjunction first rest, a => by
    obtain ⟨code, hcode, _⟩ := codeOfConjuncts_snoc (a + first.size) rest
    rw [code_conjunction, hcode, ← List.append_assoc]
    exact ⟨_, _, rfl, fun _ => ⟨nofun, nofun⟩⟩
  | .choice c x y, a => by
    obtain ⟨code, i, hcode, hi⟩ := y.code_snoc (a + c.size + x.size + 2)
    rw [Expr.code, hcode, ← List.cons_append, ← List.append_assoc]
    exact ⟨_, _, rfl, hi⟩
  | .dialog d slots, a => by
    rw [Expr.code]
    split
    · exact ⟨_, _, rfl, fun _ => ⟨nofun, nofun⟩⟩
    · refine ⟨codeOfSlots a d.defaults slots ++ [.dialog d], .pushValue (.boolean true), ?_, fun _ => ⟨nofun, nofun⟩⟩
      rw [List.append_assoc]
      rfl

/-- A jump to behind an expression does not lead into the preparation of a call. -/
theorem Expr.lands (e : Expr) (h : CodeAt lines b (e.code b)) : Lands lines L a (b + e.size) := by
  intro x hx
  obtain ⟨code, i, hcode, hi⟩ := e.code_snoc b
  have hsize : e.size = code.length + 1 := by rw [← e.length_code b, hcode, List.length_append]; rfl
  rw [hcode] at h
  obtain ⟨line, hline, rfl⟩ := (h.right rfl).head
  rw [hsize, ← Nat.add_assoc] at hx
  exact absurd hx (not_readied hline hi)

theorem lands_behind (h : CodeAt lines b (i :: code)) (hi : ∀ p, i ≠ .allocVar p ∧ i ≠ .assign p) :
    Lands lines L a (b + 1) := by
  intro x hx
  obtain ⟨line, hline, rfl⟩ := h.head
  exact absurd hx (not_readied hline hi)

theorem steady_jump (ho : o.Lasts O a (a + 1)) (hb : sureAt O b ⊆ o.sure) (hlands : Lands lines L a b) :
    Steady lines L O a (.jump b) := by
  refine ⟨⟨?_, hlands⟩, nofun⟩
  rw [ho.first]
  exact hb

theorem steady_branch (ho : o.Lasts O a (a + 1)) (hb : sureAt O b ⊆ o.sure) (hlands : Lands lines L a b)
    (hi : i = .jumpTrue b ∨ i = .jumpFalse b) : Steady lines L O a i := by
  have hboth : sureAt O (a + 1) ⊆ sureAt O a ∧ sureAt O b ⊆ sureAt O a ∧ Lands lines L a b := by
    rw [ho.first]
    exact ⟨ho.last, hb, hlands⟩
  rcases hi with rfl | rfl
  · exact ⟨hboth, by simp⟩
  · exact ⟨hboth, by simp⟩

mutual

/-- The code of an expression keeps to the outlook that lasts there. -/
theorem Expr.steady : (e : Expr) → ∀ {a : Nat}, e.Obeys (granted O o) → CodeAt lines a (e.code a) →
    o.Lasts O a (a + e.size) → EachAt (Steady lines L O) a (e.code a)
  | .literal _, _, _, _, ho | .variable _, _, _, _, ho =>
    eachAt_steady_advances ho (by simp [Expr.code, Instruction.advances])
  | .call r arguments, a, hobeys, h, ho => by
    obtain ⟨hr, _, harguments⟩ := hobeys
    have hargs := steady_all arguments harguments h.left.left.tail (ho.mono (by omega) (by rw [Expr.size]; omega))
    have hcode : (Expr.call r arguments).code a = CallSite.code ⟨a, r, arguments, true⟩ := rfl
    rw [← Expr.length_code a, hcode] at ho
    rw [hcode] at h ⊢
    exact steady_call hr h ho hargs
  | .unary _ e, a, hobeys, h, ho =>
    (e.steady hobeys h.left (ho.mono (by omega) (by rw [Expr.size]; omega))).steady_before
      (by rw [← Expr.length_code a] at ho; exact ho) (by simp [Instruction.advances])
  | .binary _ l r, a, hobeys, h, ho => by
    have hcode := h.left.right (b := a + l.size) (by rw [l.length_code])
    rw [Expr.size] at ho
    exact EachAt.steady_before (EachAt.append (l.steady hobeys.1 h.left.left ho.mono)
      (r.steady hobeys.2 hcode ho.mono) (by rw [l.length_code]))
      (ho.mono (by omega) (by simp; omega)) (by simp [Instruction.advances])
  | .conjunction first rest, a, hobeys, h, ho => by
    obtain ⟨hfirst, hrest, hend⟩ := h.conjunction
    rw [Expr.size] at ho
    -- an operand that is false goes on at the instruction that pushes the value of the chain then
    have hfails (c : Address) : Lands lines L c (a + first.size + sizeOfRest rest + 3) :=
      lands_behind hend.tail.tail fun _ => ⟨nofun, nofun⟩
    refine eachAt_conjunction.2 ⟨first.steady hobeys.1 hfirst ho.mono,
      steady_rest rest hobeys.2 hrest ho.mono ho.sure_subset hfails, ?_⟩
    refine .cons (steady_branch ho.mono ho.sure_subset (hfails _) (.inr rfl)) (.cons (steady_advances rfl ho.mono) ?_)
    refine .cons (steady_jump ho.mono ho.sure_subset ?_) (.one (steady_advances rfl ho.mono))
    exact lands_behind hend.tail.tail.tail fun _ => ⟨nofun, nofun⟩
  | .choice c x y, a, hobeys, h, ho => by
    obtain ⟨hc, hyes, hskip⟩ := h.choice
    rw [Expr.size] at ho
    refine eachAt_choice.2 ⟨c.steady hobeys.1 hc ho.mono, .cons ?_ ?_, .cons ?_ ?_⟩
    · exact steady_branch ho.mono ho.sure_subset (lands_behind hskip fun _ => ⟨nofun, nofun⟩) (.inr rfl)
    · exact x.steady hobeys.2.1 hyes.tail ho.mono
    · exact steady_jump ho.mono ho.sure_subset (y.lands hskip.tail)
    · exact y.steady hobeys.2.2 hskip.tail ho.mono
  | .dialog d slots, a, hobeys, h, ho => by
    rw [Expr.size] at ho
    refine EachAt.steady_before (steady_slots slots hobeys h.left ho.mono) (ho.mono (by omega) ?_) ?_
    · rw [List.length_append, length_codeOfSlots, List.length_cons]
      split <;> simp
    · split <;> simp [Instruction.advances]

theorem steady_all : (es : List Expr) → ∀ {a : Nat}, AllObey (granted O o) es → CodeAt lines a (codeOfAll a es) →
    o.Lasts O a (a + sizeOfAll es) → EachAt (Steady lines L O) a (codeOfAll a es)
  | [], _, _, _, _ => .nil
  | e :: rest, a, hobeys, h, ho => by
    rw [sizeOfAll] at ho
    have hrest := h.right (b := a + e.size) (by rw [e.length_code])
    exact (e.steady hobeys.1 h.left ho.mono).append (steady_all rest hobeys.2 hrest ho.mono) (by rw [e.length_code])

theorem steady_rest : (es : List Expr) → ∀ {fails a : Nat}, AllObey (granted O o) es →
    CodeAt lines a (codeOfRest fails a es) → o.Lasts O a (a + sizeOfRest es) → sureAt O fails ⊆ o.sure →
    (∀ c, Lands lines L c fails) → EachAt (Steady lines L O) a (codeOfRest fails a es)
  | [], _, _, _, _, _, _, _ => .nil
  | e :: rest, fails, a, hobeys, h, ho, hfails, hlands => by
    rw [sizeOfRest] at ho
    have hrest := h.right (b := a + 1 + e.size) (by rw [List.length_cons, e.length_code]; omega)
    have hbranch : Steady lines L O a (.jumpFalse fails) := steady_branch ho.mono hfails (hlands a) (.inr rfl)
    exact (EachAt.cons hbranch (e.steady hobeys.1 h.left.tail ho.mono)).append
      (steady_rest rest hobeys.2 hrest ho.mono hfails hlands) (by simp; omega)

theorem steady_slots : (slots : List Slot) → ∀ {a : Nat} {defaults : List Value}, SlotsObey (granted O o) slots →
    CodeAt lines a (codeOfSlots a defaults slots) → o.Lasts O a (a + sizeOfSlots defaults slots) →
    EachAt (Steady lines L O) a (codeOfSlots a defaults slots)
  | [], a, defaults, _, _, ho => by
    rw [← length_codeOfSlots a] at ho
    exact eachAt_steady_advances ho (List.forall_mem_map.2 fun _ _ => rfl)
  | slot :: rest, a, defaults, hobeys, h, ho => by
    rw [sizeOfSlots] at ho
    have hlength : a + (slot.code a defaults.head?).length = a + slot.size defaults.isEmpty := by
      rw [slot.length_code]
      cases defaults <;> rfl
    have hfirst := slot.steady hobeys.1 h.left ho.mono
    exact hfirst.append (steady_slots rest hobeys.2 (h.right hlength) ho.mono) hlength

theorem Slot.steady : (slot : Slot) → ∀ {a : Nat} {standard : Option Value}, slot.Obeys (granted O o) →
    CodeAt lines a (slot.code a standard) → o.Lasts O a (a + (slot.code a standard).length) →
    EachAt (Steady lines L O) a (slot.code a standard)
  | .omitted, _, none, _, _, _ => .nil
  | .omitted, _, some v, _, _, ho => eachAt_steady_advances ho (by simp [Slot.code, Instruction.advances])
  | .given e, a, standard, hobeys, h, ho => by
    rw [Slot.code] at h ho ⊢
    refine EachAt.steady_before (e.steady hobeys h.left (ho.mono (by omega) (by simp))) ho ?_
    split <;> simp [Instruction.advances]

end

end Expressions

/-! ## Code of statements -/

section Statements

variable (lines : Array Line) (L : Address → Option Layout) (O : Address → Option Outlook)

/-- An instruction keeps to the outlook at its address, and that outlook knows the names that the instruction uses,
except for those of parameters that it gives a value for a call. -/
structure Grounded (b : Nat) (i : Instruction) : Prop where
  secures : Secures lines L (sureAt O) b i
  reads : ∀ x, i = .pushVariable x → ∃ o, O b = some o ∧ o.Knows x
  given : ∀ x, i = .assign x → (∃ o, O b = some o ∧ o.Knows x) ∨ Readied lines x b ∧ ∃ r, Prepares lines r b

end Statements

section Statements

variable {lines : Array Line} {L : Address → Option Layout} {O : Address → Option Outlook} {o : Outlook}
  {names : Scopes} {a b : Nat} {code : List Instruction} {i : Instruction} {x : String}

theorem grounded_plain (h : Secures lines L (sureAt O) b i) (hread : ∀ x, i ≠ .pushVariable x)
    (hassign : ∀ x, i ≠ .assign x) : Grounded lines L O b i :=
  ⟨h, fun x hx => absurd hx (hread x), fun x hx => absurd hx (hassign x)⟩

/-- Outside of calls a jump may lead anywhere. -/
theorem Machine.Idle.lands (h : Idle L a) : Lands lines L a b := fun _ _ => h

theorem grounded_jump (ho : o.Lasts O a (a + 1)) (hb : sureAt O b ⊆ o.sure) (hidle : Idle L a) :
    Grounded lines L O a (.jump b) := grounded_plain (steady_jump ho hb hidle.lands).secures nofun nofun

theorem grounded_branch (ho : o.Lasts O a (a + 1)) (hb : sureAt O b ⊆ o.sure) (hidle : Idle L a)
    (hi : i = .jumpTrue b ∨ i = .jumpFalse b) : Grounded lines L O a i := by
  have hsteady : Steady lines L O a i := steady_branch ho hb hidle.lands hi
  rcases hi with rfl | rfl
  all_goals
    refine grounded_plain hsteady.secures ?_ ?_
    all_goals rintro _ ⟨⟩

/-- An instruction that uses no name. -/
theorem grounded_silent (ho : o.Lasts O a (a + 1)) (hi : i.advances) (hread : ∀ x, i ≠ .pushVariable x) :
    Grounded lines L O a i := by
  refine grounded_plain (steady_advances hi ho).secures hread ?_
  rintro x rfl
  cases hi

theorem grounded_read (ho : o.Lasts O a (a + 1)) (hx : o.Knows x) : Grounded lines L O a (.pushVariable x) := by
  refine ⟨(steady_advances rfl ho).secures, ?_, nofun⟩
  rintro _ ⟨⟩
  exact ⟨o, ho.same a (Nat.le_refl a) (Nat.lt_succ_self a), hx⟩

theorem grounded_assign (ho : o.Lasts O a (a + 1)) (hx : o.Knows x) : Grounded lines L O a (.assign x) := by
  refine ⟨?_, nofun, ?_⟩
  · show sureAt O (a + 1) ⊆ sureAt O a
    rw [ho.first]
    exact ho.last
  · rintro _ ⟨⟩
    exact .inl ⟨o, ho.same a (Nat.le_refl a) (Nat.lt_succ_self a), hx⟩

/-- Binding names one after the other, outside of calls. -/
theorem grounded_bind {α : Type} (nameOf : α → String) {declares : α → Instruction}
    (hdeclares : ∀ d, declares d = .allocVar (nameOf d) ∨ ∃ v, declares d = .allocConst (nameOf d) v) :
    ∀ (ds : List α) {a : Nat} {o : Outlook}, ListsAt O a (o.along (ds.map nameOf)) →
      sureAt O (a + ds.length) ⊆ ds.map nameOf ++ o.sure → (∀ n < ds.length, Idle L (a + n)) →
      EachAt (Grounded lines L O) a (ds.map declares) := by
  intro ds
  induction ds with
  | nil => exact fun _ _ _ => .nil
  | cons d rest ih =>
    intro a o h hend hidle
    rw [List.length_cons, Nat.add_comm rest.length, ← Nat.add_assoc] at hend
    have hend' : sureAt O (a + 1 + rest.length) ⊆ rest.map nameOf ++ (o.learn [nameOf d]).sure := by
      intro y hy
      have hy := hend hy
      simp only [Outlook.learn, List.map_cons, List.mem_append, List.mem_cons, List.not_mem_nil, or_false] at hy ⊢
      tauto
    have hnext : sureAt O (a + 1) ⊆ nameOf d :: sureAt O a := by
      rw [sureAt_eq h.first]
      exact sureAt_subset_of_along h.tail (by rwa [List.length_map])
    refine .cons ?_ (ih h.tail hend' fun n hn => ?_)
    · have hsecures : sureAt O (a + 1) ⊆ sureAt O a ∨ Idle L a ∧ sureAt O (a + 1) ⊆ nameOf d :: sureAt O a :=
        .inr ⟨hidle 0 (Nat.succ_pos _), hnext⟩
      rcases hdeclares d with hd | ⟨v, hd⟩
      all_goals
        rw [hd]
        exact grounded_plain hsecures (by simp) (by simp)
    · have hlater := hidle (n + 1) (Nat.succ_lt_succ hn)
      rwa [Nat.add_comm n, ← Nat.add_assoc] at hlater

/-- Code of expressions reads only names that the outlook knows if it knows those that are used. -/
theorem EachAt.grounded (h : EachAt (Steady lines L O) a code) (ho : o.Lasts O a (a + code.length))
    (hreads : ∀ x, .pushVariable x ∈ code → o.Knows x) : EachAt (Grounded lines L O) a code := by
  intro n i hi
  have hn := (List.getElem?_eq_some_iff.1 hi).1
  have hsteady := h n i hi
  refine ⟨hsteady.secures, ?_, fun x hx => .inr (hsteady.given x hx)⟩
  rintro x rfl
  exact ⟨o, ho.same _ (by omega) (by omega), hreads x (List.mem_of_getElem? hi)⟩

theorem grounded_advances (ho : o.Lasts O a (a + code.length)) (hcode : ∀ i ∈ code, i.advances)
    (hreads : ∀ x, .pushVariable x ∈ code → o.Knows x) : EachAt (Grounded lines L O) a code :=
  (eachAt_steady_advances ho hcode).grounded ho hreads

section Parts

variable (hsuits : o.Suits O names)

include hsuits

theorem Expr.grounded {e : Expr} (he : e.Resolved names) (h : CodeAt lines a (e.code a))
    (ho : o.Lasts O a (a + e.size)) : EachAt (Grounded lines L O) a (e.code a) := by
  have hsteady := e.steady (L := L) (e.obeys_mono (fun r hr => hsuits.calls r hr) he.calls) h ho
  rw [← e.length_code a] at ho
  exact hsteady.grounded ho fun x hx => hsuits.knows x (he.reads a x hx)

theorem grounded_step {step : Option Expr} (hstep : ∀ e ∈ step, e.Resolved names)
    (h : CodeAt lines a (stepCode a step)) (ho : o.Lasts O a (a + stepSize step)) :
    EachAt (Grounded lines L O) a (stepCode a step) := by
  cases step with
  | some e => exact Expr.grounded hsuits (hstep e rfl) h ho
  | none => exact grounded_advances ho (by simp [stepCode, Instruction.advances]) (by simp [stepCode])

theorem grounded_print {e : Option Expr} (he : ∀ x ∈ e, x.Resolved names) (h : CodeAt lines a (printCode a e))
    (ho : o.Lasts O a (a + printSize e)) : EachAt (Grounded lines L O) a (printCode a e) := by
  cases e with
  | some e => exact Expr.grounded hsuits (he e rfl) h ho
  | none => exact grounded_advances ho (by simp [printCode, Instruction.advances]) (by simp [printCode])

/-- A condition with the branch behind it. -/
theorem grounded_condition {e : Expr} (he : e.Resolved names) (h : CodeAt lines a (e.code a ++ [i]))
    (ho : o.Lasts O a (a + e.size + 1)) (hb : sureAt O b ⊆ o.sure) (hidle : Idle L (a + e.size))
    (hi : i = .jumpTrue b ∨ i = .jumpFalse b) : EachAt (Grounded lines L O) a (e.code a ++ [i]) :=
  .append (b := a + e.size) (Expr.grounded hsuits he h.left ho.mono) (.one (grounded_branch ho.mono hb hidle hi))
    (by rw [e.length_code])

theorem grounded_head {head : Option Guard} {s : Shape} (hhead : ∀ g ∈ head, g.condition.Resolved names)
    (h : CodeAt lines a (headCode a b head)) (hlaid : ListsAt L a (headLayouts s head)) (hs : s.waiting = [])
    (ho : o.Lasts O a (a + headSize head)) (hb : sureAt O b ⊆ o.sure) :
    EachAt (Grounded lines L O) a (headCode a b head) := by
  cases head with
  | none => exact .nil
  | some g =>
    have hbranch := (hlaid.right (b := a + g.condition.size) (by rw [g.condition.length_layouts])).first
    exact grounded_condition hsuits (hhead g rfl) h ho hb ⟨_, hbranch, hs⟩ (by split <;> simp)

theorem grounded_tail {tail : Option Guard} {s : Shape} (htail : ∀ g ∈ tail, g.condition.Resolved names)
    (h : CodeAt lines a (tailCode a b tail)) (hlaid : ListsAt L a (tailLayouts s tail)) (hs : s.waiting = [])
    (ho : o.Lasts O a (a + tailSize tail)) (hb : sureAt O b ⊆ o.sure) :
    EachAt (Grounded lines L O) a (tailCode a b tail) := by
  cases tail with
  | none => exact .one (grounded_jump ho hb ⟨_, hlaid.first, hs⟩)
  | some g =>
    have hbranch := (hlaid.right (b := a + g.condition.size) (by rw [g.condition.length_layouts])).first
    exact grounded_condition hsuits (htail g rfl) h ho hb ⟨_, hbranch, hs⟩ (by split <;> simp)

theorem grounded_slots {slots : List Slot} {defaults : List Value} (hslots : ∀ e, .given e ∈ slots → e.Resolved names)
    (h : CodeAt lines a (codeOfSlots a defaults slots)) (ho : o.Lasts O a (a + sizeOfSlots defaults slots)) :
    EachAt (Grounded lines L O) a (codeOfSlots a defaults slots) := by
  have hobeys := slotsObey_iff.2 fun e he => (hslots e he).calls
  have hsteady := steady_slots (L := L) slots (slotsObey_mono (fun r hr => hsuits.calls r hr) slots hobeys) h ho
  rw [← length_codeOfSlots a] at ho
  refine hsteady.grounded ho fun x hx => hsuits.knows x ?_
  obtain ⟨e, he, b, hread⟩ := exists_of_reads_slots hx
  exact (hslots e he).reads b x hread

theorem grounded_call {r : Routine} {arguments : List Expr} (hr : names.visible.routine r)
    (harguments : ∀ e ∈ arguments, e.Resolved names) (h : CodeAt lines a (CallSite.code ⟨a, r, arguments, false⟩))
    (ho : o.Lasts O a (a + (CallSite.code ⟨a, r, arguments, false⟩).length)) :
    EachAt (Grounded lines L O) a (CallSite.code ⟨a, r, arguments, false⟩) := by
  have hobeys := allObey_iff.2 fun e he => (harguments e he).calls
  have hsize : a + 1 + sizeOfAll arguments ≤ a + (CallSite.code ⟨a, r, arguments, false⟩).length := by
    simp [CallSite.code, length_codeOfAll]
    omega
  have hargs := steady_all (L := L) arguments (allObey_mono (fun r hr => hsuits.calls r hr) arguments hobeys)
    h.left.left.tail ho.mono
  refine (steady_call (hsuits.calls r hr) h ho hargs).grounded ho fun x hx => hsuits.knows x ?_
  rw [CallSite.code, if_neg Bool.false_ne_true, List.append_nil, List.mem_append, List.mem_cons] at hx
  rcases hx with (hx | hx) | hx
  · cases hx
  · obtain ⟨e, he, b, hread⟩ := exists_of_reads_all hx
    exact (harguments e he).reads b x hread
  · exact absurd hx (not_reads_enter r)

/-- The code of a counting loop before its body. -/
theorem grounded_open {counter : String} {start limit : Expr} {step : Option Expr} {done : Nat} {s inner : Shape}
    (hcounter : names.Usable counter) (hstart : start.Resolved names) (hlimit : limit.Resolved names)
    (hstep : ∀ e ∈ step, e.Resolved names)
    (h : CodeAt lines a (openCode a counter start limit step done))
    (hlaid : ListsAt L a (openLayouts s inner start limit step)) (hinner : inner.waiting = [])
    (ho : o.Lasts O a (a + countHeadSize start limit step)) (hdone : sureAt O done ⊆ o.sure) :
    EachAt (Grounded lines L O) a (openCode a counter start limit step done) := by
  obtain ⟨hstartCode, hlimitCode, hstepCode, _⟩ := h.openCode
  have hstepLaid := (hlaid.right (b := a + start.size) (by rw [start.length_layouts])).tail.right
    (b := a + start.size + 1 + limit.size) (by rw [limit.length_layouts])
  have htestLaid := (hstepLaid.right (b := a + start.size + 1 + limit.size + stepSize step)
    (by rw [length_stepLayouts])).tail
  have hbranch := (htestLaid.right (b := a + start.size + 1 + limit.size + stepSize step + 8) rfl).first
  rw [countHeadSize] at ho
  refine eachAt_openCode.2 ⟨?_, .cons ?_ ?_, ?_, .append
    (b := a + start.size + 1 + limit.size + stepSize step + 8) ?_ (.one ?_) rfl⟩
  · exact Expr.grounded hsuits hstart hstartCode ho.mono
  · exact grounded_assign ho.mono (hsuits.knows counter hcounter)
  · exact Expr.grounded hsuits hlimit hlimitCode.tail ho.mono
  · exact grounded_step hsuits hstep hstepCode ho.mono
  · refine grounded_advances (ho.mono (by omega) (by simp; omega) (by omega)) ?_ ?_
    · simp [countTest, Instruction.advances]
    · simp only [countTest, List.mem_cons, List.not_mem_nil, reduceCtorEq, Instruction.pushVariable.injEq, false_or,
        or_false]
      rintro x rfl
      exact hsuits.knows x hcounter
  · exact grounded_branch ho.mono hdone ⟨_, hbranch, hinner⟩ (.inr rfl)

/-- The code of a counting loop behind its body. -/
theorem grounded_close {counter : String} {again : Nat} {inner : Shape} (hcounter : names.Usable counter)
    (hlaid : ListsAt L a (closeLayouts inner)) (hs : inner.waiting = []) (ho : o.Lasts O a (a + 15))
    (hagain : sureAt O again ⊆ o.sure) :
    EachAt (Grounded lines L O) a (closeCode counter again) := by
  have hbranch := hlaid 11 _ rfl
  have hknown : ∀ x, x = counter → o.Knows x := fun x hx => hx ▸ hsuits.knows counter hcounter
  have hadd : EachAt (Grounded lines L O) a [.copy 1, .pushVariable counter, .binary .add] :=
    grounded_advances (ho.mono (Nat.le_refl a) (by simp)) (by simp [Instruction.advances]) (by simpa using hknown)
  have htest : EachAt (Grounded lines L O) (a + 4) (countTest counter) :=
    grounded_advances (ho.mono (by omega) (by simp)) (by simp [countTest, Instruction.advances])
      (by simpa [countTest] using hknown)
  have hpops : EachAt (Grounded lines L O) (a + 12) [.pop, .pop, .pop] :=
    grounded_advances (ho.mono (by omega) (by simp)) (by simp [Instruction.advances]) (by simp)
  have hgiven : Grounded lines L O (a + 3) (.assign counter) := grounded_assign ho.mono (hknown counter rfl)
  refine eachAt_closeCode.2 ⟨hadd.append (.one hgiven) rfl, htest, .cons ?_ hpops⟩
  exact grounded_branch ho.mono hagain ⟨_, hbranch, hs⟩ (.inl rfl)

end Parts

/-- The code of a routine before its body. A run comes behind the routine only from there. -/
theorem grounded_define {isFunction inside : Bool} {name : String} {parameters : List String} {body : Block}
    {loops : List (Loop × Address)}
    (hO : ListsAt O a ((Stmt.routine isFunction name parameters body).outlooks o))
    (hlaid : ListsAt L a ((Stmt.routine isFunction name parameters body).layouts a (.amid inside loops)))
    (hend : sureAt O b ⊆ ((Stmt.routine isFunction name parameters body).outlook o).sure) :
    EachAt (Grounded lines L O) a (defineCode isFunction name b) := by
  cases isFunction with
  | true =>
    have hjumpO := hO.tail.first
    have hjump := hlaid.tail.first
    refine .cons (grounded_plain (.inr ⟨⟨_, hlaid.first, rfl⟩, ?_⟩) nofun nofun)
      (.one (grounded_plain ⟨?_, ?_⟩ nofun nofun))
    · rw [sureAt_eq hO.first, sureAt_eq hjumpO]
      exact List.Subset.refl _
    · rw [sureAt_eq hjumpO]
      exact hend
    · exact Idle.lands ⟨_, hjump, rfl⟩
  | false =>
    refine .one (grounded_plain ⟨?_, Idle.lands ⟨_, hlaid.first, rfl⟩⟩ nofun nofun)
    rw [sureAt_eq hO.first]
    exact hend

/-- Leaving a loop leads to behind one of the loops around, where no more is sure. -/
theorem grounded_exit : ∀ (n : Nat) {a : Nat} {s : Shape}, ListsAt L a (popLayouts (n + 1) s) → s.waiting = [] →
    o.Lasts O a (a + n + 1) → (∀ b, .exit b ∈ s.cells → sureAt O b ⊆ o.sure) →
    EachAt (Grounded lines L O) a (List.replicate n Instruction.pop ++ [.jumpPop]) := by
  intro n
  induction n with
  | zero =>
    intro a s h hs ho hexits
    refine .one (grounded_plain (fun b s' hs' => ?_) (by simp) (by simp))
    have hfirst := h.first
    rw [hs'] at hfirst
    cases hfirst
    rw [ho.sure_eq (c := a)]
    exact ⟨hexits b List.mem_cons_self, hs⟩
  | succ n ih =>
    intro a s h hs ho hexits
    refine .cons (grounded_silent ho.mono rfl (by simp)) (ih h.tail hs ho.mono fun b hb => ?_)
    exact hexits b (List.mem_of_mem_tail hb)

mutual

/-- The code of a statement keeps to the outlooks at its instructions. -/
theorem Stmt.grounded : (stmt : Stmt) → ∀ {a : Nat} {p : Position} {inside declarations : Bool} {names : Scopes}
    (o : Outlook) (loops : List (Loop × Address)), stmt.Resolved declarations a names → o.Suits O names →
    (∀ l ∈ loops, sureAt O l.2 ⊆ o.sure) → CodeAt lines a (instructionsOf (stmt.lines a p)) →
    ListsAt L a (stmt.layouts a (.amid inside loops)) → ListsAt O a (stmt.outlooks o) →
    sureAt O (a + stmt.size) ⊆ (stmt.outlook o).sure →
    EachAt (Grounded lines L O) a (instructionsOf (stmt.lines a p))
  | .share _, _, _, _, _, _, _, _, _, _, _, _, _, _, _ => .nil
  | .declare declared, a, p, inside, _, _, o, loops, _, _, _, _, hlaid, hO, hend => by
    rw [Stmt.lines, instructionsOf_mark]
    refine grounded_bind id (o := o) (fun _ => .inl rfl) declared ?_ ?_ fun n hn => ?_
    · rw [List.map_id]
      exact hO
    · rw [List.map_id]
      exact hend
    · exact ⟨.amid inside loops, hlaid n _ (by simp [Stmt.layouts, hn]), rfl⟩
  | .constants definitions, a, p, inside, _, _, o, loops, _, _, _, _, hlaid, hO, hend => by
    rw [Stmt.lines, instructionsOf_mark]
    refine grounded_bind Prod.fst (fun d => .inr ⟨d.2, rfl⟩) definitions hO hend fun n hn => ?_
    exact ⟨.amid inside loops, hlaid n _ (by simp [Stmt.layouts, hn]), rfl⟩
  | .routine isFunction name parameters body, a, p, _, _, names, o, _, hres, hsuits, _, h, hlaid, hO, hend => by
    have hbodyO := Stmt.outlooks_body hO
    have hlast := (hbodyO.right (b := a + routineHeadSize isFunction + body.size) (by rw [body.length_outlooks])).first
    -- the body of a routine ends with no more sure than it gives itself, whatever is sure behind the routine
    have hbodyEnd : sureAt O (a + routineHeadSize isFunction + body.size) ⊆
        (body.outlook (o.entering isFunction name parameters)).sure := by
      rw [sureAt_eq hlast]
      exact body.sure_subset_outlook _
    obtain ⟨_, hbodyCode, _⟩ := h.routine
    rw [Stmt.size, show a + (routineHeadSize isFunction + body.size + 1) =
      a + routineHeadSize isFunction + body.size + 1 by omega] at hend
    refine eachAt_routine.2 ⟨grounded_define hO hlaid hend, ?_, .one (grounded_plain trivial nofun nofun)⟩
    exact body.grounded (o.entering isFunction name parameters) [] hres.2
      ((suits_withRoutine hO hsuits).enter parameters) nofun hbodyCode (Stmt.routine_body hlaid).left hbodyO.left hbodyEnd
  | .branch c yes, a, p, _, _, names, o, loops, hres, hsuits, hexits, h, hlaid, hO, hend => by
    have hjump := hlaid.right (b := a + c.size) (by rw [c.length_layouts])
    have hyesO := hO.right (b := a + c.size + 1) (by rw [List.length_replicate]; rfl)
    rw [Stmt.size, show a + (c.size + yes.size + 1) = a + c.size + 1 + yes.size by omega] at hend
    have hyesEnd := List.Subset.trans hend (yes.sure_subset_outlook o)
    have ho := lasts_of_replicate hO.left rfl (yes.sureAt_start hyesO hyesEnd)
    obtain ⟨hcCode, hyesCode⟩ := h.branch
    exact eachAt_branch.2 ⟨grounded_condition hsuits hres.1 hcCode ho hend ⟨_, hjump.first, rfl⟩ (.inr rfl),
      yes.grounded o loops hres.2 hsuits hexits hyesCode hjump.tail hyesO hyesEnd⟩
  | .branchElse c yes no, a, p, _, _, names, o, loops, hres, hsuits, hexits, h, hlaid, hO, hend => by
    have hjump := hlaid.right (b := a + c.size) (by rw [c.length_layouts])
    have hother := hjump.tail.right (b := a + c.size + 1 + yes.size) (by rw [yes.length_layouts])
    have hyesO := hO.right (b := a + c.size + 1) (by rw [List.length_replicate]; rfl)
    have hskipO := hyesO.right (b := a + c.size + 1 + yes.size) (by rw [yes.length_outlooks])
    rw [Stmt.size, show a + (c.size + yes.size + no.size + 2) = a + c.size + 1 + yes.size + 1 + no.size by omega]
      at hend
    have hyesEnd : sureAt O (a + c.size + 1 + yes.size) ⊆ (yes.outlook o).sure := by
      rw [sureAt_eq hskipO.first]
      exact yes.sure_subset_outlook o
    -- what the first branch binds is in doubt in the second one, which runs instead of it
    have hnoEnd : sureAt O (a + c.size + 1 + yes.size + 1 + no.size) ⊆ (no.outlook (o.doubt yes.announced)).sure :=
      List.Subset.trans hend (no.sure_subset_outlook (o.doubt yes.announced))
    have hstart : sureAt O (a + c.size + 1 + yes.size + 1) ⊆ o.sure :=
      no.sureAt_start (o := o.doubt yes.announced) hskipO.tail hnoEnd
    have ho := lasts_of_replicate hO.left rfl (yes.sureAt_start hyesO.left hyesEnd)
    have hskip : o.Lasts O (a + c.size + 1 + yes.size) (a + c.size + 1 + yes.size + 1) :=
      lasts_of_replicate (n := 1) hskipO.left rfl hstart
    obtain ⟨hcCode, hyesCode, _, hnoCode⟩ := h.branchElse
    refine eachAt_branchElse.2 ⟨?_, ?_, .one (grounded_jump hskip hend ⟨_, hother.first, rfl⟩), ?_⟩
    · exact grounded_condition hsuits hres.1 hcCode ho hstart ⟨_, hjump.first, rfl⟩ (.inr rfl)
    · exact yes.grounded o loops hres.2.1 hsuits hexits hyesCode hjump.tail.left hyesO.left hyesEnd
    · refine no.grounded (o.doubt yes.announced) loops hres.2.2 ?_ hexits hnoCode hother.tail hskipO.tail hnoEnd
      exact yes.suits_declared hres.2.1 (fun x hx => Outlook.knows_doubt hx o)
        (hsuits.mono (fun x hx => hx.doubt _) (List.Subset.refl _))
  | .countLoop counter start limit step body, a, p, inside, _, names, o, loops, hres, hsuits, hexits, h, hlaid, hO,
      hend => by
    obtain ⟨hcounter, hstart, hlimit, hstep, hbody⟩ := hres
    have hinner := hlaid.right (b := a + countHeadSize start limit step) (by rw [length_openLayouts])
    have hclose := hinner.right (b := a + countHeadSize start limit step + body.size) (by rw [body.length_layouts])
    have hinnerO := hO.right (b := a + countHeadSize start limit step) (by rw [List.length_replicate])
    have hcloseO := hinnerO.right (b := a + countHeadSize start limit step + body.size) (by rw [body.length_outlooks])
    rw [Stmt.size, show a + (countHeadSize start limit step + body.size + 15) =
      a + countHeadSize start limit step + body.size + 15 by omega] at hend
    have ho' := lasts_of_replicate hcloseO rfl hend
    have hbodyEnd : sureAt O (a + countHeadSize start limit step + body.size) ⊆ (body.outlook o).sure :=
      List.Subset.trans (ho'.sure_subset (by omega) (by omega)) (body.sure_subset_outlook o)
    -- the loop goes back to the start of its body, where nothing may be sure that only the body binds
    have hagain := body.sureAt_start hinnerO.left hbodyEnd
    have ho := lasts_of_replicate hO.left rfl hagain
    obtain ⟨hopen, hcode, _⟩ := h.countLoop
    refine eachAt_countLoop.2 ⟨?_, ?_, grounded_close hsuits hcounter hclose rfl ho' hagain⟩
    · exact grounded_open hsuits hcounter hstart hlimit hstep hopen hlaid.left rfl ho
        (ho'.sure_subset (by omega) (by omega))
    · refine body.grounded o ((.forLoop, _) :: loops) hbody hsuits (List.forall_mem_cons.2 ⟨?_, hexits⟩) hcode
        hinner.left hinnerO.left hbodyEnd
      exact ho'.sure_subset (by omega) (by omega)
  | .guardLoop head body tail, a, p, _, _, names, o, loops, hres, hsuits, hexits, h, hlaid, hO, hend => by
    obtain ⟨hhead, hbody, htail⟩ := hres
    have hheadLaid := hlaid.tail
    have hinner := hheadLaid.right (b := a + 1 + headSize head) (by rw [length_headLayouts])
    have hcloseLaid := hinner.right (b := a + 1 + headSize head + body.size) (by rw [body.length_layouts])
    have hinnerO := hO.right (b := a + 1 + headSize head) (by rw [List.length_replicate, Nat.add_assoc])
    have hcloseO := hinnerO.right (b := a + 1 + headSize head + body.size) (by rw [body.length_outlooks])
    rw [Stmt.size, show a + (headSize head + body.size + tailSize tail + 2) =
      a + 1 + headSize head + body.size + tailSize tail + 1 by omega] at hend
    have hdone : o.Lasts O (a + 1 + headSize head + body.size + tailSize tail)
        (a + 1 + headSize head + body.size + tailSize tail + 1) :=
      lasts_of_replicate (n := 1) (hcloseO.right (by rw [List.length_replicate])) rfl hend
    have ho' : (body.outlook o).Lasts O (a + 1 + headSize head + body.size)
        (a + 1 + headSize head + body.size + tailSize tail) := by
      refine lasts_of_replicate hcloseO.left rfl ?_
      rw [hdone.first]
      exact body.sure_subset_outlook o
    have hbodyEnd := ho'.sure_subset (c := a + 1 + headSize head + body.size) (by omega) (by omega)
    have hstart := body.sureAt_start hinnerO.left hbodyEnd
    have ho := lasts_of_replicate hO.left (by rw [Nat.add_assoc]) hstart
    obtain ⟨hopen, hcode, hclose⟩ := h.guardLoop
    refine eachAt_guardLoop.2 ⟨.cons (grounded_silent ho.mono rfl nofun) ?_, ?_, .append
      (b := a + 1 + headSize head + body.size + tailSize tail) ?_ (.one (grounded_silent hdone rfl nofun))
      (by rw [length_tailCode])⟩
    · refine grounded_head hsuits hhead hopen.tail hheadLaid.left rfl ho.mono ?_
      rw [hdone.first]
      exact List.Subset.refl _
    · exact body.grounded o ((.doLoop, _) :: loops) hbody hsuits (List.forall_mem_cons.2 ⟨hend, hexits⟩) hcode
        hinner.left hinnerO.left hbodyEnd
    · -- the condition is evaluated only after the whole body
      refine grounded_tail (body.suits_outlook hbody hsuits) htail hclose.left hcloseLaid.left rfl ho' ?_
      exact List.Subset.trans (ho.sure_subset (by omega) (by omega)) (body.sure_subset_outlook o)
  | .exitLoop _ inner, a, p, _, _, _, o, loops, _, _, hexits, _, hlaid, hO, hend => by
    have ho := lasts_of_replicate hO rfl hend
    rw [Stmt.size, ← Nat.add_assoc] at ho
    rw [Stmt.lines, instructionsOf_mark]
    refine grounded_exit (keptBy inner) hlaid rfl ho fun b hb => ?_
    obtain ⟨l, hl, rfl⟩ := exit_of_mem_cellsOf hb
    exact hexits l hl
  | .exitRoutine, a, _, _, _, _, _, _, _, _, _, _, _, _, _ => .one (grounded_plain trivial nofun nofun)
  | .print e, a, p, _, _, _, o, _, hres, hsuits, _, h, _, hO, hend => by
    have ho := lasts_of_replicate hO rfl hend
    rw [Stmt.size] at ho
    rw [Stmt.lines, instructionsOf_mark] at h ⊢
    exact .append (b := a + printSize e) (grounded_print hsuits hres h.left ho.mono)
      (.one (grounded_silent ho.mono rfl nofun)) (by simp)
  | .notify n, a, p, _, _, _, o, _, _, _, _, _, _, hO, hend =>
    .one (grounded_silent (lasts_of_replicate hO rfl hend) rfl nofun)
  | .dialog d slots, a, p, _, _, _, o, _, hres, hsuits, _, h, _, hO, hend => by
    have ho := lasts_of_replicate hO rfl hend
    rw [Stmt.size] at ho
    rw [Stmt.lines, instructionsOf_mark] at h ⊢
    refine .append (b := a + sizeOfSlots d.defaults slots) (grounded_slots hsuits hres h.left ho.mono) ?_
      (by rw [length_codeOfSlots])
    refine grounded_advances (ho.mono (by omega) ?_ (by simp)) ?_ ?_
    · rw [List.length_cons]
      split <;> exact Nat.le_of_eq (Nat.add_assoc ..)
    · split <;> simp [Instruction.advances]
    · split <;> simp
  | .assign name none e, a, p, _, _, _, o, _, hres, hsuits, _, h, _, hO, hend => by
    have ho := lasts_of_replicate hO rfl hend
    rw [Stmt.size, if_neg (by simp)] at ho
    rw [Stmt.lines, instructionsOf_mark] at h ⊢
    exact .append (b := a + e.size) (Expr.grounded hsuits hres.2 h.left ho.mono)
      (.one (grounded_assign ho.mono (hsuits.knows name hres.1))) (by simp)
  | .assign name (some op) e, a, p, _, _, _, o, _, hres, hsuits, _, h, _, hO, hend => by
    have ho := lasts_of_replicate hO rfl hend
    have hname := hsuits.knows name hres.1
    rw [Stmt.size, if_pos (by simp)] at ho
    rw [Stmt.lines, instructionsOf_mark] at h ⊢
    refine .cons (grounded_read ho.mono hname) (.append (b := a + 1 + e.size)
      (Expr.grounded hsuits hres.2 h.tail.left ho.mono) (.cons ?_ (.one ?_)) (by simp))
    · exact grounded_silent ho.mono rfl nofun
    · exact grounded_assign ho.mono hname
  | .call r arguments, a, p, _, _, _, o, _, hres, hsuits, _, h, _, hO, hend => by
    have hcode : instructionsOf ((Stmt.call r arguments).lines a p) = CallSite.code ⟨a, r, arguments, false⟩ := by
      rw [Stmt.lines, instructionsOf_mark]
      exact (List.append_nil _).symm
    have ho := lasts_of_replicate hO rfl hend
    rw [← Stmt.length_lines a p, ← length_instructionsOf, hcode] at ho
    rw [hcode] at h ⊢
    exact grounded_call hsuits hres.1 hres.2 h ho

theorem Block.grounded : (block : Block) → ∀ {a : Nat} {inside declarations : Bool} {names : Scopes} (o : Outlook)
    (loops : List (Loop × Address)), block.Resolved declarations a names → o.Suits O names →
    (∀ l ∈ loops, sureAt O l.2 ⊆ o.sure) → CodeAt lines a (instructionsOf (block.lines a)) →
    ListsAt L a (block.layouts a (.amid inside loops)) → ListsAt O a (block.outlooks o) →
    sureAt O (a + block.size) ⊆ (block.outlook o).sure →
    EachAt (Grounded lines L O) a (instructionsOf (block.lines a))
  | .nil, _, _, _, _, _, _, _, _, _, _, _, _, _ => .nil
  | .cons p first rest, a, _, _, _, o, loops, hres, hsuits, hexits, h, hlaid, hO, hend => by
    rw [Block.size, ← Nat.add_assoc] at hend
    obtain ⟨hfirstCode, hrestCode⟩ := h.cons
    have hrestLaid := hlaid.right (b := a + first.size) (by rw [first.length_layouts])
    have hrestO := hO.right (b := a + first.size) (by rw [first.length_outlooks])
    have hnext := rest.sureAt_start hrestO hend
    exact eachAt_cons.2 ⟨first.grounded o loops hres.1 hsuits hexits hfirstCode hlaid.left hO.left hnext,
      rest.grounded (first.outlook o) loops hres.2 (first.suits_outlook hres.1 hO.left hsuits)
        (fun l hl => List.Subset.trans (hexits l hl) (first.sure_subset_outlook o)) hrestCode hrestLaid hrestO hend⟩

end

end Statements

end MacroBasic
