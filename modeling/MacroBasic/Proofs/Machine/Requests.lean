/-
Requests about names. A host is asked for a value of a name, or to take one over, only by an instruction that uses the
name where no scope binds it, and only where such a name is read can a run end because it is unknown.
-/
import MacroBasic.Proofs.Machine.Operands

namespace MacroBasic

/-- The name that a request is about. -/
def Request.name? : Request → Option String
  | .retrieve x | .assign x _ => some x
  | .print _ | .notify _ | .message _ _ | .msgBox _ _ _ | .inputBox _ _ _ | .timeout => none

/-- The name that an instruction reads or gives a value. -/
def Instruction.uses? : Instruction → Option String
  | .pushVariable x | .assign x => some x
  | _ => none

/-- An instruction uses a name that no scope binds. -/
def Instruction.Misses (S : Scopes) (x : String) (i : Instruction) : Prop := i.uses? = some x ∧ S.get? x = none

namespace Machine

/-! ## One instruction -/

section Step

variable {ui : Bool} {pc : Address} {S : Scopes} {i : Instruction} {x : Talk (Fault × Scopes) Config}

/-- Of the names that an instruction uses, a conversation is only about those that no scope binds, and only such a name
that is read can be called unknown. -/
abbrev AsksUnbound (i : Instruction) (S : Scopes) (x : Talk (Fault × Scopes) Config) : Prop :=
  x.Assures (fun _ => True) (fun r => ∀ name, r.name? = some name → i.Misses S name) (fun _ => True)
    fun e => e.1.code = .unknownVariable → ∃ name, i = .pushVariable name ∧ S.get? name = none

theorem asksUnbound_done (c : Config) : AsksUnbound i S (.done c) := Talk.assures_done trivial

theorem asksUnbound_fail {e : Fault × Scopes} (h : e.1.code ≠ .unknownVariable) : AsksUnbound i S (.fail e) :=
  Talk.assures_fail fun hcode => absurd hcode h

theorem asksUnbound_calculation {α : Type} {y : Except Fault α} {f : Fault} (hy : Calculates y) (h : y = .error f)
    (role : String) (i' : Instruction) (S' : Scopes) : AsksUnbound i S (.fail (calculationFault role i' f, S')) := by
  refine asksUnbound_fail ?_
  rw [calculationFault, if_pos (hy f h)]
  exact nofun

theorem asksUnbound_pushing (v : Value) (a : Address) (S' : Scopes) : AsksUnbound i S (pushing v a S') := by
  unfold pushing
  split
  · exact asksUnbound_fail nofun
  · exact asksUnbound_done _

/-- What is no request about a name may be asked. -/
theorem asksUnbound_ask {r : Request} {next : r.Reply → Talk (Fault × Scopes) Config} (hr : r.name? = none)
    (h : ∀ reply, AsksUnbound i S (next reply)) : AsksUnbound i S (.ask r next) := by
  refine Talk.assures_ask (fun name hname => ?_) fun reply _ => h reply
  rw [hr] at hname
  cases hname

theorem dialog_asksUnbound {d : Dialog} (hoperands : d.defaults.length ≤ S.items.length) :
    AsksUnbound i S (advance ui (.dialog d) ⟨pc, S⟩) := by
  cases d with
  | message =>
    obtain ⟨text, S₁, rfl⟩ := exists_operand_cons (Nat.lt_of_lt_of_le Nat.zero_lt_two hoperands)
    obtain ⟨kind, S₂, rfl⟩ := exists_operand_cons (S := S₁) (Nat.le_of_succ_le_succ hoperands)
    rw [advance_message]
    cases hk : kind.toInteger with
    | ok n => exact asksUnbound_ask rfl fun _ => asksUnbound_done _
    | error f => exact asksUnbound_calculation kind.toInteger_calculates hk _ _ _
  | msgBox =>
    cases ui with
    | false =>
      rw [advance_dialog_refused _ _ (d := .msgBox) (by simp)]
      exact asksUnbound_fail nofun
    | true =>
      obtain ⟨title, S₁, rfl⟩ := exists_operand_cons (Nat.lt_of_lt_of_le (Nat.succ_pos 2) hoperands)
      obtain ⟨buttons, S₂, rfl⟩ := exists_operand_cons (S := S₁)
        (Nat.lt_of_lt_of_le Nat.zero_lt_two (Nat.le_of_succ_le_succ hoperands))
      obtain ⟨prompt, S₃, rfl⟩ := exists_operand_cons (S := S₂)
        (Nat.le_of_succ_le_succ (Nat.le_of_succ_le_succ hoperands))
      rw [advance_msgBox]
      cases hb : buttons.toInteger with
      | ok n => exact asksUnbound_ask rfl fun _ => asksUnbound_pushing _ _ _
      | error f => exact asksUnbound_calculation buttons.toInteger_calculates hb _ _ _
  | inputBox =>
    cases ui with
    | false =>
      rw [advance_dialog_refused _ _ (d := .inputBox) (by simp)]
      exact asksUnbound_fail nofun
    | true =>
      obtain ⟨initial, S₁, rfl⟩ := exists_operand_cons (Nat.lt_of_lt_of_le (Nat.succ_pos 2) hoperands)
      obtain ⟨title, S₂, rfl⟩ := exists_operand_cons (S := S₁)
        (Nat.lt_of_lt_of_le Nat.zero_lt_two (Nat.le_of_succ_le_succ hoperands))
      obtain ⟨prompt, S₃, rfl⟩ := exists_operand_cons (S := S₂)
        (Nat.le_of_succ_le_succ (Nat.le_of_succ_le_succ hoperands))
      rw [advance_inputBox]
      exact asksUnbound_ask rfl fun _ => asksUnbound_pushing _ _ _

/-- An instruction that finds its operands asks about no name that is bound. -/
theorem advance_asksUnbound (hoperands : i.operands ≤ S.items.length) : AsksUnbound i S (advance ui i ⟨pc, S⟩) := by
  cases i with
  | allocConst | allocVar | call => exact asksUnbound_done _
  | jump b => exact asksUnbound_done _
  | pushValue v =>
    rw [advance_pushValue]
    exact asksUnbound_pushing _ _ _
  | pushVariable name =>
    cases hb : S.get? name with
    | some b =>
      rw [advance_pushVariable_bound _ _ _ hb]
      split
      · exact asksUnbound_fail (by rintro ⟨⟩)
      · exact asksUnbound_pushing _ _ _
    | none =>
      rw [advance_pushVariable_unbound _ _ _ hb]
      refine Talk.assures_ask ?_ fun reply _ => ?_
      · rintro _ ⟨⟩
        exact ⟨rfl, hb⟩
      · cases reply with
        | some v => exact asksUnbound_pushing _ _ _
        | none => exact Talk.assures_fail fun _ => ⟨name, rfl, hb⟩
  | pop =>
    obtain ⟨v, S₁, rfl⟩ := exists_operand_cons hoperands
    exact asksUnbound_done _
  | copy depth =>
    rw [advance_copy _ _ (List.getElem?_eq_getElem hoperands)]
    exact asksUnbound_pushing _ _ _
  | assign name =>
    obtain ⟨v, S₁, rfl⟩ := exists_operand_cons hoperands
    cases hb : S₁.get? name with
    | some b =>
      rw [advance_assign_bound _ _ _ _ hb]
      split
      · exact asksUnbound_fail (by rintro ⟨⟩)
      · exact asksUnbound_done _
    | none =>
      rw [advance_assign_unbound _ _ _ _ hb]
      refine Talk.assures_ask ?_ fun _ _ => asksUnbound_done _
      rintro _ ⟨⟩
      exact ⟨rfl, hb⟩
  | binary op =>
    obtain ⟨r, S₁, rfl⟩ := exists_operand_cons (Nat.lt_of_lt_of_le Nat.zero_lt_two hoperands)
    obtain ⟨l, S₂, rfl⟩ := exists_operand_cons (S := S₁) (Nat.le_of_succ_le_succ hoperands)
    rw [advance_binary]
    cases hop : op.apply l r with
    | ok v => exact asksUnbound_pushing _ _ _
    | error f => exact asksUnbound_calculation (op.apply_calculates l r) hop _ _ _
  | unary op =>
    obtain ⟨v, S₁, rfl⟩ := exists_operand_cons hoperands
    rw [advance_unary]
    cases hop : op.apply v with
    | ok v' => exact asksUnbound_pushing _ _ _
    | error f => exact asksUnbound_calculation (op.apply_calculates v) hop _ _ _
  | print =>
    obtain ⟨v, S₁, rfl⟩ := exists_operand_cons hoperands
    exact asksUnbound_ask rfl fun _ => asksUnbound_done _
  | notify n => exact asksUnbound_ask rfl fun _ => asksUnbound_done _
  | dialog d => exact dialog_asksUnbound hoperands
  | jumpTrue b =>
    obtain ⟨v, S₁, rfl⟩ := exists_operand_cons hoperands
    rw [advance_jumpTrue]
    cases hc : v.toBoolean with
    | ok taken => exact asksUnbound_done _
    | error f => exact asksUnbound_calculation v.toBoolean_calculates hc _ _ _
  | jumpFalse b =>
    obtain ⟨v, S₁, rfl⟩ := exists_operand_cons hoperands
    rw [advance_jumpFalse]
    cases hc : v.toBoolean with
    | ok taken => exact asksUnbound_done _
    | error f => exact asksUnbound_calculation v.toBoolean_calculates hc _ _ _
  | jumpPop =>
    obtain ⟨v, S₁, rfl⟩ := exists_operand_cons hoperands
    cases v with
    | address a => exact asksUnbound_done _
    | number | text | boolean | uninitialized => exact asksUnbound_fail (by rintro ⟨⟩)
  | pushScope =>
    rw [advance_pushScope]
    split
    · exact asksUnbound_fail (by rintro ⟨⟩)
    · exact asksUnbound_done _
  | popScope =>
    obtain ⟨top, below, depth, hdepth⟩ := S
    cases below with
    | nil => exact asksUnbound_fail (by rintro ⟨⟩)
    | cons next rest => exact asksUnbound_done _
  | ret =>
    obtain ⟨a, -, hret⟩ | hret := advance_ret_cases ui pc S
    · rw [hret]
      exact asksUnbound_done _
    · rw [hret]
      exact asksUnbound_fail (by rintro ⟨⟩)

end Step

/-! ## Runs -/

section Runs

variable {σ : Type} {host : Host (StateM σ)} {options : Options} {lines : Array Line} {M₀ M M' : Machine}
  {st₀ st st' : σ} {calls : List Address} {L : Address → Option Layout} {line : Line} {events : List Event}
  {o : Outcome} {fuel : Nat}

/-- Whatever a turn of a run asks about a name, its instruction uses the name where no scope binds it, and if the turn
ends the run because a name is unknown, its instruction reads such a name. -/
theorem Reaches.turned_asks (hL : Describes L lines) (h₀ : Laid L M₀.config [])
    (h : Reaches host options lines M₀ st₀ M st calls) (hline : lines[M.pc]? = some line)
    (hturned : Turned options line M events o) :
    (∀ e ∈ events, ∀ x, e.request.name? = some x → line.instruction.Misses M.scopes x) ∧
      ∀ f M', o = .error f M' → f.code = .unknownVariable →
        ∃ x, line.instruction = .pushVariable x ∧ M.scopes.get? x = none := by
  have hoperands := ((h.laid hL h₀).safe hL).operands line hline
  have hadvance : AsksUnbound _ _ (advance options.ui line.instruction M.config) := advance_asksUnbound hoperands
  obtain ⟨hsaid, _, hfault⟩ := hturned.assured hadvance (fun _ _ => trivial) nofun
  refine ⟨hsaid, fun f M' ho hcode => ?_⟩
  rcases hfault f M' ho with hcode' | hcode' | ⟨f', rfl, hunknown⟩
  · rw [hcode] at hcode'; cases hcode'
  · rw [hcode] at hcode'; cases hcode'
  · rw [Fault.code_orPlace] at hcode
    exact hunknown hcode

/-- Whatever a run asks about a name, it asks where no scope binds it. -/
theorem run_asks {ended : Option Outcome} (hL : Describes L lines) (h₀ : Laid L M₀.config [])
    (h : Reaches host options lines M₀ st₀ M st calls) (hrun : run host options lines fuel M st = (ended, st')) :
    ∃ events, host.Speaks st events st' ∧ ∀ e ∈ events, ∀ x, e.request.name? = some x →
      ∃ M₁ st₁ calls₁ line, Reaches host options lines M₀ st₀ M₁ st₁ calls₁ ∧ lines[M₁.pc]? = some line ∧
        line.instruction.Misses M₁.scopes x := by
  induction fuel generalizing M st calls with
  | zero =>
    cases hrun
    exact ⟨[], .silent _, by simp⟩
  | succ fuel ih =>
    unfold run at hrun
    cases hline : lines[M.pc]? with
    | none =>
      rw [hline] at hrun
      cases hrun
      exact ⟨[], .silent _, by simp⟩
    | some line =>
      rw [hline] at hrun
      simp only at hrun
      rw [stateM_bind] at hrun
      generalize hturn : turn host options line M st = y at hrun
      obtain ⟨o, st₁⟩ := y
      obtain ⟨events, hspeaks, hturned⟩ := turn_turned hturn
      have hasks : ∀ e ∈ events, ∀ x, e.request.name? = some x → ∃ M₁ st₁ calls₁ line,
          Reaches host options lines M₀ st₀ M₁ st₁ calls₁ ∧ lines[M₁.pc]? = some line ∧
            line.instruction.Misses M₁.scopes x := by
        intro e he x hx
        exact ⟨M, st, calls, line, h, hline, (h.turned_asks hL h₀ hline hturned).1 e he x hx⟩
      cases o with
      | error f M' =>
        cases hrun
        exact ⟨events, hspeaks, hasks⟩
      | ok _ M' =>
        obtain ⟨events', hspeaks', hasks'⟩ := ih (h.turn hline hturn) hrun
        exact ⟨events ++ events', hspeaks.append hspeaks', List.forall_mem_append.2 ⟨hasks, hasks'⟩⟩

/-- A run that ends because a name is unknown has read it where no scope binds it. -/
theorem run_unknown (hL : Describes L lines) (h₀ : Laid L M₀.config []) {f : Fault}
    (hrun : run host options lines fuel M₀ st₀ = (some (.error f M'), st')) (hf : f.code = .unknownVariable) :
    ∃ M st calls line x, Reaches host options lines M₀ st₀ M st calls ∧ lines[M.pc]? = some line ∧
      line.instruction = .pushVariable x ∧ M.scopes.get? x = none := by
  obtain ⟨M, st, calls, hreaches, ⟨ho, _⟩ | ⟨line, f, M', ho, hline, hturn⟩⟩ := exists_reaches_of_run .start hrun
  · cases ho
  · cases ho
    obtain ⟨events, _, hturned⟩ := turn_turned hturn
    obtain ⟨x, hi, hx⟩ := (hreaches.turned_asks hL h₀ hline hturned).2 _ _ rfl hf
    exact ⟨M, st, calls, line, x, hreaches, hline, hi, hx⟩

end Runs

end Machine

end MacroBasic
