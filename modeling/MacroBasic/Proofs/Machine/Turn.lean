/-
Turns of a run, and what is said in them. A turn executes one instruction, which asks the host at most once, and
then looks whether the run is cancelled and whether its time is over; only then is the host asked for more time.
What a turn can come to is said here once. What a host says in a run is the log that it would keep of it.
-/
import MacroBasic.Proofs.Machine.Effect

namespace MacroBasic

/-! ## Events -/

/-- A request with the answer to it. -/
structure Event where
  request : Request
  answer : Answer request

/-- An event as an exchange, which does not tell whether the run is to be cancelled. -/
def Event.exchange (e : Event) : Exchange := ⟨e.request, e.answer.reply⟩

/-- Answers to all requests, as actions on states of type `σ`. -/
abbrev Answering (σ : Type) := (r : Request) → StateM σ (Answer r)

/-- The same answers, with a log of them. -/
def Answering.logged {σ : Type} (ask : Answering σ) : Answering (σ × List Event) := fun r s =>
  ((ask r s.1).1, (ask r s.1).2, s.2 ++ [⟨r, (ask r s.1).1⟩])

/-- The same host, with a log of its answers. -/
def Host.logged {σ : Type} (host : Host (StateM σ)) : Host (StateM (σ × List Event)) where
  ask := Answering.logged host.ask
  clock := fun s => ((host.clock s.1).1, (host.clock s.1).2, s.2)

/-- A host gets from one state to another when it answers as the events say, and tells the time now and then. -/
inductive Host.Speaks {σ : Type} (host : Host (StateM σ)) : σ → List Event → σ → Prop
  | silent (st : σ) : host.Speaks st [] st
  | answers (r : Request) {st st' : σ} {events : List Event} (h : host.Speaks (host.ask r st).2 events st') :
    host.Speaks st (⟨r, (host.ask r st).1⟩ :: events) st'
  | tells {st st' : σ} {events : List Event} (h : host.Speaks (host.clock st).2 events st') :
    host.Speaks st events st'

namespace Host.Speaks

variable {σ : Type} {host : Host (StateM σ)} {st st' st'' : σ} {events events' : List Event}

theorem append (h : host.Speaks st events st') (h' : host.Speaks st' events' st'') :
    host.Speaks st (events ++ events') st'' := by
  induction h with
  | silent => exact h'
  | answers r _ ih => exact .answers r (ih h')
  | tells _ ih => exact .tells (ih h')

/-- Every answer is one that the host gives in some state. -/
theorem answered (h : host.Speaks st events st') {e : Event} (he : e ∈ events) :
    ∃ st₁, e.answer = (host.ask e.request st₁).1 := by
  induction h with
  | silent => cases he
  | @answers r st _ _ _ ih =>
    rcases List.mem_cons.1 he with rfl | he
    · exact ⟨st, rfl⟩
    · exact ih he
  | tells _ ih => exact ih he

/-- A log holds what has been said. -/
theorem logged {s s' : σ × List Event} (h : host.logged.Speaks s events s') : s'.2 = s.2 ++ events := by
  induction h with
  | silent => rw [List.append_nil]
  | answers r _ ih =>
    rw [ih]
    exact List.append_assoc ..
  | tells _ ih => exact ih

end Host.Speaks

namespace Machine

/-! ## Faults -/

section Faults

variable {ui : Bool} {pc : Address} {S S' : Scopes} {i : Instruction} {t : List Exchange} {f : Fault}

theorem yields_pushing_fault {v : Value} {a : Address} (h : (pushing v a S).Yields t (.error (f, S'))) : S' = S := by
  unfold pushing at h
  split at h
  · cases h
    rfl
  · cases h

theorem dialog_fault {d : Dialog} (hoperands : d.defaults.length ≤ S.items.length)
    (h : (advance ui (.dialog d) ⟨pc, S⟩).Yields t (.error (f, S'))) : ∃ taken, S = S'.pushAll taken := by
  -- a refused dialog takes nothing, one that is shown has taken all its operands
  cases d with
  | message =>
    obtain ⟨text, S₁, rfl⟩ := exists_operand_cons (Nat.lt_of_lt_of_le Nat.zero_lt_two hoperands)
    obtain ⟨kind, S₂, rfl⟩ := exists_operand_cons (S := S₁) (Nat.le_of_succ_le_succ hoperands)
    rw [advance_message] at h
    split at h
    · cases h with
      | ask h => cases h
    · cases h
      exact ⟨[kind, text], rfl⟩
  | msgBox =>
    cases ui with
    | false =>
      rw [advance_dialog_refused _ _ (d := .msgBox) (by simp)] at h
      cases h
      exact ⟨[], rfl⟩
    | true =>
      obtain ⟨title, S₁, rfl⟩ := exists_operand_cons (Nat.lt_of_lt_of_le (Nat.succ_pos 2) hoperands)
      obtain ⟨buttons, S₂, rfl⟩ := exists_operand_cons (S := S₁)
        (Nat.lt_of_lt_of_le Nat.zero_lt_two (Nat.le_of_succ_le_succ hoperands))
      obtain ⟨prompt, S₃, rfl⟩ := exists_operand_cons (S := S₂)
        (Nat.le_of_succ_le_succ (Nat.le_of_succ_le_succ hoperands))
      rw [advance_msgBox] at h
      split at h
      · cases h with
        | ask h => cases yields_pushing_fault h; exact ⟨[prompt, buttons, title], rfl⟩
      · cases h
        exact ⟨[prompt, buttons, title], rfl⟩
  | inputBox =>
    cases ui with
    | false =>
      rw [advance_dialog_refused _ _ (d := .inputBox) (by simp)] at h
      cases h
      exact ⟨[], rfl⟩
    | true =>
      obtain ⟨initial, S₁, rfl⟩ := exists_operand_cons (Nat.lt_of_lt_of_le (Nat.succ_pos 2) hoperands)
      obtain ⟨title, S₂, rfl⟩ := exists_operand_cons (S := S₁)
        (Nat.lt_of_lt_of_le Nat.zero_lt_two (Nat.le_of_succ_le_succ hoperands))
      obtain ⟨prompt, S₃, rfl⟩ := exists_operand_cons (S := S₂)
        (Nat.le_of_succ_le_succ (Nat.le_of_succ_le_succ hoperands))
      rw [advance_inputBox] at h
      cases h with
      | ask h => cases yields_pushing_fault h; exact ⟨[prompt, title, initial], rfl⟩

/-- An instruction that faults leaves all but the operands that it has taken. -/
theorem advance_fault (hoperands : i.operands ≤ S.items.length)
    (h : (advance ui i ⟨pc, S⟩).Yields t (.error (f, S'))) : ∃ taken, S = S'.pushAll taken := by
  -- the equation of each instruction shows what it has taken before it fails
  cases i with
  | allocConst | allocVar | call | jump => cases h
  | notify n =>
    rw [advance_notify] at h
    cases h with
    | ask h => cases h
  | pop =>
    obtain ⟨v, S₁, rfl⟩ := exists_operand_cons hoperands
    cases h
  | print =>
    obtain ⟨v, S₁, rfl⟩ := exists_operand_cons hoperands
    rw [advance_print] at h
    cases h with
    | ask h => cases h
  | pushValue v =>
    rw [advance_pushValue] at h
    cases yields_pushing_fault h
    exact ⟨[], rfl⟩
  | pushVariable name =>
    cases hb : S.get? name with
    | some b =>
      rw [advance_pushVariable_bound _ _ _ hb] at h
      split at h
      · cases h
        exact ⟨[], rfl⟩
      · cases yields_pushing_fault h
        exact ⟨[], rfl⟩
    | none =>
      rw [advance_pushVariable_unbound _ _ _ hb] at h
      obtain ⟨reply, _, _, hreply⟩ := Talk.yields_ask.1 h
      cases reply with
      | none => cases hreply; exact ⟨[], rfl⟩
      | some v => cases yields_pushing_fault hreply; exact ⟨[], rfl⟩
  | copy depth =>
    rw [advance_copy _ _ (List.getElem?_eq_getElem hoperands)] at h
    cases yields_pushing_fault h
    exact ⟨[], rfl⟩
  | assign name =>
    obtain ⟨v, S₁, rfl⟩ := exists_operand_cons hoperands
    cases hb : S₁.get? name with
    | some b =>
      rw [advance_assign_bound _ _ _ _ hb] at h
      split at h
      · cases h
        exact ⟨[v], rfl⟩
      · cases h
    | none =>
      rw [advance_assign_unbound _ _ _ _ hb] at h
      cases h with
      | ask h => cases h
  | binary op =>
    obtain ⟨r, S₁, rfl⟩ := exists_operand_cons (Nat.lt_of_lt_of_le Nat.zero_lt_two hoperands)
    obtain ⟨l, S₂, rfl⟩ := exists_operand_cons (S := S₁) (Nat.le_of_succ_le_succ hoperands)
    rw [advance_binary] at h
    split at h
    · cases yields_pushing_fault h
      exact ⟨[l, r], rfl⟩
    · cases h
      exact ⟨[l, r], rfl⟩
  | unary op =>
    obtain ⟨v, S₁, rfl⟩ := exists_operand_cons hoperands
    rw [advance_unary] at h
    split at h
    · cases yields_pushing_fault h
      exact ⟨[v], rfl⟩
    · cases h
      exact ⟨[v], rfl⟩
  | dialog d => exact dialog_fault hoperands h
  | jumpTrue b =>
    obtain ⟨v, S₁, rfl⟩ := exists_operand_cons hoperands
    rw [advance_jumpTrue] at h
    split at h
    · cases h
    · cases h
      exact ⟨[v], rfl⟩
  | jumpFalse b =>
    obtain ⟨v, S₁, rfl⟩ := exists_operand_cons hoperands
    rw [advance_jumpFalse] at h
    split at h
    · cases h
    · cases h
      exact ⟨[v], rfl⟩
  | jumpPop =>
    obtain ⟨v, S₁, rfl⟩ := exists_operand_cons hoperands
    cases v with
    | address a => cases h
    | number | text | boolean | uninitialized => cases h; exact ⟨[_], rfl⟩
  | pushScope =>
    rw [advance_pushScope] at h
    split at h
    · cases h
      exact ⟨[], rfl⟩
    · cases h
  | popScope =>
    obtain ⟨top, below, depth, hdepth⟩ := S
    cases below with
    | nil => cases h; exact ⟨[], rfl⟩
    | cons next rest => cases h
  | ret =>
    obtain ⟨a, -, hret⟩ | hret := advance_ret_cases ui pc S
    · rw [hret] at h
      cases h
    · rw [hret] at h
      cases h
      exact ⟨[], rfl⟩

end Faults

/-! ## One instruction -/

/-- The state that an outcome leaves. -/
def leaves : Outcome → Machine
  | .ok _ M | .error _ M => M

/-- An instruction comes to an outcome while the given events take place. -/
structure Executed (ui : Bool) (i : Instruction) (M : Machine) (asked : List Event) (o : Outcome) : Prop where
  accounts : Accounts (advance ui i M.config) (asked.map Event.exchange) o
  /-- The host is asked at most once, and not for time. -/
  once : asked = [] ∨ ∃ e, asked = [e] ∧ e.request ≠ .timeout
  cancelled : (leaves o).cancelled = (M.cancelled || asked.any (·.answer.cancel))

section Turns

variable {σ : Type} {host : Host (StateM σ)} {options : Options} {line : Line} {lines : Array Line} {M : Machine}
  {st st' : σ} {events : List Event} {o : Outcome}

theorem execute_executed {ui : Bool} {i : Instruction} (h : execute host ui i M st = (o, st')) :
    ∃ asked, host.Speaks st asked st' ∧ Executed ui i M asked o := by
  unfold execute at h
  have hstep : advance ui i M.config = proceed (step ui M.pc i M.scopes) := rfl
  cases hs : step ui M.pc i M.scopes with
  | error f s =>
    rw [hs] at h hstep
    cases h
    exact ⟨[], .silent st, by rw [hstep]; exact .fail _, .inl rfl, by simp [leaves]⟩
  | ok next s =>
    rw [hs] at h hstep
    cases next with
    | goto a =>
      cases h
      exact ⟨[], .silent st, by rw [hstep]; exact .done _, .inl rfl, by simp [leaves]⟩
    | ask r resume =>
      simp only at h
      rw [stateM_bind] at h
      cases h
      refine ⟨[⟨r, (host.ask r st).1⟩], .answers r (.silent _), ?_, .inr ⟨_, rfl, step_request hs⟩, ?_⟩
      · rw [hstep]
        cases hr : resume (host.ask r st).1.reply s with
        | ok a s' => exact .ask (by rw [hr]; exact .done _)
        | error f s' => exact .ask (by rw [hr]; exact .fail _)
      · cases resume (host.ask r st).1.reply s with
        | ok a s' => simp [leaves, settle, heed]
        | error f s' => simp [leaves, settle, heed]

/-! ## The time -/

/-- The fault of a run whose time is over. -/
def lateFault (ms : Nat) : Fault := .because .timedOut s!"Timeout after {ms} ms"

/-- The fault of a run that is cancelled. -/
def cancelFault : Fault := .because .cancelled "Code execution aborted"

section Time

variable {ms : Nat} (hover : ¬ (host.clock st).1 - M.started < ms * 1000000) (p : Position)

include hover

theorem checkTime_granted (hgrant : (host.ask .timeout (host.clock st).2).1.reply = true) :
    checkTime host (some ms) p M st =
      let (answer, st₁) := host.ask .timeout (host.clock st).2
      (.ok () { M.heed answer with started := (host.clock st₁).1 }, (host.clock st₁).2) := by
  unfold checkTime
  simp only
  rw [stateM_bind, if_neg hover, stateM_bind]
  simp only [hgrant, if_true]
  rfl

theorem checkTime_refused (hrefuse : ¬ (host.ask .timeout (host.clock st).2).1.reply = true) :
    checkTime host (some ms) p M st =
      let (answer, st₁) := host.ask .timeout (host.clock st).2
      (.error ((lateFault ms).place p) (M.heed answer), st₁) := by
  unfold checkTime
  simp only
  rw [stateM_bind, if_neg hover, stateM_bind]
  simp only [hrefuse]
  rfl

end Time

/-- Looking at the time changes nothing, or the host is asked for more and grants it or not. -/
theorem checkTime_cases {timeout : Option Nat} {p : Position} (h : checkTime host timeout p M st = (o, st')) :
    host.Speaks st [] st' ∧ o = .ok () M ∨
    ∃ (ms : Nat) (answer : Answer .timeout), timeout = some ms ∧ host.Speaks st [⟨.timeout, answer⟩] st' ∧
      ((answer.reply : Bool) = false ∧ o = .error ((lateFault ms).place p) (M.heed answer) ∨
        (answer.reply : Bool) = true ∧ ∃ now, o = .ok () { M.heed answer with started := now }) := by
  cases timeout with
  | none =>
    cases h
    exact .inl ⟨.silent st, rfl⟩
  | some ms =>
    by_cases hnow : (host.clock st).1 - M.started < ms * 1000000
    · unfold checkTime at h
      simp only at h
      rw [stateM_bind, if_pos hnow] at h
      cases h
      exact .inl ⟨.tells (.silent _), rfl⟩
    · refine .inr ⟨ms, (host.ask .timeout (host.clock st).2).1, rfl, ?_⟩
      by_cases hgrant : (host.ask .timeout (host.clock st).2).1.reply = true
      · rw [checkTime_granted hnow p hgrant] at h
        cases h
        exact ⟨.tells (.answers .timeout (.tells (.silent _))), .inr ⟨hgrant, _, rfl⟩⟩
      · rw [checkTime_refused hnow p hgrant] at h
        cases h
        exact ⟨.tells (.answers .timeout (.silent _)), .inl ⟨eq_false_of_ne_true hgrant, rfl⟩⟩

/-! ## Turns -/

/-- What a turn can come to, and the events that take place in it. -/
inductive Turned (options : Options) (line : Line) (M : Machine) : List Event → Outcome → Prop
  /-- The instruction faults. -/
  | faults {asked : List Event} {f : Fault} {M' : Machine}
      (h : Executed options.ui line.instruction M asked (.error f M')) :
    Turned options line M asked (.error (f.orPlace line.position) M')
  /-- The run is cancelled. -/
  | stops {asked : List Event} {M' : Machine} (h : Executed options.ui line.instruction M asked (.ok () M'))
      (hc : M'.cancelled = true) : Turned options line M asked (.error (cancelFault.place line.position) M')
  /-- The run goes on. -/
  | onward {asked : List Event} {M' : Machine} (h : Executed options.ui line.instruction M asked (.ok () M'))
      (hc : M'.cancelled = false) : Turned options line M asked (.ok () M')
  /-- The time is over. -/
  | late {asked : List Event} {M' : Machine} {ms : Nat} {answer : Answer .timeout}
      (h : Executed options.ui line.instruction M asked (.ok () M')) (hc : M'.cancelled = false)
      (hreply : (answer.reply : Bool) = false) :
    Turned options line M (asked ++ [⟨.timeout, answer⟩])
      (.error ((lateFault ms).place line.position) (M'.heed answer))
  /-- The time was over, and the run goes on because the host has granted it more. -/
  | granted {asked : List Event} {M' : Machine} {answer : Answer .timeout} {now : Nat}
      (h : Executed options.ui line.instruction M asked (.ok () M')) (hc : M'.cancelled = false)
      (hreply : (answer.reply : Bool) = true) :
    Turned options line M (asked ++ [⟨.timeout, answer⟩]) (.ok () { M'.heed answer with started := now })

theorem turn_turned (h : turn host options line M st = (o, st')) :
    ∃ events, host.Speaks st events st' ∧ Turned options line M events o := by
  unfold turn at h
  rw [stateM_bind] at h
  generalize hexecute : execute host options.ui line.instruction M st = x at h
  obtain ⟨o₁, st₁⟩ := x
  obtain ⟨asked, hasked, hexecuted⟩ := execute_executed hexecute
  cases o₁ with
  | error f M' =>
    cases h
    exact ⟨asked, hasked, .faults hexecuted⟩
  | ok _ M' =>
    simp only at h
    by_cases hc : M'.cancelled = true
    · rw [if_pos hc] at h
      cases h
      exact ⟨asked, hasked, .stops hexecuted hc⟩
    · rw [if_neg hc] at h
      have hc := eq_false_of_ne_true hc
      rcases checkTime_cases h with ⟨hspeaks, rfl⟩ | ⟨ms, answer, _, hspeaks, ⟨hreply, rfl⟩ | ⟨hreply, now, rfl⟩⟩
      · exact ⟨asked ++ [], hasked.append hspeaks, by rw [List.append_nil]; exact .onward hexecuted hc⟩
      · exact ⟨_, hasked.append hspeaks, .late hexecuted hc hreply⟩
      · exact ⟨_, hasked.append hspeaks, .granted hexecuted hc hreply⟩

/-- Whatever a turn comes to, its instruction has led to the state that is left or has faulted there. -/
theorem Turned.advanced (h : Turned options line M events o) :
    ∃ asked, asked ⊆ events ∧
      ((advance options.ui line.instruction M.config).Yields (asked.map Event.exchange) (.ok (leaves o).config) ∨
        ∃ f, o = .error (f.orPlace line.position) (leaves o) ∧
          (advance options.ui line.instruction M.config).Yields (asked.map Event.exchange)
            (.error (f, (leaves o).scopes))) := by
  cases h with
  | faults h => exact ⟨_, List.Subset.refl _, .inr ⟨_, rfl, h.accounts⟩⟩
  | stops h | onward h => exact ⟨_, List.Subset.refl _, .inl h.accounts⟩
  | late h | granted h => exact ⟨_, List.subset_append_left _ _, .inl h.accounts⟩

end Turns

end Machine

end MacroBasic
