/-
Cancelling a run. The host asks for it with any of its answers. The run looks for that right after each instruction,
but not after it has been granted more time: it then executes one more instruction before it stops, which may ask
the host once more, and it is completed if there was no instruction left.
-/
import MacroBasic.Proofs.Machine.Turn
import MacroBasic.Proofs.Program.Compiled

namespace MacroBasic

/-- Whether the host grants more time. -/
def Event.grants : Event → Bool
  | ⟨.timeout, answer⟩ => answer.reply
  | _ => false

theorem Event.grants_of_request {e : Event} (h : e.request ≠ .timeout) : e.grants = false := by
  obtain ⟨r, answer⟩ := e
  cases r with
  | timeout => exact absurd rfl h
  | _ => rfl

namespace Machine

/-- A run has ended with a fault. -/
def Faulted (ended : Option Outcome) : Prop := ∃ f M, ended = some (.error f M)

section Turns

variable {options : Options} {line : Line} {M : Machine} {events : List Event} {o : Outcome}

/-- A run is to be cancelled after a turn if it was to be before, or if an answer has asked for it. -/
theorem Turned.cancelled (h : Turned options line M events o) :
    (leaves o).cancelled = (M.cancelled || events.any (·.answer.cancel)) := by
  cases h with
  | faults h | stops h _ | onward h _ => exact h.cancelled
  | late h _ _ | granted h _ _ =>
    have hM' := h.cancelled
    simp only [leaves] at hM'
    simp only [leaves, heed, hM', List.any_append, List.any_cons, List.any_nil, Bool.or_false, Bool.or_assoc]

/-- A run that is to be cancelled ends with the next turn, in which the host is asked at most once. -/
theorem Turned.of_cancelled (h : Turned options line M events o) (hM : M.cancelled = true) :
    events.length ≤ 1 ∧ ∃ f M', o = .error f M' := by
  have hlength {asked : List Event} {o' : Outcome} (h' : Executed options.ui line.instruction M asked o') :
      asked.length ≤ 1 := by
    rcases h'.once with rfl | ⟨e, rfl, _⟩
    · exact Nat.zero_le 1
    · exact Nat.le_refl 1
  -- an instruction that does not fault leaves the run to be cancelled
  have hstays {asked : List Event} {M' : Machine}
      (h' : Executed options.ui line.instruction M asked (.ok () M')) : M'.cancelled = true := by
    have hM' := h'.cancelled
    rw [hM, Bool.true_or] at hM'
    exact hM'
  cases h with
  | faults h => exact ⟨hlength h, _, _, rfl⟩
  | stops h _ => exact ⟨hlength h, _, _, rfl⟩
  | onward h hc | late h hc _ | granted h hc _ =>
    rw [hstays h] at hc
    cases hc

/-- An answer that asks for the run to be cancelled is the last one of its turn, and the run ends with the turn
unless the answer has granted it more time. -/
theorem Turned.cancels (h : Turned options line M events o) {before after : List Event} {e : Event}
    (hevents : events = before ++ e :: after) (he : e.answer.cancel = true) :
    after = [] ∧ (e.grants = false ∧ (∃ f M', o = .error f M') ∨ e.grants = true ∧ ∃ M', o = .ok () M') := by
  have hmem : e ∈ before ++ e :: after := by simp
  -- the one answer to an instruction
  have hasked {asked : List Event} {o' : Outcome} (h' : Executed options.ui line.instruction M asked o')
      (hsplit : asked = before ++ e :: after) : after = [] ∧ e.grants = false := by
    rcases h'.once with hnil | ⟨e', hone, hrequest⟩
    · rw [hnil] at hsplit
      simp at hsplit
    · rw [hone] at hsplit
      obtain ⟨_, hsplit⟩ | ⟨_, hsplit⟩ := List.append_eq_singleton_iff.1 hsplit.symm
      · cases hsplit
        exact ⟨rfl, Event.grants_of_request hrequest⟩
      · cases hsplit
  -- the answer about time, where none before it has asked for the run to be cancelled
  have htime {asked : List Event} {M' : Machine} {answer : Answer .timeout}
      (h' : Executed options.ui line.instruction M asked (.ok () M')) (hc : M'.cancelled = false)
      (hsplit : asked ++ [⟨.timeout, answer⟩] = before ++ e :: after) : after = [] ∧ e = ⟨.timeout, answer⟩ := by
    rcases List.eq_nil_or_concat after with rfl | ⟨rest, last, rfl⟩
    · exact ⟨rfl, (List.append_inj' hsplit rfl).2 |> List.singleton_inj.1 |>.symm⟩
    · have hconcat : asked ++ [⟨.timeout, answer⟩] = (before ++ e :: rest) ++ [last] := by
        rw [hsplit]
        simp
      have hinit : asked = before ++ e :: rest := (List.append_inj' hconcat rfl).1
      have hM' := h'.cancelled
      simp only [leaves, hc, hinit] at hM'
      simp [he] at hM'
  cases h with
  | faults h =>
    obtain ⟨hafter, hgrants⟩ := hasked h hevents
    exact ⟨hafter, .inl ⟨hgrants, _, _, rfl⟩⟩
  | stops h _ =>
    obtain ⟨hafter, hgrants⟩ := hasked h hevents
    exact ⟨hafter, .inl ⟨hgrants, _, _, rfl⟩⟩
  | onward h hc =>
    have hM' := h.cancelled
    simp only [leaves, hc, hevents] at hM'
    simp [he] at hM'
  | late h hc hreply =>
    obtain ⟨hafter, rfl⟩ := htime h hc hevents
    exact ⟨hafter, .inl ⟨hreply, _, _, rfl⟩⟩
  | granted h hc hreply =>
    obtain ⟨hafter, rfl⟩ := htime h hc hevents
    exact ⟨hafter, .inr ⟨hreply, _, rfl⟩⟩

end Turns

section Runs

variable {σ : Type} {host : Host (StateM σ)} {options : Options} {lines : Array Line} {fuel : Nat} {M : Machine}
  {st st' : σ} {ended : Option Outcome}

/-- A run that is to be cancelled has ended after one more instruction. -/
theorem run_of_cancelled (hM : M.cancelled = true) (h : run host options lines fuel M st = (ended, st')) :
    (∃ events, host.Speaks st events st' ∧ events.length ≤ 1 ∧ (events = [] ∨ Faulted ended)) ∧
      (run host options lines (fuel + 1) M st).1.isSome := by
  cases hline : lines[M.pc]? with
  | none =>
    refine ⟨⟨[], ?_, Nat.zero_le 1, .inl rfl⟩, ?_⟩
    · cases fuel with
      | zero =>
        cases h
        exact .silent _
      | succ fuel =>
        unfold run at h
        rw [hline] at h
        cases h
        exact .silent _
    · unfold run
      rw [hline]
      rfl
  | some line =>
    generalize hturn : turn host options line M st = x
    obtain ⟨o, st₁⟩ := x
    obtain ⟨events, hspeaks, hturned⟩ := turn_turned hturn
    obtain ⟨hlength, f, M', rfl⟩ := hturned.of_cancelled hM
    -- however much fuel is left, the turn ends the run
    have hrun (more : Nat) : run host options lines (more + 1) M st = (some (.error f M'), st₁) := by
      unfold run
      rw [hline]
      simp only
      rw [stateM_bind, hturn]
      rfl
    refine ⟨?_, by rw [hrun]; rfl⟩
    cases fuel with
    | zero =>
      cases h
      exact ⟨[], .silent _, Nat.zero_le 1, .inl rfl⟩
    | succ fuel =>
      rw [hrun] at h
      cases h
      exact ⟨events, hspeaks, hlength, .inr ⟨f, M', rfl⟩⟩

/-- What follows an answer that asks for the run to be cancelled. -/
def Heeds (e : Event) (after : List Event) (ended : Option Outcome) : Prop :=
  (e.grants = false → after = [] ∧ Faulted ended) ∧
    (e.grants = true → after.length ≤ 1 ∧ (after = [] ∨ Faulted ended))

theorem run_heeds (hM : M.cancelled = false) (h : run host options lines fuel M st = (ended, st')) :
    ∃ events, host.Speaks st events st' ∧ ∀ before e after, events = before ++ e :: after → e.answer.cancel = true →
      Heeds e after ended ∧ (run host options lines (fuel + 1) M st).1.isSome := by
  induction fuel generalizing M st with
  | zero =>
    cases h
    exact ⟨[], .silent _, fun before e after hsplit => by simp at hsplit⟩
  | succ fuel ih =>
    rw [run] at h
    cases hline : lines[M.pc]? with
    | none =>
      rw [hline] at h
      cases h
      exact ⟨[], .silent _, fun before e after hsplit => by simp at hsplit⟩
    | some line =>
      rw [hline] at h
      simp only at h
      rw [stateM_bind] at h
      generalize hturn : turn host options line M st = x at h
      obtain ⟨o, st₁⟩ := x
      obtain ⟨events, hspeaks, hturned⟩ := turn_turned hturn
      rw [run, hline]
      simp only
      rw [stateM_bind, hturn]
      cases o with
      | error f M' =>
        cases h
        refine ⟨events, hspeaks, fun before e after hsplit he => ⟨?_, rfl⟩⟩
        obtain ⟨rfl, ⟨hgrants, _⟩ | ⟨_, M'', ho⟩⟩ := hturned.cancels hsplit he
        · exact ⟨fun _ => ⟨rfl, f, M', rfl⟩, fun hg => by rw [hgrants] at hg; cases hg⟩
        · cases ho
      | ok _ M' =>
        have hM' := hturned.cancelled
        rw [hM, Bool.false_or] at hM'
        simp only [leaves] at hM'
        cases hc : M'.cancelled with
        | false =>
          -- no answer of this turn asks for it, so one of a later turn does
          obtain ⟨more, hmore, hheeds⟩ := ih hc h
          refine ⟨events ++ more, hspeaks.append hmore, fun before e after hsplit he => ?_⟩
          rw [hc] at hM'
          rcases List.append_eq_append_iff.1 hsplit with ⟨rest, rfl, hrest⟩ | ⟨rest, hevents, hrest⟩
          · exact hheeds rest e after hrest he
          · cases rest with
            | nil => exact hheeds [] e after hrest.symm he
            | cons first rest =>
              cases hrest
              rw [hevents] at hM'
              simp [he] at hM'
        | true =>
          -- the host has granted more time and asked for it at once
          obtain ⟨⟨more, hmore, hlength, hends⟩, hsome⟩ := run_of_cancelled hc h
          refine ⟨events ++ more, hspeaks.append hmore, fun before e after hsplit he => ⟨?_, hsome⟩⟩
          have hlast (rest : List Event) (hrest : more = rest ++ e :: after) : Heeds e after ended := by
            rw [hrest] at hlength hends
            simp only [List.length_append, List.length_cons] at hlength
            have hafter : after = [] := List.eq_nil_of_length_eq_zero (by omega)
            have hfaulted : Faulted ended := hends.resolve_left (by simp)
            exact ⟨fun _ => ⟨hafter, hfaulted⟩, fun _ => ⟨by rw [hafter]; exact Nat.zero_le 1, .inl hafter⟩⟩
          rcases List.append_eq_append_iff.1 hsplit with ⟨rest, rfl, hrest⟩ | ⟨rest, hevents, hrest⟩
          · exact hlast rest hrest
          · cases rest with
            | nil => exact hlast [] hrest.symm
            | cons first rest =>
              cases hrest
              obtain ⟨rfl, ⟨_, f, M'', ho⟩ | ⟨hgrants, _⟩⟩ := hturned.cancels hevents he
              · cases ho
              · exact ⟨fun hg => (by rw [hgrants] at hg; cases hg), fun _ => ⟨hlength, hends⟩⟩

end Runs

end Machine

namespace Program

open Machine

/-- The host that grants more time whenever it is asked for it, and asks for the run to be cancelled with its answer
number `n`, counted from zero. -/
def granting (n : Nat) : Host (StateM Nat) where
  ask r := fun answered => (⟨match r with | .timeout => true | r => r.indifferent, answered == n⟩, answered + 1)
  clock := pure 0

/-- Once an answer of the host asks for the run to be cancelled, the host is not asked any more and the run ends with
a fault, unless that answer grants more time. In that case at most one more request is made and the run ends with a
fault if one is. Either way the run has ended when one more instruction has been executed. -/
theorem run_cancelled (p : Program) {σ : Type} (host : Host (StateM σ)) (fuel : Nat) (st st' : σ)
    (ended : Option (Except Fault Unit × Program)) (before after : List Event) (e : Event)
    (hrun : p.run host.logged fuel (st, []) = (ended, st', before ++ e :: after)) (hcancel : e.answer.cancel = true) :
    (e.grants = false → after = [] ∧ ∃ f q, ended = some (.error f, q) ∧ q.state ≠ .completed) ∧
    (e.grants = true → after.length ≤ 1 ∧
      (after = [] ∨ ∃ f q, ended = some (.error f, q) ∧ q.state ≠ .completed)) ∧
    (p.run host.logged (fuel + 1) (st, [])).1.isSome := by
  by_cases hready : p.state = .idle ∧ p.error = none
  · obtain ⟨hstate, herror⟩ := hready
    obtain ⟨o, hmachine, rfl⟩ := machine_of_run hstate herror hrun
    obtain ⟨events, hspeaks, hheeds⟩ := run_heeds rfl hmachine
    have hlog : before ++ e :: after = [] ++ events := hspeaks.logged
    obtain ⟨⟨hlast, hmore⟩, hsome⟩ := hheeds before e after hlog.symm hcancel
    have hfault (h : Faulted o) : ∃ f q, o.map p.finish = some (.error f, q) ∧ q.state ≠ .completed := by
      obtain ⟨f, M, rfl⟩ := h
      refine ⟨f, _, rfl, ?_⟩
      show State.ofFault f ≠ .completed
      unfold State.ofFault
      split <;> simp
    refine ⟨fun hg => ⟨(hlast hg).1, hfault (hlast hg).2⟩, fun hg => ⟨(hmore hg).1, (hmore hg).2.imp id hfault⟩, ?_⟩
    rw [run_ready hstate herror]
    show (Option.map p.finish _).isSome = true
    rw [Option.isSome_map]
    exact hsome
  · -- a program that does not run asks for nothing
    have hsilent : p.run host.logged fuel (st, []) = ((p.run host.logged fuel (st, [])).1, st, []) := by
      unfold run
      by_cases hstate : p.state = .idle
      · rw [if_neg (by simp [hstate])]
        cases herror : p.error with
        | none => exact absurd ⟨hstate, herror⟩ hready
        | some f => rfl
      · rw [if_pos hstate]
        rfl
    rw [hsilent] at hrun
    have hlog : [] = before ++ e :: after := congrArg (·.2.2) hrun
    simp at hlog

/-- A run that is cancelled with its first answer. -/
theorem run_cancelled_first :
    ∃ compiled f q n e, (sharing {} []).compile "DEBUGCLEAR\nDEBUGCLEAR" = (.ok (), compiled) ∧
      compiled.run (granting 0).logged 5 (0, []) = (some (.error f, q), n, [e]) ∧ q.state ≠ .completed := by
  have hok : ((sharing {} []).compile "DEBUGCLEAR\nDEBUGCLEAR").1.isOk = true := by decide +kernel
  have hlog : (((sharing {} []).compile "DEBUGCLEAR\nDEBUGCLEAR").2.run (granting 0).logged 5 (0, [])).2.2.map
      (fun e => (e.grants, e.answer.cancel)) = [(false, true)] := by decide +kernel
  obtain ⟨compiled, hcompile⟩ := compiled_of_isOk hok
  rw [hcompile] at hlog
  generalize hrun : compiled.run (granting 0).logged 5 (0, []) = y at hlog
  obtain ⟨ended, n, log⟩ := y
  obtain ⟨e, rest, rfl, he, hrest⟩ := List.map_eq_cons_iff.1 hlog
  obtain ⟨hgrants, hcancel⟩ := Prod.mk.inj he
  obtain ⟨hlast, f, q, rfl, hstate⟩ := (run_cancelled compiled (granting 0) 5 0 n ended [] rest e hrun hcancel).1 hgrants
  exact ⟨compiled, f, q, n, e, hcompile, by rw [hrun, hlast], hstate⟩

/-- The host has the run cancelled and grants it more time at once. Then it is asked again where an instruction is
left, and where none is left the run is completed. -/
theorem run_cancelled_late :
    (∃ compiled ended n before e after,
      (sharing { timeout := some 0 } []).compile "DEBUGCLEAR\nDEBUGCLEAR" = (.ok (), compiled) ∧
      compiled.run (granting 1).logged 5 (0, []) = (ended, n, before ++ e :: after) ∧
      e.answer.cancel = true ∧ after ≠ []) ∧
    ∃ compiled q n before e,
      (sharing { timeout := some 0 } []).compile "DEBUGCLEAR" = (.ok (), compiled) ∧
      compiled.run (granting 1).logged 5 (0, []) = (some (.ok (), q), n, before ++ [e]) ∧ e.answer.cancel = true := by
  have hok : ((sharing { timeout := some 0 } []).compile "DEBUGCLEAR\nDEBUGCLEAR").1.isOk = true := by decide +kernel
  have hlog : (((sharing { timeout := some 0 } []).compile "DEBUGCLEAR\nDEBUGCLEAR").2.run (granting 1).logged 5
      (0, [])).2.2.map (·.answer.cancel) = [false, true, false] := by decide +kernel
  have hok' : ((sharing { timeout := some 0 } []).compile "DEBUGCLEAR").1.isOk = true := by decide +kernel
  have hlog' : (((sharing { timeout := some 0 } []).compile "DEBUGCLEAR").2.run (granting 1).logged 5
      (0, [])).2.2.map (·.answer.cancel) = [false, true] := by decide +kernel
  have hend' : (((sharing { timeout := some 0 } []).compile "DEBUGCLEAR").2.run (granting 1).logged 5
      (0, [])).1.map (·.1.isOk) = some true := by decide +kernel
  constructor
  · obtain ⟨compiled, hcompile⟩ := compiled_of_isOk hok
    rw [hcompile] at hlog
    generalize hrun : compiled.run (granting 1).logged 5 (0, []) = y at hlog
    obtain ⟨ended, n, log⟩ := y
    obtain ⟨e₀, log, rfl, _, hlog⟩ := List.map_eq_cons_iff.1 hlog
    obtain ⟨e, after, rfl, hcancel, hafter⟩ := List.map_eq_cons_iff.1 hlog
    refine ⟨compiled, ended, n, [e₀], e, after, hcompile, hrun, hcancel, ?_⟩
    rintro rfl
    cases hafter
  · obtain ⟨compiled, hcompile⟩ := compiled_of_isOk hok'
    rw [hcompile] at hlog' hend'
    obtain ⟨q, ⟨n, log⟩, hrun⟩ := completed_of_isOk hend'
    rw [hrun] at hlog'
    obtain ⟨e₀, log, rfl, _, hlog⟩ := List.map_eq_cons_iff.1 hlog'
    obtain ⟨e, after, rfl, hcancel, hafter⟩ := List.map_eq_cons_iff.1 hlog
    obtain rfl := List.map_eq_nil_iff.1 hafter
    exact ⟨compiled, q, n, [e₀], e, hcompile, hrun, hcancel⟩

end Program

end MacroBasic
