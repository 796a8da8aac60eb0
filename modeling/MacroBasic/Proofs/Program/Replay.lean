/-
Running again. A run leaves nothing behind but the values of shared bindings: a copy of the program with these
values as they were before does the same again, request by request, with a host that answers in the same way. The
clock may go as it likes as long as it makes no difference: there is no time limit, or the time is always over.
-/
import MacroBasic.Proofs.Machine.Frames
import MacroBasic.Proofs.Program.Sharing

namespace MacroBasic

/-! ## Hosts with a clock of their own -/

/-- The host that answers in one way and tells the time in another. -/
def Host.timed {σ τ : Type} (ask : Answering σ) (clock : StateM τ Nat) : Host (StateM (σ × τ)) where
  ask r := fun s => ((ask r s.1).1, (ask r s.1).2, s.2)
  clock := fun s => ((clock s.2).1, s.1, (clock s.2).2)

/-- Whenever a clock is read, so many milliseconds are over since it was read before. -/
def Expires {τ : Type} (ms : Nat) (clock : StateM τ Nat) : Prop :=
  ∀ t, ms * 1000000 ≤ (clock (clock t).2).1 - (clock t).1

namespace Machine

/-- The time of a run is over when the clock is read next, if it has a limit. -/
def Due {τ : Type} (timeout : Option Nat) (clock : StateM τ Nat) (M : Machine) (t : τ) : Prop :=
  ∀ ms, timeout = some ms → ms * 1000000 ≤ (clock t).1 - M.started

/-! ## Machines that differ in when they were started -/

/-- The same state but for when the time began to count. -/
def Restarted (M M' : Machine) : Prop := M' = { M with started := M'.started }

/-- The same outcome, with states that differ in when they were started. -/
inductive SameEnd : Outcome → Outcome → Prop
  | ok {M M' : Machine} (h : M.Restarted M') : SameEnd (.ok () M) (.ok () M')
  | error {f : Fault} {M M' : Machine} (h : M.Restarted M') : SameEnd (.error f M) (.error f M')

theorem Restarted.heed {M M' : Machine} (h : M.Restarted M') {r : Request} (answer : Answer r) :
    (M.heed answer).Restarted (M'.heed answer) := by
  unfold Restarted at h ⊢
  rw [h]
  rfl

section Turns

variable {σ τ τ' : Type} {clock : StateM τ Nat} {clock' : StateM τ' Nat} {options : Options} {lines : Array Line}
  {M M' : Machine}

theorem execute_restarted (h : M.Restarted M') (ask : Answering σ) (ui : Bool) (i : Instruction) (st : σ) (t : τ)
    (t' : τ') :
    ∃ o o' st₁, execute (.timed ask clock) ui i M (st, t) = (o, st₁, t) ∧
      execute (.timed ask clock') ui i M' (st, t') = (o', st₁, t') ∧ SameEnd o o' ∧
      (leaves o).started = M.started ∧ (leaves o').started = M'.started := by
  unfold Restarted at h
  generalize M'.started = later at h
  subst h
  unfold execute
  cases step ui M.pc i M.scopes with
  | error f s => exact ⟨_, _, st, rfl, rfl, .error rfl, rfl, rfl⟩
  | ok next s =>
    cases next with
    | goto a => exact ⟨_, _, st, rfl, rfl, .ok rfl, rfl, rfl⟩
    | ask r resume =>
      refine ⟨(M.heed (ask r st).1).settle (resume (ask r st).1.reply s),
        (heed { M with started := later } (ask r st).1).settle (resume (ask r st).1.reply s), (ask r st).2, rfl, rfl, ?_⟩
      cases resume (ask r st).1.reply s with
      | ok a s' => exact ⟨.ok rfl, rfl, rfl⟩
      | error f s' => exact ⟨.error rfl, rfl, rfl⟩

/-- Where the time is over whenever it has a limit, it makes no difference when it began to count. -/
theorem checkTime_restarted {timeout : Option Nat} (hclock : ∀ ms, timeout = some ms → Expires ms clock)
    (hclock' : ∀ ms, timeout = some ms → Expires ms clock') (h : M.Restarted M') {t : τ} (hdue : Due timeout clock M t)
    {t' : τ'} (hdue' : Due timeout clock' M' t') (ask : Answering σ) (p : Position) (st : σ) :
    ∃ o o' st₁ t₁ t₁', checkTime (.timed ask clock) timeout p M (st, t) = (o, st₁, t₁) ∧
      checkTime (.timed ask clock') timeout p M' (st, t') = (o', st₁, t₁') ∧ SameEnd o o' ∧
      ∀ N N', o = .ok () N → o' = .ok () N' → Due timeout clock N t₁ ∧ Due timeout clock' N' t₁' := by
  cases timeout with
  | none =>
    refine ⟨.ok () M, .ok () M', st, t, t', rfl, rfl, .ok h, fun N N' _ _ => ⟨?_, ?_⟩⟩
    · intro ms hms
      cases hms
    · intro ms hms
      cases hms
  | some ms =>
    have hover : ¬ (clock t).1 - M.started < ms * 1000000 := Nat.not_lt.2 (hdue ms rfl)
    have hover' : ¬ (clock' t').1 - M'.started < ms * 1000000 := Nat.not_lt.2 (hdue' ms rfl)
    by_cases hgrant : (ask .timeout st).1.reply = true
    · refine ⟨_, _, _, _, _, checkTime_granted hover p hgrant, checkTime_granted hover' p hgrant, .ok ?_, ?_⟩
      · rw [h]
        rfl
      · rintro N N' ⟨⟩ ⟨⟩
        constructor
        · rintro _ ⟨⟩
          exact hclock ms rfl _
        · rintro _ ⟨⟩
          exact hclock' ms rfl _
    · refine ⟨_, _, _, _, _, checkTime_refused hover p hgrant, checkTime_refused hover' p hgrant,
        .error (h.heed _), ?_⟩
      rintro N N' ⟨⟩

/-- One turn from two such states, where the time is over whenever it has a limit. -/
theorem turn_restarted (hclock : ∀ ms, options.timeout = some ms → Expires ms clock)
    (hclock' : ∀ ms, options.timeout = some ms → Expires ms clock') (h : M.Restarted M') {t : τ}
    (hdue : Due options.timeout clock M t) {t' : τ'} (hdue' : Due options.timeout clock' M' t') (ask : Answering σ)
    (line : Line) (st : σ) :
    ∃ o o' st₁ t₁ t₁', turn (.timed ask clock) options line M (st, t) = (o, st₁, t₁) ∧
      turn (.timed ask clock') options line M' (st, t') = (o', st₁, t₁') ∧ SameEnd o o' ∧
      ∀ N N', o = .ok () N → o' = .ok () N' → Due options.timeout clock N t₁ ∧ Due options.timeout clock' N' t₁' := by
  obtain ⟨o, o', st₁, ho, ho', hsame, hstarted, hstarted'⟩ :=
    execute_restarted h ask options.ui line.instruction st t t'
  unfold turn
  rw [stateM_bind, stateM_bind, ho, ho']
  cases hsame with
  | error hrestarted =>
    refine ⟨_, _, st₁, t, t', rfl, rfl, .error hrestarted, ?_⟩
    rintro N N' ⟨⟩
  | @ok N N' hrestarted =>
    simp only [leaves] at hstarted hstarted'
    have hcancelled : N'.cancelled = N.cancelled := by rw [hrestarted]
    simp only
    rw [hcancelled]
    by_cases hc : N.cancelled = true
    · rw [if_pos hc, if_pos hc]
      refine ⟨_, _, st₁, t, t', rfl, rfl, .error hrestarted, ?_⟩
      rintro N N' ⟨⟩
    · rw [if_neg hc, if_neg hc]
      refine checkTime_restarted hclock hclock' hrestarted ?_ ?_ ask line.position st₁
      · unfold Due
        rw [hstarted]
        exact hdue
      · unfold Due
        rw [hstarted']
        exact hdue'

theorem run_restarted (hclock : ∀ ms, options.timeout = some ms → Expires ms clock)
    (hclock' : ∀ ms, options.timeout = some ms → Expires ms clock') {fuel : Nat} (h : M.Restarted M') {t : τ}
    (hdue : Due options.timeout clock M t) {t' : τ'} (hdue' : Due options.timeout clock' M' t') {ask : Answering σ}
    {o : Outcome} {st st₁ : σ} {t₁ : τ}
    (hrun : run (.timed ask clock) options lines fuel M (st, t) = (some o, st₁, t₁)) :
    ∃ o' t₁', run (.timed ask clock') options lines fuel M' (st, t') = (some o', st₁, t₁') ∧ SameEnd o o' := by
  induction fuel generalizing M M' st t t' with
  | zero => cases hrun
  | succ fuel ih =>
    have hpc : M'.pc = M.pc := by rw [h]
    unfold run at hrun ⊢
    rw [hpc]
    cases hline : lines[M.pc]? with
    | none =>
      rw [hline] at hrun
      cases hrun
      exact ⟨_, _, rfl, .ok h⟩
    | some line =>
      rw [hline] at hrun
      simp only at hrun ⊢
      obtain ⟨o₁, o₁', st₂, t₂, t₂', hturn, hturn', hsame, hnext⟩ := 
        turn_restarted hclock hclock' h hdue hdue' ask line st
      rw [stateM_bind, hturn] at hrun
      rw [stateM_bind, hturn']
      cases hsame with
      | error hrestarted =>
        cases hrun
        exact ⟨_, _, rfl, .error hrestarted⟩
      | ok hrestarted =>
        obtain ⟨hdue, hdue'⟩ := hnext _ _ rfl rfl
        exact ih hrestarted hdue hdue' hrun

end Turns

end Machine

namespace Program

open Machine

/-! ## Copies with the values of before -/

/-- Shared bindings have different names. -/
theorem nodup_sharing (options : Options) (bindings : List (String × Value × Kind)) :
    ((sharing options bindings).external.names.map Binding.name).Nodup := by
  have all (p : Program) (hp : (p.external.names.map Binding.name).Nodup) :
      ((bindings.foldl (fun p b => p.importAdd b.1 b.2.1 b.2.2) p).external.names.map Binding.name).Nodup := by
    induction bindings generalizing p with
    | nil => exact hp
    | cons x bindings ih => exact ih (p.importAdd x.1 x.2.1 x.2.2) (Scope.nodup_put hp)
  exact all (new options) List.nodup_nil

/-- A binding that has its value if its name is among the given ones. -/
def valued (names : List String) (b : Binding) : Binding :=
  if b.name ∈ names then b else { b with value := .uninitialized }

@[simp] theorem name_valued (names : List String) (b : Binding) : (valued names b).name = b.name := by
  unfold valued
  split <;> rfl

theorem valued_value (names : List String) (b : Binding) :
    ⟨b.name, (valued names b).kind, b.value, (valued names b).address, (valued names b).parameters⟩ = b := by
  unfold valued
  split <;> rfl

theorem valued_of_mem {names : List String} {b : Binding} (h : b.name ∈ names) : valued names b = b := if_pos h

theorem valued_cons_of_ne {names : List String} {b : Binding} {name : String} (h : b.name ≠ name) :
    valued (name :: names) b = valued names b := by
  unfold valued
  simp only [List.mem_cons, h, false_or]

/-- Giving one more binding its value back, where the names are different. -/
theorem replace?_valued {names : List String} {b : Binding} : ∀ {l : List Binding}, (l.map Binding.name).Nodup →
    b ∈ l → Scope.replace? b.name b.value (l.map (valued names)) = some (l.map (valued (b.name :: names)))
  | [], _, hb => by cases hb
  | first :: rest, hnodup, hb => by
    obtain ⟨hfirst, hrest⟩ := List.nodup_cons.1 hnodup
    rw [List.map_cons, List.map_cons, Scope.replace?, name_valued]
    rcases List.mem_cons.1 hb with rfl | hb
    · have hothers : rest.map (valued (b.name :: names)) = rest.map (valued names) := by
        refine List.map_congr_left fun x hx => valued_cons_of_ne ?_
        exact fun h => hfirst (List.mem_map.2 ⟨x, hx, h⟩)
      rw [if_pos rfl, valued_value, valued_of_mem List.mem_cons_self, hothers]
    · have hne : first.name ≠ b.name := fun h => hfirst (List.mem_map.2 ⟨b, hb, h.symm⟩)
      rw [if_neg hne, replace?_valued hrest hb, valued_cons_of_ne hne]
      rfl

/-- A program of whose shared bindings only those with the given names have their values. -/
def withValues (names : List String) (p : Program) : Program :=
  { p with external := { p.external with names := p.external.names.map (valued names) } }

theorem importSet_withValues {p : Program} (hnodup : (p.external.names.map Binding.name).Nodup) {b : Binding}
    (hb : b ∈ p.external.names) (names : List String) :
    (p.withValues names).importSet b.name b.value = p.withValues (b.name :: names) := by
  have hset : (p.withValues names).external.assign? b.name b.value = some (p.withValues (b.name :: names)).external := by
    show Option.map _ (Scope.replace? b.name b.value (p.external.names.map (valued names))) = _
    rw [replace?_valued hnodup hb]
    rfl
  unfold importSet
  rw [hset]
  rfl

/-- Giving every shared binding its value back, in any order. -/
theorem importAll_withValues {p : Program} (hnodup : (p.external.names.map Binding.name).Nodup)
    {resets : List (String × Value)} (hresets : ∀ r ∈ resets, ∃ b ∈ p.external.names, r = (b.name, b.value))
    (names : List String) : ∃ names', (p.withValues names).importAll resets = p.withValues names' ∧
      names ⊆ names' ∧ ∀ r ∈ resets, r.1 ∈ names' := by
  induction resets generalizing names with
  | nil => exact ⟨names, rfl, List.Subset.refl _, by simp⟩
  | cons r resets ih =>
    obtain ⟨⟨b, hb, rfl⟩, hmore⟩ := List.forall_mem_cons.1 hresets
    obtain ⟨names', hnames', hsub, hall⟩ := ih hmore (b.name :: names)
    refine ⟨names', ?_, List.Subset.trans (List.subset_cons_self _ _) hsub, List.forall_mem_cons.2 ⟨hsub List.mem_cons_self, hall⟩⟩
    rw [← hnames', ← importSet_withValues hnodup hb]
    rfl

/-- What is kept has the same bindings when their values are dropped. -/
theorem unbound_of_kept {given : String → Value → Prop} {f f' : Scope} (h : f.Kept given f') :
    f'.unbound.names = f.names.map (valued []) := by
  obtain ⟨_, h⟩ := h
  show f'.names.map _ = _
  generalize f.names = names, f'.names = names' at h
  induction h with
  | nil => rfl
  | cons hb _ ih =>
    rw [List.map_cons, List.map_cons, ih]
    rcases hb with rfl | ⟨_, hb', _⟩
    · rfl
    · rw [hb']
      rfl

/-- A copy of a script that has run is the script as it was, but for the values of the shared bindings. -/
theorem copy_finish {options : Options} {external : Scope} {body : Block} {o : Outcome} {result : Except Fault Unit}
    {after : Program} (hfinish : (ofScript options external body).finish o = (result, after))
    {given : String → Value → Prop} (hkept : external.Kept given after.external) (hstack : external.stack = .empty) :
    after.copy = (ofScript options external body).withValues [] := by
  have hexternal : after.external.unbound = { external with names := external.names.map (valued []) } := by
    rw [← unbound_of_kept hkept, hstack]
    rfl
  cases o with
  | ok _ M =>
    cases hfinish
    unfold copy withValues ofScript
    rw [← hexternal]
    rfl
  | error f M =>
    cases hfinish
    have hstate : ¬ State.ofFault f = .idle := by
      unfold State.ofFault
      split <;> simp
    unfold copy withValues ofScript
    rw [← hexternal]
    simp only [hstate, if_false]

/-! ## The second run -/

theorem finish_same {p : Program} {o o' : Outcome} (h : SameEnd o o') : p.finish o' = p.finish o := by
  cases h with
  | ok h =>
    rw [h]
    rfl
  | error h =>
    rw [h]
    rfl

/-- Running a program leaves nothing behind: a copy of it in which every shared binding has its value back does the
same again. Whatever the first run came to, the second one makes the same requests and gets the same answers, has the
same result, and leaves the same program with the same shared bindings. -/
theorem run_replays (options : Options) (bindings : List (String × Value × Kind)) (source : String)
    (compiled : Program) (hcompile : (sharing options bindings).compile source = (.ok (), compiled)) {σ τ τ' : Type}
    (ask : Answering σ) (clock : StateM τ Nat) (clock' : StateM τ' Nat)
    (htime : ∀ ms, options.timeout = some ms → Expires ms clock ∧ Expires ms clock') (fuel : Nat) (st st₁ : σ)
    (log : List Event) (t t₁ : τ) (result : Except Fault Unit) (after : Program)
    (hrun : compiled.run (.timed ask.logged clock) fuel ((st, []), t) = (some (result, after), (st₁, log), t₁))
    (resets : List (String × Value))
    (hresets : ∀ r, r ∈ resets ↔ ∃ b ∈ compiled.external.names, r = (b.name, b.value)) (t' : τ') :
    ∃ t₁', (after.copy.importAll resets).run (.timed ask.logged clock') fuel ((st, []), t') =
      (some (result, after), (st₁, log), t₁') := by
  obtain ⟨body, hscript, rfl⟩ := script_of_compile hcompile
  obtain ⟨o, hmachine, hfinish⟩ := outcome_of_run rfl rfl hrun
  have hkept := kept_of_script hscript rfl hmachine
  rw [hfinish] at hkept
  -- the copy is the compiled program again
  have hrestored : after.copy.importAll resets = ofScript options (sharing options bindings).external body := by
    obtain ⟨names, hnames, _, hall⟩ := importAll_withValues (p := ofScript options (sharing options bindings).external body)
      (nodup_sharing options bindings) (fun r hr => (hresets r).1 hr) []
    rw [copy_finish hfinish hkept (stack_sharing options bindings), hnames]
    have hback : (sharing options bindings).external.names.map (valued names) =
        (sharing options bindings).external.names := by
      conv_rhs => rw [← List.map_id (sharing options bindings).external.names]
      exact List.map_congr_left fun b hb => valued_of_mem (hall _ ((hresets _).2 ⟨b, hb, rfl⟩))
    simp only [withValues, ofScript, hback]
  -- and it runs as before
  have hclock := fun ms hms => (htime ms hms).1
  have hclock' := fun ms hms => (htime ms hms).2
  have hsame : (starting (sharing options bindings).external (.timed ask.logged clock) ((st, []), t)).Restarted
      (starting (sharing options bindings).external (.timed ask.logged clock') ((st, []), t')) := rfl
  have hdue : Due options.timeout clock
      (starting (sharing options bindings).external (.timed ask.logged clock) ((st, []), t)) (clock t).2 :=
    fun ms hms => hclock ms hms t
  have hdue' : Due options.timeout clock'
      (starting (sharing options bindings).external (.timed ask.logged clock') ((st, []), t')) (clock' t').2 :=
    fun ms hms => hclock' ms hms t'
  obtain ⟨o', t₁', hrun', hends⟩ := run_restarted hclock hclock' hsame hdue hdue' hmachine
  refine ⟨t₁', ?_⟩
  rw [hrestored, run_ready rfl rfl, ← hfinish, ← finish_same hends]
  exact congrArg (fun x => (x.1.map (ofScript options (sharing options bindings).external body).finish, x.2)) hrun'

/-- A run that prints a shared variable and changes it does the same again. The host grants more time whenever it is
asked for it, and that is after every instruction. -/
theorem run_replays_print :
    let bindings := [("x", .text "a", .variable)]
    let source := "DEBUGPRINT x\nx = \"b\"\nDEBUGPRINT x"
    let ask : Answering Unit := fun r => pure ⟨match r with | .timeout => true | r => r.indifferent, false⟩
    ∃ compiled after log n, (sharing { timeout := some 0 } bindings).compile source = (.ok (), compiled) ∧
      compiled.run (.timed ask.logged (pure 0)) 20 (((), []), ()) = (some (.ok (), after), ((), log), ()) ∧
      (after.copy.importAll [("x", .text "a")]).run (.timed ask.logged fun n => (n, n + 1)) 20 (((), []), 7) =
        (some (.ok (), after), ((), log), n) := by
  intro bindings source ask
  have hok : ((sharing { timeout := some 0 } bindings).compile source).1.isOk = true := by decide +kernel
  have hdone : (((sharing { timeout := some 0 } bindings).compile source).2.run (.timed ask.logged (pure 0)) 20
      (((), []), ())).1.map (·.1.isOk) = some true := by decide +kernel
  obtain ⟨compiled, hcompile⟩ := compiled_of_isOk hok
  rw [hcompile] at hdone
  obtain ⟨after, ⟨⟨_, log⟩, _⟩, hrun⟩ := completed_of_isOk hdone
  have htime : ∀ ms, some 0 = some ms → Expires ms (pure 0 : StateM Unit Nat) ∧
      Expires ms (fun n => (n, n + 1) : StateM Nat Nat) := by
    rintro _ ⟨⟩
    exact ⟨fun _ => by simp, fun _ => by simp⟩
  obtain ⟨body, _, hcompiled⟩ := script_of_compile hcompile
  obtain ⟨n, hagain⟩ := run_replays { timeout := some 0 } bindings source compiled hcompile ask (pure 0)
    (fun n => (n, n + 1)) htime 20 () () log () () (.ok ()) after hrun [("x", .text "a")]
    (by rw [hcompiled]; intro r; simp [ofScript, sharing, bindings, importAdd, Scope.allocate, new, Scope.empty, Scope.put]) 7
  exact ⟨compiled, after, log, n, hcompile, hrun, hagain⟩

end Program

end MacroBasic
