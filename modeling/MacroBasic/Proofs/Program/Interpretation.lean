/-
Compiled scripts without routines do what the interpreter does: every run that is not stopped from outside or
by a full stack makes the same requests and gets the same replies as the interpreter, and it ends in the same
way with the same bindings.
-/
import MacroBasic.Proofs.Evaluation.StatementCode
import MacroBasic.Proofs.Machine.Frames
import MacroBasic.Proofs.Program.Compiled

namespace MacroBasic

namespace Machine

/-- The scopes that a run ends with, and the fault if it ends with one. -/
def conclusion : Outcome → Except (Fault × Scopes) Scopes
  | .ok _ M => .ok M.scopes
  | .error f M => .error (f, M.scopes)

/-- A run was cancelled, ran out of time, or was stopped when it put one value too many on a stack. -/
def Interrupted (o : Outcome) : Prop :=
  ∃ f s, conclusion o = .error (f, s) ∧ (f.code = .cancelled ∨ f.code = .timedOut ∨
    s.Full ∧ ∃ p, f = (Fault.because .internal "STACK OVERFLOW").orPlace p)

/-- A run ended as the interpreter did: at the end of the script with the same scopes, or with a fault of the
same code while names stood for the same values. -/
def Agrees : Except (Fault × Scopes) Scopes → Except (FaultCode × Scopes) Ending → Prop
  | .ok s, .ok (.done s') => s = s'
  | .error (f, s), .error (code, s') => f.code = code ∧ s.bindings = s'.bindings
  | _, _ => False

/-- Where a run comes to the end of the script the interpreter does so as well. -/
theorem done_of_agrees {s : Scopes} {r : Except (FaultCode × Scopes) Ending} (h : Agrees (.ok s) r) :
    r = .ok (.done s) := by
  cases r with
  | error e => cases h
  | ok e =>
    cases e with
    | done s' =>
      cases h
      rfl
    | exit => cases h
    | unfinished => cases h

end Machine

open Machine

theorem codeAt_instructionsOf (l : List Line) : CodeAt l.toArray 0 (instructionsOf l) := by
  intro i x hx
  unfold instructionsOf at hx
  rw [List.getElem?_map] at hx
  simpa using hx

/-! ## Runs and the interpreter -/

section Interpretation

variable {ui : Bool} {body : Block} {R : Rules} {S : Scopes}

/-- What the lines of a script lead to when the interpreter comes to an end. -/
theorem Block.ends_of_interpret (hnone : ∀ r, ¬ R.routine r) (hobeys : body.Obeys R [] false)
    (hfree : body.routines 0 = []) {n : Nat} {t : List Exchange} {r : Except (FaultCode × Scopes) Ending}
    (hr : (body.interpret ui n S).Yields t r) :
    (∃ t₁ t₂, t = t₁ ++ t₂ ∧ Overflows ui (body.lines 0).toArray ⟨0, S⟩ t₁) ∨
    (r = .ok .unfinished ∧ ∃ m c, n ≤ m ∧ Path ui (body.lines 0).toArray m ⟨0, S⟩ t c) ∨
    ∃ o, Ends ui (body.lines 0).toArray ⟨0, S⟩ t o ∧ Agrees o r := by
  have hdoes : Does ui (body.lines 0).toArray (body.interpret ui n S) ⟨0, S.pushAll (held [])⟩
      (goalAt (0 + body.size) [] n) := body.lines_do hnone hobeys hfree (codeAt_instructionsOf (body.lines 0))
  rcases hdoes t r hr with hattains | ⟨_, hover⟩
  · rcases r with ⟨code, s⟩ | e
    · obtain ⟨f, s', hends, hcode, hb⟩ := hattains
      exact .inr (.inr ⟨.error (f, s'), hends, hcode, hb⟩)
    · cases e with
      | done s =>
        obtain ⟨m, path⟩ := hattains
        have hstop : Stops ui (body.lines 0).toArray ⟨0 + body.size, s⟩ [] (.ok s) := .halt (by simp)
        exact .inr (.inr ⟨.ok s, ⟨m, t, [], _, (List.append_nil t).symm, path, hstop⟩, rfl⟩)
      | exit kind s =>
        -- no loop is around the script
        cases hattains
      | unfinished =>
        obtain ⟨m, c, hm, path⟩ := hattains
        exact .inr (.inl ⟨rfl, m, c, hm, path⟩)
  · exact .inl hover

/-- A run that ends is stopped by a full stack, or it ends as the interpreter does whenever the interpreter is
not cut off before as many passes as the run has instructions. -/
theorem Block.interpret_of_ends (hnone : ∀ r, ¬ R.routine r) (hobeys : body.Obeys R [] false)
    (hfree : body.routines 0 = []) {t : List Exchange} {o : Except (Fault × Scopes) Scopes}
    (hends : Ends ui (body.lines 0).toArray ⟨0, S⟩ t o) :
    (∃ s : Scopes, s.Full ∧ o = .error (s.overflow, s)) ∨
    ∃ n₀, ∀ n, n₀ ≤ n → ∃ r, (body.interpret ui n S).Yields t r ∧ Agrees o r := by
  by_cases hover : ∃ s : Scopes, s.Full ∧ o = .error (s.overflow, s)
  · exact .inl hover
  · obtain ⟨n₀, t₁, t₂, c, ht, path, hstop⟩ := hends
    have hends : Ends ui (body.lines 0).toArray ⟨0, S⟩ t o := ⟨n₀, t₁, t₂, c, ht, path, hstop⟩
    refine .inr ⟨n₀ + 1, fun n hn => ?_⟩
    -- let the interpreter talk to a host that replies as in the run
    obtain ⟨ω, hω⟩ := Talk.exists_follows [] (fun _ => t) fun _ _ _ => List.prefix_refl t
    have hω : Talk.Follows ω [] t := hω 0
    obtain ⟨t', r, hr, hω'⟩ := Talk.exists_yields ω [] (body.interpret ui n S)
    rcases Block.ends_of_interpret hnone hobeys hfree hr with
      ⟨u₁, u₂, rfl, s, hs, hends'⟩ | ⟨rfl, m, c', hm, path'⟩ | ⟨o', hends', hagree⟩
    · obtain ⟨_, rfl⟩ := hends.unique hends' hω (Talk.follows_append.1 hω').1
      exact absurd ⟨s, hs, rfl⟩ hover
    · rw [ht] at hω
      have := path.le_of_stops hstop hω path' hω'
      omega
    · obtain ⟨rfl, rfl⟩ := hends.unique hends' hω hω'
      exact ⟨r, hr, hagree⟩

/-- What a run that comes to an end has to do with the interpreter. -/
theorem Block.interpret_of_recounts (hnone : ∀ r, ¬ R.routine r) (hobeys : body.Obeys R [] false)
    (hfree : body.routines 0 = []) {fuel : Nat} {t : List Exchange} {o : Outcome} (husual : (leaves o).scopes.Usual)
    (h : Recounts ui (body.lines 0).toArray fuel ⟨0, S⟩ t (some o)) :
    Interrupted o ∨ ∃ n₀, ∀ n, n₀ ≤ n → ∃ r, (body.interpret ui n S).Yields t r ∧ Agrees (conclusion o) r := by
  cases o with
  | ok _ M =>
    rcases Block.interpret_of_ends hnone hobeys hfree h with ⟨s, _, hover⟩ | hagree
    · cases hover
    · exact .inr hagree
  | error f M =>
    rcases h with hf | hf | ⟨f', p, rfl, hends⟩
    · exact .inl ⟨f, M.scopes, rfl, .inl hf⟩
    · exact .inl ⟨f, M.scopes, rfl, .inr (.inl hf)⟩
    · rcases Block.interpret_of_ends hnone hobeys hfree hends with ⟨s, hs, hover⟩ | ⟨n₀, hagree⟩
      · cases hover
        have hreport : M.scopes.overflow = .because .internal "STACK OVERFLOW" :=
          congrArg (Fault.because .internal) (husual _ (List.mem_cons_self ..))
        exact .inl ⟨_, M.scopes, rfl, .inr (.inr ⟨hs, p, by rw [hreport]⟩)⟩
      · refine .inr ⟨n₀, fun n hn => ?_⟩
        obtain ⟨r, hr, hsame⟩ := hagree n hn
        refine ⟨r, hr, ?_⟩
        cases r with
        | ok e => cases hsame
        | error e => exact ⟨(f'.code_orPlace p).trans hsame.1, hsame.2⟩

/-- The interpreter says what a run has said so far when it is not cut off before as many passes as the run has
made instructions. -/
theorem Block.interpret_of_path (hnone : ∀ r, ¬ R.routine r) (hobeys : body.Obeys R [] false)
    (hfree : body.routines 0 = []) {k : Nat} {t : List Exchange} {c : Config}
    (path : Path ui (body.lines 0).toArray k ⟨0, S⟩ t c) {n : Nat} (hn : k ≤ n) :
    ∃ rest r, (body.interpret ui n S).Yields (t ++ rest) r := by
  obtain ⟨ω, hω⟩ := Talk.exists_follows [] (fun _ => t) fun _ _ _ => List.prefix_refl t
  have hω : Talk.Follows ω [] t := hω 0
  obtain ⟨t', r, hr, hω'⟩ := Talk.exists_yields ω [] (body.interpret ui n S)
  suffices ∃ rest, t' = t ++ rest by
    obtain ⟨rest, rfl⟩ := this
    exact ⟨rest, r, hr⟩
  rcases Block.ends_of_interpret hnone hobeys hfree hr with
    ⟨u₁, u₂, rfl, s, hs, hends'⟩ | ⟨rfl, m, c', hm, path'⟩ | ⟨o', hends', _⟩
  · obtain ⟨rest, rfl⟩ := hends'.extends path hω (Talk.follows_append.1 hω').1
    exact ⟨rest ++ u₂, List.append_assoc ..⟩
  · obtain ⟨rest, rfl, _⟩ := path.extends path' (Nat.le_trans hn hm) hω hω'
    exact ⟨rest, rfl⟩
  · exact hends'.extends path hω hω'

/-- Along a run without end the interpreter is cut off wherever it is, having said what the run says. -/
theorem Block.interpret_of_endless (hnone : ∀ r, ¬ R.routine r) (hobeys : body.Obeys R [] false)
    (hfree : body.routines 0 = []) {t : Nat → List Exchange} (ht : ∀ m n, m ≤ n → t m <+: t n)
    (endless : ∀ k, ∃ c, Path ui (body.lines 0).toArray k ⟨0, S⟩ (t k) c) (n : Nat) :
    ∃ k, (body.interpret ui n S).Yields (t k) (.ok .unfinished) := by
  obtain ⟨ω, hω⟩ := Talk.exists_follows [] t ht
  obtain ⟨t', r, hr, hω'⟩ := Talk.exists_yields ω [] (body.interpret ui n S)
  have never : ∀ {u o}, Ends ui (body.lines 0).toArray ⟨0, S⟩ u o → Talk.Follows ω [] u → False := by
    intro u o hends hu
    refine hends.not_endless hu fun k => ?_
    obtain ⟨c, path⟩ := endless k
    exact ⟨t k, c, path, hω k⟩
  rcases Block.ends_of_interpret hnone hobeys hfree hr with
    ⟨u₁, u₂, rfl, s, hs, hends'⟩ | ⟨rfl, m, c', hm, path'⟩ | ⟨o', hends', _⟩
  · exact (never hends' (Talk.follows_append.1 hω').1).elim
  · obtain ⟨c, path⟩ := endless m
    obtain ⟨rest, rfl, hrest⟩ := path.extends path' (Nat.le_refl m) (hω m) hω'
    rw [Nat.sub_self] at hrest
    cases hrest
    rw [List.append_nil] at hr
    exact ⟨m, hr⟩
  · exact (never hends' hω').elim

end Interpretation

/-! ## Programs -/

namespace Program

/-- A full stack is reported in the usual words when a run begins. -/
theorem usual_sharing (options : Options) (bindings : List (String × Value × Kind)) :
    (Scopes.onBottom (sharing options bindings).external).Usual := by
  rintro f (_ | ⟨_, _ | ⟨_, ⟨⟩⟩⟩)
  · rfl
  · rw [stack_sharing]
    rfl

section Runs

variable (options : Options) (external : Scope) (body : Block) {σ : Type} (host : Host (StateM σ))

/-- Every run of a compiled program is one of the machine, which goes along a path from the first instruction. -/
theorem run_recounted {fuel : Nat} {st st' : σ} {log : List Exchange} {ended : Option (Except Fault Unit × Program)}
    (h : (ofScript options external body).run host.recorded fuel (st, []) = (ended, st', log)) :
    ∃ o, Machine.run host.recorded options (body.lines 0).toArray fuel (starting external host st)
        ((host.clock st).2, []) = (o, st', log) ∧
      ended = o.map (ofScript options external body).finish ∧
      Recounts options.ui (body.lines 0).toArray fuel ⟨0, .onBottom external⟩ (conversation log) o := by
  obtain ⟨o, hmachine, hended⟩ := machine_of_run rfl rfl h
  obtain ⟨t, rfl, hrecounts⟩ := run_recorded host options _ fuel _ _ _ _ _ o hmachine
  exact ⟨o, hmachine, hended, hrecounts⟩

end Runs

/-- A source that is parsed to a script without routines is compiled to a program whose runs are those of the
interpreter, whatever the settings, the shared bindings and the host.

When a run comes to an end, the machine of the program has come to one. It was cancelled, ran out of time or was
stopped with a stack that is full then; or else the interpreter has had the same conversation with the host, unless it
is cut off too early, and both have ended at the end of the script with the same scopes, or with a fault of the same
code and the same bindings. What a run has said before it comes to an end the interpreter has said as well, and along a
run that never ends the interpreter does not end either. -/
theorem run_interprets (options : Options) (bindings : List (String × Value × Kind)) (source : String)
    (body : Block) (hscript : Grammar.script (.ofString source) options.explicit options.external
      (sharing options bindings).external = .ok body) (hfree : body.routines 0 = []) {σ : Type}
    (host : Host (StateM σ)) (st : σ) :
    let program := ((sharing options bindings).compile source).2
    let run (fuel : Nat) := program.run host.recorded fuel (st, [])
    let machine (fuel : Nat) := Machine.run host.recorded program.options program.lines fuel
      (starting program.external host st) ((host.clock st).2, [])
    let interpret (n : Nat) := body.interpret options.ui n (.onBottom (sharing options bindings).external)
    (∀ fuel result after st' log, run fuel = (some (result, after), st', log) →
      ∃ o, machine fuel = (some o, st', log) ∧ (result, after) = program.finish o ∧ (Interrupted o ∨
        ∃ n₀, ∀ n, n₀ ≤ n → ∃ r, (interpret n).Yields (conversation log) r ∧ Agrees (conclusion o) r)) ∧
    (∀ fuel st' log, run fuel = (none, st', log) →
      ∀ n, fuel ≤ n → ∃ rest r, (interpret n).Yields (conversation log ++ rest) r) ∧
    ((∀ fuel, (run fuel).1 = none) →
      ∀ n, ∃ fuel, (interpret n).Yields (conversation (run fuel).2.2) (.ok .unfinished)) := by
  have hobeys := obeys_of_script hscript
  have hnone : ∀ r, ¬ (⟨(· ≠ returnName), (· ∈ body.routines 0)⟩ : Rules).routine r := by
    intro r hr
    change r ∈ body.routines 0 at hr
    rw [hfree] at hr
    cases hr
  rw [compile_of_script hscript]
  intro program run machine interpret
  -- a run that ends, one that is cut off, and one that never ends
  refine ⟨?_, ?_, ?_⟩
  · intro fuel result after st' log hrun
    obtain ⟨o, hmachine, ho, hrecounts⟩ := run_recounted options _ body host hrun
    obtain ⟨o, rfl, hfinish⟩ := Option.map_eq_some_iff.1 ho.symm
    have husual : (leaves o).scopes.Usual := (visits_of_run hmachine).usual (usual_sharing options bindings)
    exact ⟨o, hmachine, hfinish.symm, Block.interpret_of_recounts hnone hobeys hfree husual hrecounts⟩
  · intro fuel st' log hrun n hn
    obtain ⟨o, _, ho, hrecounts⟩ := run_recounted options _ body host hrun
    cases Option.map_eq_none_iff.1 ho.symm
    obtain ⟨c, path⟩ := hrecounts
    exact Block.interpret_of_path hnone hobeys hfree path hn
  · intro hnever n
    refine Block.interpret_of_endless (t := fun fuel => conversation (run fuel).2.2) hnone hobeys hfree ?_ ?_ n
    · intro m n hmn
      have hm : (Machine.run host.recorded options (body.lines 0).toArray m (starting _ host st)
          ((host.clock st).2, [])).1 = none := Option.map_eq_none_iff.1 (hnever m)
      exact (run_log_grows host options _ hmn _ _ _ hm).filter _
    · intro fuel
      have hrun : run fuel = (none, (run fuel).2) := Prod.ext (hnever fuel) rfl
      obtain ⟨o, _, ho, hrecounts⟩ := run_recounted options _ body host hrun
      cases Option.map_eq_none_iff.1 ho.symm
      exact hrecounts

theorem eq_of_request_yield {log : List Exchange} (h : (log.map Exchange.request == [.notify .yield]) = true) :
    log = [⟨.notify .yield, ()⟩] := by
  cases log with
  | nil => cases h
  | cons x rest =>
    obtain ⟨r, reply⟩ := x
    obtain ⟨hr, hrest⟩ := Bool.and_eq_true_iff.1 h
    cases rest with
    | cons y rest => cases hrest
    | nil =>
      cases r with
      | notify n =>
        cases n with
        | yield => rfl
        | clear | reveal | hide => cases hr
      | print | message | msgBox | inputBox | assign | retrieve | timeout => cases hr

/-- A loop that is left after it has looked for events once. -/
theorem run_interprets_polling :
    let source := "DO\nDOEVENTS\nEXIT DO\nLOOP"
    let host : Host (StateM Unit) := .indifferent (pure 0)
    let log : List Exchange := [⟨.notify .yield, ()⟩]
    let program := ((sharing {} []).compile source).2
    ∃ body after M, Grammar.script (.ofString source) true true .empty = .ok body ∧ body.routines 0 = [] ∧
      program.run host.recorded 20 ((), []) = (some (.ok (), after), (), log) ∧
      Machine.run host.recorded program.options program.lines 20 (starting program.external host ()) ((), []) =
        (some (.ok () M), (), log) ∧
      ∃ n, (body.interpret false n (.onBottom .empty)).Yields log (.ok (.done M.scopes)) := by
  intro source host log program
  have hparsed : (Grammar.script (.ofString source) true true .empty).toOption.any
      (fun body => (body.routines 0).isEmpty) = true := by decide +kernel
  have hran : (program.run host.recorded 20 ((), [])).1.map (·.1.isOk) = some true := by decide +kernel
  have hsaid : ((program.run host.recorded 20 ((), [])).2.2.map Exchange.request == [.notify .yield]) = true := by
    decide +kernel
  cases hscript : Grammar.script (.ofString source) true true .empty with
  | error f => rw [hscript] at hparsed; cases hparsed
  | ok body =>
    rw [hscript] at hparsed
    have hfree : body.routines 0 = [] := List.isEmpty_iff.1 hparsed
    obtain ⟨after, ⟨_, said⟩, hrun⟩ := completed_of_isOk hran
    rw [hrun] at hsaid
    cases eq_of_request_yield hsaid
    obtain ⟨o, hmachine, hfinish, hends⟩ := (run_interprets {} [] source body hscript hfree host ()).1 _ _ _ _ _ hrun
    cases o with
    | error f M => cases hfinish
    | ok _ M =>
      rcases hends with ⟨f, s, h, _⟩ | ⟨n, hends⟩
      · cases h
      · obtain ⟨r, hr, hagree⟩ := hends n (Nat.le_refl n)
        obtain rfl := done_of_agrees hagree
        exact ⟨body, after, M, rfl, hfree, hrun, hmachine, n, hr⟩

end Program

end MacroBasic
