/-
Runs as paths of configurations. A path is labelled with what was said on it; the host may reply anything.
Every run of the machine, whatever its host, goes along such a path, and what it asks on the way besides
more time is what the path says.
-/
import MacroBasic.Proofs.Machine.Instruction

namespace MacroBasic

theorem Fault.code_orPlace (f : Fault) (p : Position) : (f.orPlace p).code = f.code := by
  unfold Fault.orPlace
  split <;> rfl

namespace Machine

section Paths

variable (ui : Bool) (lines : Array Line)

/-- The machine can go from one configuration to another in so many instructions, saying what the trace
says. -/
inductive Path : Nat → Config → List Exchange → Config → Prop
  | here (c : Config) : Path 0 c [] c
  | step {n : Nat} {c c' c'' : Config} {line : Line} {t t' : List Exchange} (hline : lines[c.pc]? = some line)
      (h : (advance ui line.instruction c).Yields t (.ok c')) (rest : Path n c' t' c'') :
    Path (n + 1) c (t ++ t') c''

/-- How a run can stop at a configuration, and what it says last: past the last instruction, or with a fault. -/
inductive Stops (c : Config) : List Exchange → Except (Fault × Scopes) Scopes → Prop
  | halt (h : lines[c.pc]? = none) : Stops c [] (.ok c.scopes)
  | fault {line : Line} {t : List Exchange} {e : Fault × Scopes} (hline : lines[c.pc]? = some line)
      (h : (advance ui line.instruction c).Yields t (.error e)) : Stops c t (.error e)

/-- How a run from a configuration can end, and what it says before. -/
def Ends (c : Config) (t : List Exchange) (o : Except (Fault × Scopes) Scopes) : Prop :=
  ∃ n t₁ t₂ c', t = t₁ ++ t₂ ∧ Path ui lines n c t₁ c' ∧ Stops ui lines c' t₂ o

end Paths

section Paths

variable {ui : Bool} {lines : Array Line} {c c' c'' : Config} {n m : Nat} {t t' : List Exchange}

theorem Path.trans (h : Path ui lines n c t c') (h' : Path ui lines m c' t' c'') :
    Path ui lines (n + m) c (t ++ t') c'' := by
  induction h with
  | here c => rw [Nat.zero_add]; exact h'
  | step hline hi _ ih =>
    rw [Nat.succ_add, List.append_assoc]
    exact .step hline hi (ih h')

theorem Path.one {line : Line} (hline : lines[c.pc]? = some line)
    (h : (advance ui line.instruction c).Yields t (.ok c')) : Path ui lines 1 c t c' := by
  have := Path.step hline h (.here c')
  rwa [List.append_nil] at this

theorem Ends.here {o : Except (Fault × Scopes) Scopes} (h : Stops ui lines c t o) : Ends ui lines c t o :=
  ⟨0, [], t, c, rfl, .here c, h⟩

theorem Ends.after {o : Except (Fault × Scopes) Scopes} (path : Path ui lines n c t c')
    (h : Ends ui lines c' t' o) : Ends ui lines c (t ++ t') o := by
  obtain ⟨m, t₁, t₂, c₁, rfl, path', hstop⟩ := h
  exact ⟨n + m, t ++ t₁, t₂, c₁, (List.append_assoc ..).symm, path.trans path', hstop⟩

/-- Of two paths that an oracle leads along, the longer one goes on where the shorter one ends. -/
theorem Path.extends {ω : Oracle} {past : List Exchange} (h : Path ui lines n c t c')
    (h' : Path ui lines m c t' c'') (hnm : n ≤ m) (hf : Talk.Follows ω past t) (hf' : Talk.Follows ω past t') :
    ∃ rest, t' = t ++ rest ∧ Path ui lines (m - n) c' rest c'' := by
  induction h generalizing m t' past with
  | here c => exact ⟨t', rfl, h'⟩
  | step hline hi path ih =>
    cases h' with
    | here => omega
    | step hline' hi' path' =>
      rw [hline] at hline'
      cases hline'
      obtain ⟨hf₁, hf₂⟩ := Talk.follows_append.1 hf
      obtain ⟨hf₁', hf₂'⟩ := Talk.follows_append.1 hf'
      obtain ⟨rfl, heq⟩ := hi.unique hi' hf₁ hf₁'
      cases heq
      obtain ⟨rest, rfl, hrest⟩ := ih path' (by omega) hf₂ hf₂'
      exact ⟨rest, (List.append_assoc ..).symm, by rwa [Nat.add_sub_add_right]⟩

/-- Whatever path an oracle leads along from where a run ends, it goes no further. -/
theorem Path.eq_zero {ω : Oracle} {past : List Exchange} {o : Except (Fault × Scopes) Scopes}
    (path : Path ui lines n c t c') (h : Stops ui lines c t' o) (hf : Talk.Follows ω past t)
    (hf' : Talk.Follows ω past t') : n = 0 := by
  cases path with
  | here => rfl
  | step hline hi =>
    cases h with
    | halt hnone => rw [hnone] at hline; cases hline
    | fault hline' hfail =>
      rw [hline] at hline'
      cases hline'
      obtain ⟨_, heq⟩ := hi.unique hfail (Talk.follows_append.1 hf).1 hf'
      cases heq

theorem Stops.unique {ω : Oracle} {past : List Exchange} {o o' : Except (Fault × Scopes) Scopes}
    (h : Stops ui lines c t o) (h' : Stops ui lines c t' o') (hf : Talk.Follows ω past t)
    (hf' : Talk.Follows ω past t') : t = t' ∧ o = o' := by
  cases h with
  | halt hnone =>
    cases h' with
    | halt => exact ⟨rfl, rfl⟩
    | fault hline => rw [hnone] at hline; cases hline
  | fault hline hfail =>
    cases h' with
    | halt hnone => rw [hnone] at hline; cases hline
    | fault hline' hfail' =>
      rw [hline] at hline'
      cases hline'
      obtain ⟨rfl, heq⟩ := hfail.unique hfail' hf hf'
      cases heq
      exact ⟨rfl, rfl⟩

/-- A path that an oracle leads along is no longer than a run that ends. -/
theorem Path.le_of_stops {ω : Oracle} {past : List Exchange} {o : Except (Fault × Scopes) Scopes}
    (path : Path ui lines n c t c') (h : Stops ui lines c' t' o) (hf : Talk.Follows ω past (t ++ t')) {s : List Exchange}
    (path' : Path ui lines m c s c'') (hf' : Talk.Follows ω past s) : m ≤ n := by
  rcases Nat.le_total m n with hle | hle
  · exact hle
  · obtain ⟨hft, hft'⟩ := Talk.follows_append.1 hf
    obtain ⟨rest, rfl, hrest⟩ := path.extends path' hle hft hf'
    have hzero := hrest.eq_zero h (Talk.follows_append.1 hf').2 hft'
    omega

/-- A run that ends goes on where a path ends that an oracle leads along. -/
theorem Ends.extends {ω : Oracle} {past : List Exchange} {o : Except (Fault × Scopes) Scopes}
    (h : Ends ui lines c t' o) (path : Path ui lines n c t c') (hf : Talk.Follows ω past t)
    (hf' : Talk.Follows ω past t') : ∃ rest, t' = t ++ rest := by
  obtain ⟨m, t₁, t₂, c₁, rfl, path', hstop⟩ := h
  have hle := path'.le_of_stops hstop hf' path hf
  obtain ⟨rest, rfl, _⟩ := path.extends path' hle hf (Talk.follows_append.1 hf').1
  exact ⟨rest ++ t₂, List.append_assoc ..⟩

/-- A run that ends on the way an oracle leads is not led along paths of every length. -/
theorem Ends.not_endless {ω : Oracle} {past : List Exchange} {o : Except (Fault × Scopes) Scopes}
    (h : Ends ui lines c t o) (hf : Talk.Follows ω past t)
    (endless : ∀ n, ∃ t' c', Path ui lines n c t' c' ∧ Talk.Follows ω past t') : False := by
  obtain ⟨m, t₁, t₂, c₁, rfl, path, hstop⟩ := h
  obtain ⟨t', c', path', hf'⟩ := endless (m + 1)
  have := path.le_of_stops hstop hf path' hf'
  omega

/-- An oracle leaves one way for a run to end. -/
theorem Ends.unique {ω : Oracle} {past : List Exchange} {o o' : Except (Fault × Scopes) Scopes}
    (h : Ends ui lines c t o) (h' : Ends ui lines c t' o') (hf : Talk.Follows ω past t)
    (hf' : Talk.Follows ω past t') : t = t' ∧ o = o' := by
  obtain ⟨n, t₁, t₂, c₁, rfl, path, hstop⟩ := h
  obtain ⟨m, t₁', t₂', c₁', rfl, path', hstop'⟩ := h'
  obtain ⟨hf₁, hf₂⟩ := Talk.follows_append.1 hf
  obtain ⟨hf₁', hf₂'⟩ := Talk.follows_append.1 hf'
  have hnm : n = m := Nat.le_antisymm (path'.le_of_stops hstop' hf' path hf₁) (path.le_of_stops hstop hf path' hf₁')
  subst hnm
  obtain ⟨rest, rfl, hrest⟩ := path.extends path' (Nat.le_refl n) hf₁ hf₁'
  rw [Nat.sub_self] at hrest
  cases hrest
  rw [List.append_nil] at *
  obtain ⟨rfl, rfl⟩ := hstop.unique hstop' hf₂ hf₂'
  exact ⟨rfl, rfl⟩

end Paths

/-! ## Requests of instructions -/

theorem bind_ok {α β : Type} {w : Work Scopes α} {k : α → Work Scopes β} {s s' : Scopes} {b : β}
    (h : (w >>= k) s = .ok b s') : ∃ a s₁, w s = .ok a s₁ ∧ k a s₁ = .ok b s' := by
  change EStateM.bind w k s = _ at h
  unfold EStateM.bind at h
  split at h
  · exact ⟨_, _, by assumption, h⟩
  · cases h

theorem openDialog_request {ui : Bool} {i : Instruction} {next : Address} {d : Dialog} {s s' : Scopes} {r : Request}
    {resume : r.Reply → Work Scopes Address} (h : openDialog ui i next d s = .ok (.ask r resume) s') :
    r ≠ .timeout := by
  cases d with
  | message =>
    obtain ⟨_, _, _, h⟩ := bind_ok h
    obtain ⟨_, _, _, h⟩ := bind_ok h
    obtain ⟨_, _, _, h⟩ := bind_ok h
    cases h
    nofun
  | msgBox =>
    obtain ⟨_, _, _, h⟩ := bind_ok h
    obtain ⟨_, _, _, h⟩ := bind_ok h
    obtain ⟨_, _, _, h⟩ := bind_ok h
    obtain ⟨_, _, _, h⟩ := bind_ok h
    obtain ⟨_, _, _, h⟩ := bind_ok h
    cases h
    nofun
  | inputBox =>
    obtain ⟨_, _, _, h⟩ := bind_ok h
    obtain ⟨_, _, _, h⟩ := bind_ok h
    obtain ⟨_, _, _, h⟩ := bind_ok h
    obtain ⟨_, _, _, h⟩ := bind_ok h
    cases h
    nofun

/-- The instructions never ask for more time. -/
theorem step_request {ui : Bool} {pc : Address} {i : Instruction} {s s' : Scopes} {r : Request}
    {resume : r.Reply → Work Scopes Address} (h : step ui pc i s = .ok (.ask r resume) s') : r ≠ .timeout := by
  cases i with
  | pushVariable name =>
    obtain ⟨s₁, _, hs, h⟩ := bind_ok h
    cases hs
    cases hb : s.get? name with
    | none => rw [hb] at h; cases h; nofun
    | some b =>
      rw [hb] at h
      by_cases hu : b.value.isUninitialized = true
      · simp only [hu, if_true] at h
        obtain ⟨_, _, hthrow, _⟩ := bind_ok h
        cases hthrow
      · simp only [hu] at h
        obtain ⟨_, _, _, h⟩ := bind_ok h
        cases h
  | assign name =>
    obtain ⟨v, s₁, _, h⟩ := bind_ok h
    obtain ⟨s₂, _, hs, h⟩ := bind_ok h
    cases hs
    cases hb : s₁.get? name with
    | none => rw [hb] at h; cases h; nofun
    | some b =>
      rw [hb] at h
      obtain ⟨_, _, _, h⟩ := bind_ok h
      cases h
  | dialog d => exact openDialog_request h
  | print =>
    obtain ⟨_, _, _, h⟩ := bind_ok h
    cases h
    nofun
  | notify n => cases h; nofun
  -- from here on no instruction asks for anything
  | allocConst | allocVar | jump | call => cases h
  | pushValue | pop | pushScope | popScope | jumpTrue | jumpFalse =>
    obtain ⟨_, _, _, h⟩ := bind_ok h
    cases h
  | copy =>
    obtain ⟨_, _, _, h⟩ := bind_ok h
    obtain ⟨_, _, _, h⟩ := bind_ok h
    cases h
  | binary | unary =>
    obtain ⟨_, _, _, h⟩ := bind_ok h
    obtain ⟨_, _, _, h⟩ := bind_ok h
    obtain ⟨_, _, _, h⟩ := bind_ok h
    cases h
  | jumpPop =>
    obtain ⟨v, _, _, h⟩ := bind_ok h
    cases v <;> cases h
  | ret =>
    obtain ⟨s₁, _, _, h⟩ := bind_ok h
    generalize (s₁.get? returnName).map Binding.value = found at h
    cases found with
    | none => cases h
    | some v => cases v <;> cases h

end Machine

/-! ## Hosts that are listened to -/

/-- Whether an exchange is about more time for the run. -/
def Exchange.aboutTime (x : Exchange) : Bool :=
  match x.request with
  | .timeout => true
  | _ => false

/-- What was said, but for the exchanges about time. -/
def conversation (log : List Exchange) : List Exchange := log.filter fun x => !x.aboutTime

/-- The same host, with a record of all that was said. -/
def Host.recorded {σ : Type} (host : Host (StateM σ)) : Host (StateM (σ × List Exchange)) where
  ask r := fun (st, log) =>
    let (answer, st) := host.ask r st
    (answer, st, log ++ [⟨r, answer.reply⟩])
  clock := fun (st, log) =>
    let (now, st) := host.clock st
    (now, st, log)

/-- The same action, with a record that has no part in it. -/
def Unheard {σ α : Type} (x : StateM σ α) (y : StateM (σ × List Exchange) α) : Prop :=
  ∀ st log, ∃ log', y (st, log) = ((x st).1, (x st).2, log')

theorem conversation_append (l l' : List Exchange) :
    conversation (l ++ l') = conversation l ++ conversation l' := List.filter_append l l'

theorem conversation_of_ne {t : List Exchange} (h : ∀ x ∈ t, x.request ≠ .timeout) : conversation t = t := by
  refine List.filter_eq_self.2 fun x hx => ?_
  have := h x hx
  unfold Exchange.aboutTime
  split
  · exact absurd (by assumption) this
  · rfl

namespace Machine

/-- An outcome is what a conversation of the machine comes to. -/
def Accounts (talk : Talk (Fault × Scopes) Config) (t : List Exchange) : Outcome → Prop
  | .ok _ M => talk.Yields t (.ok M.config)
  | .error f M => talk.Yields t (.error (f, M.scopes))

/-- What a run has come to with so many instructions is what a path comes to, unless the run was cancelled or
ran out of time. -/
def Recounts (ui : Bool) (lines : Array Line) (fuel : Nat) (c : Config) (t : List Exchange) : Option Outcome → Prop
  | none => ∃ c', Path ui lines fuel c t c'
  | some (.ok _ M) => Ends ui lines c t (.ok M.scopes)
  | some (.error f M) => f.code = .cancelled ∨ f.code = .timedOut ∨
    ∃ (f' : Fault) (p : Position), f = f'.orPlace p ∧ Ends ui lines c t (.error (f', M.scopes))

section Recorded

variable {σ : Type} (host : Host (StateM σ))

/-- What an instruction says and where it leads are as in its conversation. -/
theorem execute_recorded (ui : Bool) (i : Instruction) (M : Machine) (st : σ) (log : List Exchange) :
    ∃ o t st', execute host.recorded ui i M (st, log) = (o, st', log ++ t) ∧ conversation t = t ∧
      Accounts (advance ui i M.config) t o := by
  unfold execute advance
  cases hs : step ui M.pc i M.scopes with
  | error f s =>
    refine ⟨.error f { M with scopes := s }, [], st, by rw [List.append_nil]; rfl, rfl, ?_⟩
    rw [show step ui M.config.pc i M.config.scopes = _ from hs]
    exact .fail _
  | ok next s =>
    rw [show step ui M.config.pc i M.config.scopes = _ from hs]
    cases next with
    | goto a =>
      exact ⟨.ok () { M with pc := a, scopes := s }, [], st, by rw [List.append_nil]; rfl, rfl, .done _⟩
    | ask r resume =>
      let answer := (host.ask r st).1
      refine ⟨(M.heed answer).settle (resume answer.reply s), [⟨r, answer.reply⟩], (host.ask r st).2, rfl, ?_, ?_⟩
      · exact conversation_of_ne fun x hx => by rw [List.mem_singleton.1 hx]; exact step_request hs
      · cases hr : resume answer.reply s with
        | ok a s' => exact .ask (by rw [hr]; exact .done _)
        | error f s' => exact .ask (by rw [hr]; exact .fail _)

omit host in
theorem stateM_bind {α β : Type} (x : StateM σ α) (k : α → StateM σ β) (st : σ) :
    (x >>= k) st = k (x st).1 (x st).2 := rfl

/-- Looking at the time says nothing else and changes no configuration. -/
theorem checkTime_recorded (timeout : Option Nat) (p : Position) (M : Machine) (st : σ) (log : List Exchange) :
    ∃ o t st', checkTime host.recorded timeout p M (st, log) = (o, st', log ++ t) ∧ conversation t = [] ∧
      ((∃ M' : Machine, o = .ok () M' ∧ M'.config = M.config) ∨
        ∃ f M', o = .error f M' ∧ f.code = .timedOut) := by
  unfold checkTime
  cases timeout with
  | none => exact ⟨.ok () M, [], st, by rw [List.append_nil]; rfl, rfl, .inl ⟨M, rfl, rfl⟩⟩
  | some ms =>
    simp only
    rw [stateM_bind]
    by_cases hnow : (host.recorded.clock (st, log)).1 - M.started < ms * 1000000
    · rw [if_pos hnow]
      exact ⟨.ok () M, [], (host.clock st).2, by rw [List.append_nil]; rfl, rfl, .inl ⟨M, rfl, rfl⟩⟩
    · rw [if_neg hnow, stateM_bind]
      generalize hx : host.recorded.ask .timeout (host.recorded.clock (st, log)).2 = x
      obtain ⟨answer, st₂, log₂⟩ := x
      have hlog : log₂ = log ++ [⟨.timeout, answer.reply⟩] := by cases hx; rfl
      subst hlog
      have hsaid : conversation [⟨.timeout, answer.reply⟩] = [] := rfl
      by_cases hgrant : answer.reply = true
      · simp only [hgrant, if_true]
        exact ⟨_, _, (host.clock st₂).2, rfl, hsaid, .inl ⟨_, rfl, rfl⟩⟩
      · simp only [hgrant]
        exact ⟨_, _, st₂, rfl, hsaid, .inr ⟨_, _, rfl, rfl⟩⟩

/-- A turn that goes on is one instruction; one that does not ends with the fault of the instruction or
because the run was cancelled or out of time. -/
theorem turn_recorded (options : Options) (line : Line) (M : Machine) (st : σ) (log : List Exchange) :
    ∃ o t st', turn host.recorded options line M (st, log) = (o, st', log ++ t) ∧
      match o with
      | .ok _ M' => (advance options.ui line.instruction M.config).Yields (conversation t) (.ok M'.config)
      | .error f M' => f.code = .cancelled ∨ f.code = .timedOut ∨ ∃ f', f = f'.orPlace line.position ∧
        (advance options.ui line.instruction M.config).Yields (conversation t) (.error (f', M'.scopes)) := by
  unfold turn
  obtain ⟨o, t, st₁, he, ht, ha⟩ := execute_recorded host options.ui line.instruction M st log
  rw [stateM_bind, he]
  cases o with
  | error f M' => exact ⟨_, t, st₁, rfl, .inr (.inr ⟨f, rfl, by rw [ht]; exact ha⟩)⟩
  | ok _ M' =>
    simp only
    by_cases hc : M'.cancelled = true
    · rw [if_pos hc]
      exact ⟨_, t, st₁, rfl, .inl rfl⟩
    · rw [if_neg hc]
      obtain ⟨o, t', st₂, hk, ht', hend⟩ :=
        checkTime_recorded host options.timeout line.position M' st₁ (log ++ t)
      refine ⟨o, t ++ t', st₂, by rw [hk, List.append_assoc], ?_⟩
      rw [conversation_append, ht, ht', List.append_nil]
      rcases hend with ⟨M'', rfl, hM⟩ | ⟨f, M'', rfl, hf⟩
      · show Talk.Yields _ _ _
        rw [hM]
        exact ha
      · exact .inr (.inl hf)

/-- Every run goes along a path, and a run that comes to an end does so as the path does, unless it is
cancelled or runs out of time. -/
theorem run_recorded (options : Options) (lines : Array Line) (fuel : Nat) (M : Machine) (st st' : σ)
    (log log' : List Exchange) (o : Option Outcome)
    (h : run host.recorded options lines fuel M (st, log) = (o, st', log')) :
    ∃ t, log' = log ++ t ∧ Recounts options.ui lines fuel M.config (conversation t) o := by
  induction fuel generalizing M st log with
  | zero =>
    cases h
    exact ⟨[], (List.append_nil _).symm, M.config, .here _⟩
  | succ fuel ih =>
    unfold run at h
    cases hl : lines[M.pc]? with
    | none =>
      rw [hl] at h
      cases h
      exact ⟨[], (List.append_nil _).symm, .here (.halt hl)⟩
    | some line =>
      rw [hl] at h
      simp only at h
      obtain ⟨o₁, t₁, st₁, hturn, hend⟩ := turn_recorded host options line M st log
      rw [stateM_bind, hturn] at h
      cases o₁ with
      | error f M' =>
        cases h
        refine ⟨t₁, rfl, ?_⟩
        rcases hend with hf | hf | ⟨f', hf, hy⟩
        · exact .inl hf
        · exact .inr (.inl hf)
        · exact .inr (.inr ⟨f', line.position, hf, .here (.fault hl hy)⟩)
      | ok _ M' =>
        obtain ⟨t, rfl, hrest⟩ := ih M' st₁ (log ++ t₁) h
        refine ⟨t₁ ++ t, List.append_assoc .., ?_⟩
        rw [conversation_append]
        -- out of fuel, at the end of the lines, or at a fault
        rcases o with _ | (_ | ⟨f, M''⟩)
        · obtain ⟨c, path⟩ := hrest
          exact ⟨c, .step hl hend path⟩
        · exact hrest.after (.one hl hend)
        · rcases hrest with hf | hf | ⟨f', p, hf, hends⟩
          · exact .inl hf
          · exact .inr (.inl hf)
          · exact .inr (.inr ⟨f', p, hf, hends.after (.one hl hend)⟩)

/-- A run that has not come to an end can be resumed. -/
theorem run_resumed (options : Options) (lines : Array Line) (fuel : Nat) (M : Machine) (st st' : σ)
    (h : run host options lines fuel M st = (none, st')) :
    ∃ M', ∀ more, run host options lines (fuel + more) M st = run host options lines more M' st' := by
  induction fuel generalizing M st with
  | zero =>
    cases h
    exact ⟨M, fun more => by rw [Nat.zero_add]⟩
  | succ fuel ih =>
    unfold run at h
    cases hl : lines[M.pc]? with
    | none => rw [hl] at h; cases h
    | some line =>
      rw [hl] at h
      simp only at h
      rw [stateM_bind] at h
      generalize hturn : turn host options line M st = x at h
      obtain ⟨o₁, st₁⟩ := x
      cases o₁ with
      | error f M₁ => cases h
      | ok _ M₁ =>
        obtain ⟨M', hM'⟩ := ih M₁ st₁ h
        refine ⟨M', fun more => ?_⟩
        rw [← hM' more, Nat.succ_add, run, hl]
        simp only
        rw [stateM_bind, hturn]

/-- What is said in a run that has not come to an end is said with more instructions, too. -/
theorem run_log_grows (options : Options) (lines : Array Line) {m n : Nat} (hmn : m ≤ n) (M : Machine) (st : σ)
    (log : List Exchange) (h : (run host.recorded options lines m M (st, log)).1 = none) :
    (run host.recorded options lines m M (st, log)).2.2 <+: (run host.recorded options lines n M (st, log)).2.2 := by
  generalize hm : run host.recorded options lines m M (st, log) = x at h ⊢
  obtain ⟨o, st', log'⟩ := x
  simp only at h ⊢
  subst h
  obtain ⟨M', hM'⟩ := run_resumed host.recorded options lines m M (st, log) (st', log') hm
  have hn := hM' (n - m)
  rw [Nat.add_sub_cancel' hmn] at hn
  rw [hn]
  generalize hrest : run host.recorded options lines (n - m) M' (st', log') = y
  obtain ⟨o', st'', log''⟩ := y
  obtain ⟨t, rfl, _⟩ := run_recorded host options lines (n - m) M' st' st'' log' log'' o' hrest
  exact List.prefix_append log' t

/-! ## Recording changes nothing -/

omit host in
theorem unheard_pure {α : Type} (a : α) : Unheard (pure a : StateM σ α) (pure a) := fun _ log => ⟨log, rfl⟩

omit host in
theorem unheard_bind {α β : Type} {x : StateM σ α} {y : StateM (σ × List Exchange) α} {k : α → StateM σ β}
    {l : α → StateM (σ × List Exchange) β} (h : Unheard x y) (hk : ∀ a, Unheard (k a) (l a)) :
    Unheard (x >>= k) (y >>= l) := by
  intro st log
  obtain ⟨log', hy⟩ := h st log
  obtain ⟨log'', hl⟩ := hk (x st).1 (x st).2 log'
  exact ⟨log'', by rw [stateM_bind, stateM_bind, hy, hl]⟩

theorem unheard_ask (r : Request) : Unheard (host.ask r) (host.recorded.ask r) := fun _ _ => ⟨_, rfl⟩

theorem unheard_clock : Unheard host.clock host.recorded.clock := fun _ _ => ⟨_, rfl⟩

theorem unheard_execute (ui : Bool) (i : Instruction) (M : Machine) :
    Unheard (execute host ui i M) (execute host.recorded ui i M) := by
  unfold execute
  cases step ui M.pc i M.scopes with
  | error f s => exact unheard_pure _
  | ok next s =>
    cases next with
    | goto a => exact unheard_pure _
    | ask r resume => exact unheard_bind (unheard_ask host r) fun answer => unheard_pure _

theorem unheard_checkTime (timeout : Option Nat) (p : Position) (M : Machine) :
    Unheard (checkTime host timeout p M) (checkTime host.recorded timeout p M) := by
  unfold checkTime
  cases timeout with
  | none => exact unheard_pure _
  | some ms =>
    refine unheard_bind (unheard_clock host) fun now => ?_
    by_cases hnow : now - M.started < ms * 1000000
    · rw [if_pos hnow, if_pos hnow]
      exact unheard_pure _
    · rw [if_neg hnow, if_neg hnow]
      refine unheard_bind (unheard_ask host .timeout) fun answer => ?_
      by_cases hgrant : answer.reply = true
      · simp only [hgrant, if_true]
        exact unheard_bind (unheard_clock host) fun now => unheard_pure _
      · simp only [hgrant]
        exact unheard_pure _

theorem unheard_turn (options : Options) (line : Line) (M : Machine) :
    Unheard (turn host options line M) (turn host.recorded options line M) := by
  unfold turn
  refine unheard_bind (unheard_execute host options.ui line.instruction M) fun o => ?_
  cases o with
  | error f M' => exact unheard_pure _
  | ok _ M' =>
    by_cases hc : M'.cancelled = true
    · simp only [hc, if_true]
      exact unheard_pure _
    · simp only [hc]
      exact unheard_checkTime host options.timeout line.position M'

end Recorded

end Machine

end MacroBasic
