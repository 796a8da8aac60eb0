/-
Safety of runs. A program whose instructions fit a table of layouts keeps to the table in every state that a run
of it reaches, whatever the host does. So no instruction ever misses an operand, and the only internal fault that
can end a run is that of a full stack.
-/
import MacroBasic.Proofs.Machine.Layout

namespace MacroBasic

/-- How many values of the innermost scope an instruction takes or looks at. -/
def Instruction.operands : Instruction → Nat
  | .pop | .assign _ | .unary _ | .print | .jumpTrue _ | .jumpFalse _ | .jumpPop => 1
  | .binary _ => 2
  | .dialog d => d.defaults.length
  | .copy depth => depth + 1
  | _ => 0

namespace Machine

/-! ## Tables -/

/-- A table tells the layout at every address of a program. -/
structure Describes (L : Address → Option Layout) (lines : Array Line) : Prop where
  start : L 0 = some (.shaped .script)
  /-- There is no layout beyond the end. -/
  bound : ∀ a l, L a = some l → a ≤ lines.size
  fits : ∀ a line, lines[a]? = some line → ∃ l, L a = some l ∧ l.Fits L a line.instruction

/-- The next instruction of a configuration, if there is one, can do its work, given the addresses that the calls
of routines so far have left to return to. -/
structure Safe (lines : Array Line) (c : Config) (calls : List Address) : Prop where
  /-- The address is that of an instruction or the end. -/
  within : c.pc ≤ lines.size
  /-- No instruction reaches below the bottom of the stack. -/
  operands : ∀ line, lines[c.pc]? = some line → line.instruction.operands ≤ c.scopes.items.length
  /-- What leaves a loop finds an address to go to. -/
  exit : ∀ line, lines[c.pc]? = some line → line.instruction = .jumpPop →
    ∃ a rest, c.scopes.items = .address a :: rest
  /-- What returns from a routine finds the address that the call of it has recorded. -/
  back : ∀ line, lines[c.pc]? = some line → line.instruction = .ret →
    ∃ a rest b, calls = a :: rest ∧ c.scopes.get? returnName = some b ∧ b.value = .address a
  /-- What leaves a scope finds another one around it. -/
  leave : ∀ line, lines[c.pc]? = some line → line.instruction = .popScope → c.scopes.below ≠ []

section Safe

variable {L : Address → Option Layout} {lines : Array Line} {pc : Address} {S : Scopes} {calls : List Address}
  {i : Instruction} {s : Shape}

theorem Shape.length_values (n : Nat) (s : Shape) : (s.values n).cells.length = n + s.cells.length := by
  induction n with
  | zero => exact (Nat.zero_add _).symm
  | succ n ih =>
    show (s.values n).cells.length + 1 = _
    rw [ih]
    omega

theorem Shape.Fits.operands_le (h : s.Fits L pc i) : i.operands ≤ s.cells.length := by
  cases i with
  | pop =>
    obtain ⟨c, s', rfl, _⟩ := h
    exact Nat.le_add_left 1 _
  | assign name =>
    obtain ⟨_, s', rfl, _⟩ := h
    exact Nat.le_add_left 1 _
  | unary | print | jumpTrue | jumpFalse =>
    obtain ⟨s', rfl, _⟩ := h
    exact Nat.le_add_left 1 _
  | jumpPop =>
    obtain ⟨b, s', rfl, _⟩ := h
    exact Nat.le_add_left 1 _
  | binary op =>
    obtain ⟨s', rfl, _⟩ := h
    exact Nat.le_add_left 2 _
  | dialog d =>
    obtain ⟨s', rfl, _⟩ := h
    rw [Shape.length_values]
    exact Nat.le_add_right _ _
  | copy depth => exact h.1
  | allocConst | allocVar | pushValue | pushVariable | notify | jump | pushScope | popScope | call | ret =>
    exact Nat.zero_le _

theorem Layout.Fits.safe {l : Layout} {line : Line} (hline : lines[pc]? = some line)
    (h : l.Fits L pc line.instruction) (hS : l.Stands L S calls) : Safe lines ⟨pc, S⟩ calls := by
  have hwithin : pc ≤ lines.size := Nat.le_of_lt (Array.getElem?_eq_some_iff.1 hline).1
  have only {line'} (hline' : lines[pc]? = some line') : line' = line := by
    rw [hline] at hline'
    cases hline'
    rfl
  cases l with
  -- a call has returned: its scope is left next, and another one waits below
  | returned s =>
    obtain ⟨hi, _⟩ := h
    obtain ⟨next, rest, hbelow, _⟩ := Around.next hS
    refine ⟨hwithin, ?_, ?_, ?_, ?_⟩
    · intro line' hline'
      rw [only hline', hi]
      exact Nat.zero_le _
    · intro line' hline' hi'
      rw [only hline', hi] at hi'
      cases hi'
    · intro line' hline' hi'
      rw [only hline', hi] at hi'
      cases hi'
    · intro line' hline' hi' hnil
      rw [show S.below = next :: rest from hbelow] at hnil
      cases hnil
  | shaped s =>
    refine ⟨hwithin, ?_, ?_, ?_, ?_⟩
    · intro line' hline'
      rw [only hline', hS.1.length_eq]
      exact Shape.Fits.operands_le h
    · intro line' hline' hi
      rw [only hline'] at hi
      rw [hi] at h
      obtain ⟨b, s', rfl, _⟩ := h
      obtain ⟨v, S', rfl, hv, _⟩ := hS.uncons
      cases hv
      exact ⟨b, S'.items, rfl⟩
    · intro line' hline' hi
      rw [only hline'] at hi
      rw [hi] at h
      obtain ⟨a, s', calls', hback, rfl, _⟩ := hS.returns h
      obtain ⟨b, hb, hvalue⟩ := Option.map_eq_some_iff.1 (get?_of_returnOf hback)
      exact ⟨a, calls', b, rfl, hb, hvalue⟩
    · intro line' hline' hi
      rw [only hline'] at hi
      rw [hi] at h
      exact h.elim

/-- An instruction leads from where the scopes are as the table says to where they are so again. -/
theorem Laid.advance {ui : Bool} {c : Config} {line : Line} (hL : Describes L lines) (h : Laid L c calls)
    (hline : lines[c.pc]? = some line) : (advance ui line.instruction c).Ensures
      (Laid L · (track c.pc calls line.instruction)) OnlyOverflow := by
  obtain ⟨l, hl, hS⟩ := h
  obtain ⟨l', hl', hfits⟩ := hL.fits c.pc line hline
  rw [hl] at hl'
  cases hl'
  exact hfits.advance hS

/-- Where the scopes are as the table says, the next instruction can do its work. -/
theorem Laid.safe {c : Config} (hL : Describes L lines) (h : Laid L c calls) : Safe lines c calls := by
  obtain ⟨l, hl, hS⟩ := h
  cases hline : lines[c.pc]? with
  | some line =>
    obtain ⟨l', hl', hfits⟩ := hL.fits c.pc line hline
    rw [hl] at hl'
    cases hl'
    exact hfits.safe hline hS
  | none =>
    refine ⟨hL.bound c.pc l hl, ?_, ?_, ?_, ?_⟩
    all_goals intro line' hline'; rw [hline] at hline'; cases hline'

end Safe

/-! ## Runs -/

section Runs

variable {σ : Type} (host : Host (StateM σ)) (options : Options) (lines : Array Line)

/-- The states that a run gets to turn by turn, with the addresses that its routines are to return to. -/
inductive Reaches (M₀ : Machine) (st₀ : σ) : Machine → σ → List Address → Prop
  | start : Reaches M₀ st₀ M₀ st₀ []
  | turn {M M' : Machine} {st st' : σ} {calls : List Address} {line : Line} (h : Reaches M₀ st₀ M st calls)
      (hline : lines[M.pc]? = some line) (hturn : turn host options line M st = (.ok () M', st')) :
    Reaches M₀ st₀ M' st' (track M.pc calls line.instruction)

end Runs

section Runs

variable {σ : Type} {host : Host (StateM σ)} {options : Options} {lines : Array Line} {M₀ M : Machine} {st₀ st : σ}
  {calls : List Address} {L : Address → Option Layout}

/-- A turn has an instruction for its reason unless the run is cancelled or out of time. -/
theorem turn_yields {line : Line} {o : Outcome} {st' : σ} (h : turn host options line M st = (o, st')) :
    ∃ t, match o with
      | .ok _ M' => (advance options.ui line.instruction M.config).Yields t (.ok M'.config)
      | .error f M' => f.code = .cancelled ∨ f.code = .timedOut ∨ ∃ f', f = f'.orPlace line.position ∧
        (advance options.ui line.instruction M.config).Yields t (.error (f', M'.scopes)) := by
  obtain ⟨log, hheard⟩ := unheard_turn host options line M st []
  obtain ⟨o', t, st'', hrecorded, hend⟩ := turn_recorded host options line M st []
  rw [hrecorded, h] at hheard
  cases hheard
  exact ⟨conversation t, hend⟩

/-- A run ends in a state that it reaches, or with the fault of a turn from there. -/
theorem exists_reaches_of_run {fuel : Nat} {o : Outcome} {st' : σ}
    (h : Reaches host options lines M₀ st₀ M st calls) (hrun : run host options lines fuel M st = (some o, st')) :
    ∃ M₁ st₁ calls₁, Reaches host options lines M₀ st₀ M₁ st₁ calls₁ ∧
      (o = .ok () M₁ ∧ lines[M₁.pc]? = none ∧ st₁ = st' ∨ ∃ line f M', o = .error f M' ∧ lines[M₁.pc]? = some line ∧
        turn host options line M₁ st₁ = (.error f M', st')) := by
  induction fuel generalizing M st calls with
  | zero => cases hrun
  | succ fuel ih =>
    unfold run at hrun
    cases hline : lines[M.pc]? with
    | none =>
      rw [hline] at hrun
      cases hrun
      exact ⟨M, _, calls, h, .inl ⟨rfl, hline, rfl⟩⟩
    | some line =>
      rw [hline] at hrun
      simp only at hrun
      rw [stateM_bind] at hrun
      generalize hturn : turn host options line M st = x at hrun
      obtain ⟨o₁, st₁⟩ := x
      cases o₁ with
      | error f M' =>
        cases hrun
        exact ⟨M, st, calls, h, .inr ⟨line, f, M', rfl, hline, hturn⟩⟩
      | ok _ M' => exact ih (h.turn hline hturn) hrun

/-- Every state that a run reaches is as the table says. -/
theorem Reaches.laid (hL : Describes L lines) (h₀ : Laid L M₀.config [])
    (h : Reaches host options lines M₀ st₀ M st calls) : Laid L M.config calls := by
  induction h with
  | start => exact h₀
  | turn _ hline hturn ih =>
    obtain ⟨t, hyields⟩ := turn_yields hturn
    exact ih.advance hL hline t _ hyields

/-- The internal faults that end a run are those of a full stack. -/
theorem run_fault (hL : Describes L lines) (h₀ : Laid L M₀.config []) {fuel : Nat} {f : Fault} {M' : Machine}
    {st' : σ} (hrun : run host options lines fuel M₀ st₀ = (some (.error f M'), st')) (hf : f.code = .internal) :
    M'.scopes.Full ∧ ∃ p, f = M'.scopes.overflow.orPlace p := by
  obtain ⟨M, st, calls, hreaches, ⟨ho, _⟩ | ⟨line, f, M', ho, hline, hturn⟩⟩ := exists_reaches_of_run .start hrun
  · cases ho
  · cases ho
    obtain ⟨t, hyields⟩ := turn_yields hturn
    rcases hyields with hcode | hcode | ⟨f', rfl, hyields⟩
    · rw [hf] at hcode; cases hcode
    · rw [hf] at hcode; cases hcode
    · rw [Fault.code_orPlace] at hf
      obtain ⟨hfull, hover⟩ := (hreaches.laid hL h₀).advance hL hline t _ hyields hf
      exact ⟨hfull, line.position, congrArg (Fault.orPlace line.position) hover⟩

end Runs

end Machine

end MacroBasic
