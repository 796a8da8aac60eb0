/-
Results of functions. A function gives its own name a value, and the value that a call of it stands for is read from
the slot of that name behind the call. The slot belongs to the scope where the function is defined and outlives the
call: what is read is the last value that the slot has been given while the function was running, and if there is none,
what earlier calls or assignments have left there.
-/
import MacroBasic.Proofs.Machine.Slots
import MacroBasic.Proofs.Machine.Turn
import MacroBasic.Proofs.Program.Scoping

namespace MacroBasic

open Machine Relation

namespace CallSite

section Delivery

variable {σ : Type} (host : Host (StateM σ)) (options : Options) (lines : Array Line)

/-- At a moment behind a call its result is read and is the given value: a step puts it on the stack, and for want of a
value the read faults just if there is none. -/
structure Delivers (v : Value) (m : Moment σ) : Prop where
  given : ∀ m', Step host options lines m m' → m'.pc = m.pc + 1 ∧ m'.scopes = m.scopes.cons v
  missing : ∀ line, lines[m.pc]? = some line →
    ((∃ f M st, turn host options line m.machine m.state = (.error f M, st) ∧ f.code = .uninitialized) ↔
      v.isUninitialized = true)

end Delivery

section Delivery

variable {σ : Type} {host : Host (StateM σ)} {options : Options} {lines : Array Line} {m m' : Moment σ} {line : Line}
  {x : String} {b : Binding} {ui : Bool} {pc : Address} {S S' : Scopes} {t : List Exchange} {c : Config} {f : Fault}

/-- Reading a bound name puts its value on the stack, which is not missing then. -/
theorem read_goes_on (hb : S.get? x = some b) (h : (advance ui (.pushVariable x) ⟨pc, S⟩).Yields t (.ok c)) :
    b.value.isUninitialized = false ∧ c = ⟨pc + 1, S.cons b.value⟩ := by
  rw [advance_pushVariable_bound _ _ _ hb] at h
  split at h
  · cases (Talk.yields_fail.1 h).2
  · rename_i hvalue
    exact ⟨eq_false_of_ne_true hvalue, yields_pushing h⟩

/-- Reading a bound name faults if its value is missing or if the stack is full. -/
theorem read_faults (hb : S.get? x = some b) (h : (advance ui (.pushVariable x) ⟨pc, S⟩).Yields t (.error (f, S'))) :
    f.code = .uninitialized ↔ b.value.isUninitialized = true := by
  rw [advance_pushVariable_bound _ _ _ hb] at h
  split at h
  · rename_i hvalue
    cases (Talk.yields_fail.1 h).2
    exact ⟨fun _ => hvalue, fun _ => rfl⟩
  · rename_i hvalue
    unfold pushing at h
    split at h
    · cases (Talk.yields_fail.1 h).2
      exact ⟨nofun, fun hmissing => absurd hmissing hvalue⟩
    · cases (Talk.yields_done.1 h).2

/-- A turn that reads a bound name faults for want of a value just if it has none. -/
theorem missing_of_bound (hi : line.instruction = .pushVariable x) (hb : m.scopes.get? x = some b) :
    (∃ f M st, turn host options line m.machine m.state = (.error f M, st) ∧ f.code = .uninitialized) ↔
      b.value.isUninitialized = true := by
  have hreads {asked : List Event} {o : Outcome} (h : Executed options.ui line.instruction m.machine asked o) :
      Accounts (advance options.ui (.pushVariable x) ⟨m.pc, m.scopes⟩) (asked.map Event.exchange) o := hi ▸ h.accounts
  constructor
  · rintro ⟨f, M, st, hturn, hcode⟩
    obtain ⟨events, -, hturned⟩ := turn_turned hturn
    cases hturned with
    | faults h => exact (read_faults hb (hreads h)).1 ((Fault.code_orPlace ..).symm.trans hcode)
    | stops | late => cases hcode
  · intro hvalue
    have hfaults {asked : List Event} {M : Machine}
        (h : Executed options.ui line.instruction m.machine asked (.ok () M)) : False := by
      have hpresent := (read_goes_on hb (hreads h)).1
      rw [hvalue] at hpresent
      cases hpresent
    generalize hturn : turn host options line m.machine m.state = y
    obtain ⟨o, st⟩ := y
    obtain ⟨events, -, hturned⟩ := turn_turned hturn
    cases hturned with
    | faults h => exact ⟨_, _, st, rfl, (Fault.code_orPlace ..).trans ((read_faults hb (hreads h)).2 hvalue)⟩
    | stops h | onward h | late h | granted h => exact (hfaults h).elim

/-- A step that reads a bound name goes on with its value on the stack. -/
theorem given_of_bound (hline : lines[m.pc]? = some line) (hi : line.instruction = .pushVariable x)
    (hb : m.scopes.get? x = some b) (hstep : Step host options lines m m') :
    m'.pc = m.pc + 1 ∧ m'.scopes = m.scopes.cons b.value := by
  obtain ⟨line', hline', hturn, -⟩ := hstep
  have hsame : some line' = some line := hline'.symm.trans hline
  cases hsame
  obtain ⟨t, hyields⟩ := turn_yields hturn
  rw [hi] at hyields
  have hconfig := (read_goes_on hb hyields).2
  exact ⟨congrArg Config.pc hconfig, congrArg Config.scopes hconfig⟩

theorem delivers_of_bound {rest : List Instruction} (hcode : CodeAt lines m.pc (.pushVariable x :: rest))
    (hb : m.scopes.get? x = some b) : Delivers host options lines b.value m := by
  obtain ⟨line, hline, hi⟩ := hcode.head
  refine ⟨fun m' hstep => given_of_bound hline hi hb hstep, fun line' hline' => ?_⟩
  have hsame : some line' = some line := hline'.symm.trans hline
  cases hsame
  exact missing_of_bound hi hb

end Delivery

/-! ## Code behind arguments -/

variable {lines : Array Line} {R : Rules} {c : CallSite}

/-- Where a function is called, its scope is left and its name is read right behind. -/
theorem Stands.codeAt_calling (h : c.Stands lines R) (hin : c.inExpression = true) :
    CodeAt lines c.calling [.call c.routine.entry, .popScope, .pushVariable c.routine.name] := by
  have hcode := h.code
  rw [CallSite.code, hin, if_pos rfl, List.append_assoc] at hcode
  have hready := hcode.right (b := c.ready) (by rw [List.length_cons, length_codeOfAll, ready]; omega)
  rw [Routine.enter, List.append_assoc] at hready
  exact hready.right (b := c.calling) (by rw [length_bindParameters]; rfl)

end CallSite

namespace Program

/-- The code of a script where it calls a function in an expression. -/
theorem codeAt_site (options : Options) (bindings : List (String × Value × Kind)) {source : String} {body : Block}
    {c : CallSite} (hscript : Grammar.script (.ofString source) options.explicit options.external
      (sharing options bindings).external = .ok body) (hc : c ∈ body.sites 0) (hin : c.inExpression = true) :
    CodeAt (body.lines 0).toArray c.calling [.call c.routine.entry, .popScope, .pushVariable c.routine.name] := by
  have hsited := body.sited (obeys_of_script hscript) (codeAt_instructionsOf (body.lines 0))
  exact (hsited.stands c hc).codeAt_calling hin

/-- Every call of a function in an expression of a compiled program reads the slot of the function's name. When a run
that has executed the call has come behind it again, that slot is the one that the scopes around the call had before,
and the value that is read is the last one it has been given in between; if it has been given none, the value is the
one that it held at the call. The read faults for want of a value just if that value is missing. If the scopes around
the call have no slot for the name, they still have none behind it. -/
theorem run_results (options : Options) (bindings : List (String × Value × Kind)) (source : String) (compiled : Program)
    (hcompile : (sharing options bindings).compile source = (.ok (), compiled)) :
    ∃ body, Grammar.script (.ofString source) options.explicit options.external
        (sharing options bindings).external = .ok body ∧
      ∀ c ∈ body.sites 0, c.inExpression = true →
        CodeAt compiled.lines c.calling [.call c.routine.entry, .popScope, .pushVariable c.routine.name] ∧
        ∀ p, Prepared compiled p → ∀ {σ : Type} (host : Host (StateM σ)) (st : σ) (m m' : Moment σ),
          Reaches host p.options p.lines (starting p.external host st) (host.clock st).2 m.machine m.state m.calls →
          m.pc = c.calling → m'.pc = c.behind → m'.scopes.frames.length = m.scopes.below.length →
          ReflTransGen (StepWhile host p.options p.lines fun y => m.scopes.below.length < y.scopes.frames.length) m m' →
          slot? c.routine.name m.scopes.below = none ∧ m'.scopes.get? c.routine.name = none ∨
          ∃ n b last, slot? c.routine.name m.scopes.below = some (n, b) ∧
            Fills host p.options p.lines c.routine.name n (fun y => m.scopes.below.length < y.scopes.frames.length) m
              last m' ∧
            slot? c.routine.name m'.scopes.frames = some (n, { b with value := last.getD b.value }) ∧
            CallSite.Delivers host p.options p.lines (last.getD b.value) m' := by
  obtain ⟨body, hscript, rfl⟩ := script_of_compile hcompile
  have hL := describes_table hscript
  refine ⟨body, hscript, fun c hc hin => ?_⟩
  have hcode := codeAt_site options bindings hscript hc hin
  refine ⟨hcode, fun p hp σ host st m m' hreaches _ hpc' hlength hpath => ?_⟩
  have hlines : p.lines = (body.lines 0).toArray := hp.lines
  rw [hlines] at hreaches hpath ⊢
  have hstart : Laid body.table (starting p.external host st).config [] := ⟨_, hL.start, trivial, .script⟩
  have hm : m.Laid body.table := hreaches.laid hL hstart
  have hS : m.scopes.frames = [m.scopes.top] ++ m.scopes.below := rfl
  -- behind the call the newer scopes are gone
  have hback {above lower : List Scope} (h : m'.scopes.frames = above ++ lower)
      (hlower : lower.length = m.scopes.below.length) : m'.scopes.frames = lower := by
    rw [h, List.length_append, hlower] at hlength
    have habove : above = [] := List.eq_nil_of_length_eq_zero (by omega)
    rw [h, habove, List.nil_append]
  cases hslot : slot? c.routine.name m.scopes.below with
  | none =>
    obtain ⟨above, lower, hS', hlower, hfree⟩ := free_of_steps hL hm hS hslot hpath
    rw [Scopes.get?_eq_slot?, hback hS' hlower, hfree]
    exact .inl ⟨rfl, rfl⟩
  | some s =>
    obtain ⟨n, b⟩ := s
    obtain ⟨above, lower, hS', hlower, last, hfills, hslot'⟩ := exists_fills hL hm hS hslot hpath
    rw [← hback hS' hlower] at hslot'
    refine .inr ⟨n, b, last, rfl, hfills, hslot', ?_⟩
    have hread : CodeAt (body.lines 0).toArray m'.pc [.pushVariable c.routine.name] := by
      rw [hpc']
      exact hcode.tail.tail
    exact CallSite.delivers_of_bound hread (by rw [Scopes.get?_eq_slot?, hslot']; rfl)

section Samples

variable {body : Block} {m m' : Moment Unit} {n : Nat} {stay : Moment Unit → Bool}

/-- The moment that so many steps of a run with a host that does not care lead to. -/
def later? (body : Block) (m : Moment Unit) (n : Nat) : Option (Moment Unit) :=
  m.after? (.indifferent (pure 0)) {} (body.lines 0).toArray n

/-- Whether an instruction gives a name a value. -/
def assigns : Instruction → Bool
  | .assign _ => true
  | _ => false

/-- Whether a value is the truth value for what holds. -/
def isTrue : Value → Bool
  | .boolean b => b
  | _ => false

theorem eq_of_isTrue {v : Value} (h : isTrue v = true) : v = .boolean true := by
  cases v with
  | boolean b =>
    cases b with
    | true => rfl
    | false => cases h
  | _ => cases h

/-- Whether a run that is to execute a call of a function is behind it so many steps later, and all moments on the way
are as they should be. -/
def comesBack (body : Block) (m : Moment Unit) (n : Nat) (stay : Moment Unit → Bool) (c : CallSite) : Bool :=
  c.inExpression && m.pc == c.calling &&
    (later? body m n).any (fun m' => m'.pc == c.behind && m'.scopes.frames.length == m.scopes.below.length) &&
    (List.range n).all fun k => (later? body m k).all stay

theorem steps_while_of_later? (h : later? body m n = some m')
    (hstay : ∀ k < n, ∀ y, later? body m k = some y → stay y) :
    ReflTransGen (StepWhile (.indifferent (pure 0)) {} (body.lines 0).toArray fun y => stay y) m m' := by
  induction n generalizing m with
  | zero =>
    cases h
    exact .refl
  | succ n ih =>
    obtain ⟨m₁, hnext, hrest⟩ := Option.bind_eq_some_iff.1 h
    refine .head ⟨hstay 0 (Nat.succ_pos n) m rfl, step_of_next? hnext⟩ (ih hrest fun k hk y hy => ?_)
    exact hstay (k + 1) (Nat.succ_lt_succ hk) y (Option.bind_eq_some_iff.2 ⟨m₁, hnext, hy⟩)

theorem returns_of_comesBack (h : (body.sites 0).any (comesBack body m n stay) = true) :
    ∃ c ∈ body.sites 0, c.inExpression = true ∧ m.pc = c.calling ∧ ∃ m', later? body m n = some m' ∧
      m'.pc = c.behind ∧ m'.scopes.frames.length = m.scopes.below.length ∧
      ReflTransGen (StepWhile (.indifferent (pure 0)) {} (body.lines 0).toArray fun y => stay y) m m' := by
  obtain ⟨c, hc, h⟩ := List.any_eq_true.1 h
  simp only [comesBack, Bool.and_eq_true, beq_iff_eq, List.all_eq_true, List.mem_range] at h
  obtain ⟨⟨⟨hin, hpc⟩, hback⟩, hstay⟩ := h
  obtain ⟨m', hm', hback⟩ := (Option.any_eq_true ..).1 hback
  obtain ⟨hpc', hlength⟩ := Bool.and_eq_true_iff.1 hback
  refine ⟨c, hc, hin, hpc, m', hm', eq_of_beq hpc', eq_of_beq hlength, steps_while_of_later? hm' fun k hk y hy => ?_⟩
  exact (Option.all_eq_true ..).1 (hstay k hk) y hy

end Samples

/-- A function that calls itself: the outer call gives no result of its own, and stands for the one that the inner call
has given. -/
theorem run_results_recursion :
    let source :=
      "FUNCTION F(N)\nIF N THEN\nDEBUGPRINT F(FALSE)\nELSE\nF = TRUE\nEND IF\nEND FUNCTION\nDEBUGPRINT F(TRUE)"
    let host : Host (StateM Unit) := .indifferent (pure 0)
    ∃ (compiled : Program) (c : CallSite) (m m' : Moment Unit), (sharing {} []).compile source = (.ok (), compiled) ∧
      Prepared compiled compiled ∧
      Reaches host compiled.options compiled.lines (starting compiled.external host ()) () m.machine m.state m.calls ∧
      m.pc = c.calling ∧ m'.pc = c.behind ∧ m'.scopes.frames.length = m.scopes.below.length ∧
      ∃ n b last, slot? c.routine.name m.scopes.below = some (n, b) ∧ b.value.isUninitialized = true ∧
        Fills host compiled.options compiled.lines c.routine.name n
          (fun y => m.scopes.below.length < y.scopes.frames.length) m last m' ∧
        CallSite.Delivers host compiled.options compiled.lines (last.getD b.value) m' := by
  intro source host
  have hrun : (momentOf? [] source 6).map (Function.uncurry fun body m =>
      ((body.sites 0).any (comesBack body m 19 fun y => m.scopes.below.length < y.scopes.frames.length),
        (body.sites 0).all fun c => (slot? c.routine.name m.scopes.below).any fun s => s.2.value.isUninitialized)) =
      some (true, true) := by
    decide +kernel
  obtain ⟨⟨body, m⟩, hmoment, hrun⟩ := Option.map_eq_some_iff.1 hrun
  obtain ⟨hback, hslots⟩ := Prod.mk.inj hrun
  obtain ⟨c, hc, hin, hpc, m', hm', hpc', hlength, hpath⟩ := returns_of_comesBack hback
  obtain ⟨compiled, hcompile, hprepared, hscript, hlines, hreaches⟩ := reaches_of_momentOf? hmoment
  obtain ⟨body', hscript', hresults⟩ := run_results {} [] source compiled hcompile
  have hbody : body' = body := Except.ok.inj (hscript'.symm.trans hscript)
  subst hbody
  have hoptions : compiled.options = {} := by
    obtain ⟨_, _, rfl⟩ := script_of_compile hcompile
    rfl
  have hpath : ReflTransGen (StepWhile host compiled.options compiled.lines
      fun y => m.scopes.below.length < y.scopes.frames.length) m m' := by
    rw [hoptions, hlines]
    exact ReflTransGen.mono (fun _ _ hstep => ⟨of_decide_eq_true hstep.1, hstep.2⟩) _ _ hpath
  obtain ⟨⟨n, b⟩, hslot, hvalue⟩ := (Option.any_eq_true ..).1 (List.all_eq_true.1 hslots c hc)
  refine ⟨compiled, c, m, m', hcompile, hprepared, hreaches, hpc, hpc', hlength, ?_⟩
  -- the name has a binding in front of the call, so the case that it has none is out
  rcases (hresults c hc hin).2 compiled hprepared host () m m' hreaches hpc hpc' hlength hpath with
    ⟨hfree, -⟩ | ⟨n', b', last, hslot', hfills, -, hdelivers⟩
  · rw [hslot] at hfree
    cases hfree
  · rw [hslot] at hslot'
    cases hslot'
    exact ⟨n, b, last, hslot, hvalue, hfills, hdelivers⟩

/-- The value of a call need not have been given during it. The second call here executes no instruction that gives any
name a value, and still a value is read behind it: the one that the first call has left. -/
theorem run_results_left_over :
    let source := "FUNCTION F(N)\nIF N THEN F = N\nEND FUNCTION\nDEBUGPRINT F(TRUE)\nDEBUGPRINT F(FALSE)"
    let host : Host (StateM Unit) := .indifferent (pure 0)
    ∃ (compiled : Program) (body : Block) (c : CallSite) (m m' m'' : Moment Unit),
      (sharing {} []).compile source = (.ok (), compiled) ∧ Prepared compiled compiled ∧
      Grammar.script (.ofString source) true true (sharing {} []).external = .ok body ∧ c ∈ body.sites 0 ∧
      c.inExpression = true ∧
      Reaches host compiled.options compiled.lines (starting compiled.external host ()) () m.machine m.state m.calls ∧
      m.pc = c.calling ∧ m'.pc = c.behind ∧ m'.scopes.frames.length = m.scopes.below.length ∧
      ReflTransGen (StepWhile host compiled.options compiled.lines fun y =>
        m.scopes.below.length < y.scopes.frames.length ∧
          ∀ line, compiled.lines[y.pc]? = some line → ∀ x, line.instruction ≠ .assign x) m m' ∧
      Step host compiled.options compiled.lines m' m'' ∧ m''.scopes = m'.scopes.cons (.boolean true) := by
  intro source host
  -- the moment before the second call, and what the run does until it comes back, are computed
  have hrun : (momentOf? [] source 19).map (Function.uncurry fun body m =>
      ((body.sites 0).any (comesBack body m 5 fun y => decide (m.scopes.below.length < y.scopes.frames.length) &&
          (body.lines 0)[y.pc]?.all fun line => !assigns line.instruction),
        (later? body m 5).any fun m' => (later? body m' 1).isSome && (body.sites 0).all fun c =>
          (m'.scopes.get? c.routine.name).any fun b => isTrue b.value)) = some (true, true) := by
    decide +kernel
  obtain ⟨⟨body, m⟩, hmoment, hrun⟩ := Option.map_eq_some_iff.1 hrun
  obtain ⟨hback, hread⟩ := Prod.mk.inj hrun
  obtain ⟨c, hc, hin, hpc, m', hm', hpc', hlength, hpath⟩ := returns_of_comesBack hback
  obtain ⟨compiled, hcompile, hprepared, hscript, hlines, hreaches⟩ := reaches_of_momentOf? hmoment
  have hoptions : compiled.options = {} := by
    obtain ⟨_, _, rfl⟩ := script_of_compile hcompile
    rfl
  rw [hm', Option.any_some, Bool.and_eq_true] at hread
  obtain ⟨hnext, hvalue⟩ := hread
  obtain ⟨m'', hm''⟩ := Option.isSome_iff_exists.1 hnext
  obtain ⟨m₁, hm₁, hsame⟩ := Option.bind_eq_some_iff.1 hm''
  cases hsame
  have hstep := step_of_next? hm₁
  obtain ⟨b, hb, hvalue⟩ := (Option.any_eq_true ..).1 (List.all_eq_true.1 hvalue c hc)
  have hcode := (codeAt_site {} [] hscript hc hin).tail.tail
  rw [← show m'.pc = c.calling + 1 + 1 from hpc'] at hcode
  obtain ⟨line, hline, hi⟩ := hcode.head
  have hgiven := CallSite.given_of_bound hline hi hb hstep
  rw [eq_of_isTrue hvalue] at hgiven
  refine ⟨compiled, body, c, m, m', m'', hcompile, hprepared, hscript, hc, hin, hreaches, hpc, hpc', hlength, ?_, ?_,
    hgiven.2⟩
  · rw [hoptions, hlines]
    refine ReflTransGen.mono (fun y _ hwhile => ⟨?_, hwhile.2⟩) _ _ hpath
    obtain ⟨hdeep, hquiet⟩ := Bool.and_eq_true_iff.1 hwhile.1
    refine ⟨of_decide_eq_true hdeep, fun line hline x hi => ?_⟩
    rw [List.getElem?_toArray] at hline
    have hother := (Option.all_eq_true ..).1 hquiet line hline
    rw [hi] at hother
    cases hother
  · rw [hoptions, hlines]
    exact hstep

end Program

end MacroBasic
