/-
Calls leave no traces. At every call of a compiled program the arguments are evaluated from left to right in a new
scope before a parameter is bound there, each parameter is bound to its argument, and when the run has come behind the
call all scopes are as they were before it but for the values of variables, whatever the routine has done.
-/
import MacroBasic.Proofs.Evaluation.CallCode
import MacroBasic.Proofs.Grammar.CallSites
import MacroBasic.Proofs.Program.Interpretation
import MacroBasic.Proofs.Program.Termination

namespace MacroBasic

open Machine Relation

/-! ## Stages of a call -/

namespace CallSite

section Stages

variable {σ : Type} (host : Host (StateM σ)) (options : Options) (lines : Array Line) (c : CallSite)

/-- The call has begun: there is a new scope inside of those there were. -/
structure Opened (m m₁ : Moment σ) : Prop where
  step : Step host options lines m m₁
  pc : m₁.pc = c.address + 1
  scopes : m₁.scopes = m.scopes.inner

/-- The arguments have been evaluated, from left to right, and no parameter is bound. -/
structure Argued (m : Moment σ) (vs : List Value) (m₂ : Moment σ) : Prop where
  evaluated : ∃ m₁, c.Opened host options lines m m₁ ∧ Evaluates host options lines c.arguments m₁ vs m₂
  pc : m₂.pc = c.ready
  names : m₂.scopes.top.names = []

/-- Parameters are being bound, and the scopes around are as they were. -/
def Binds (m₂ m' : Moment σ) : Prop := m'.scopes.below = m₂.scopes.below ∧ c.ready ≤ m'.pc ∧ m'.pc < c.calling

/-- The new scope holds just the parameters, each bound to its argument, and the routine is to be called. -/
structure Bound (m : Moment σ) (vs : List Value) (m₃ : Moment σ) : Prop where
  bound : ∃ m₂, c.Argued host options lines m vs m₂ ∧ m₃.scopes.below = m₂.scopes.below ∧
    ReflTransGen (StepWhile host options lines (c.Binds m₂)) m₂ m₃
  pc : m₃.pc = c.calling
  names : m₃.scopes.top.names = (c.routine.bindings vs).map fun b => { name := b.1, value := b.2 }
  items : m₃.scopes.items = []

/-- The scope of the call has just been left, for the first time. All scopes are as they were but for the values of
variables, and where the call is an expression the next step adds a value to them. -/
structure Over (m m₄ : Moment σ) : Prop where
  called : ∃ vs m₃, c.Bound host options lines m vs m₃ ∧
    ReflTransGen (StepWhile host options lines fun x => m.scopes.frames.length < x.scopes.frames.length) m₃ m₄
  pc : m₄.pc = c.behind
  similar : m.scopes.Similar m₄.scopes
  result : c.inExpression = true → ∀ m₅, Step host options lines m₄ m₅ →
    m₅.pc = m₄.pc + 1 ∧ ∃ v, m₅.scopes = m₄.scopes.cons v

/-- How far a run has come since the moment where a call is to begin. -/
inductive Stage (m m' : Moment σ) : Prop
  | begins (h : m' = m)
  /-- The arguments are being evaluated, in the new scope or further inside. -/
  | evaluates {m₁ : Moment σ} (h : c.Opened host options lines m m₁)
      (hpath : ReflTransGen
        (StepWhile host options lines (Stays m.scopes.frames.length (c.address + 1) c.ready)) m₁ m')
      (hm' : Stays m.scopes.frames.length (c.address + 1) c.ready m')
  /-- The parameters are being bound. -/
  | binds {vs : List Value} {m₂ : Moment σ} (h : c.Argued host options lines m vs m₂)
      (hpath : ReflTransGen (StepWhile host options lines (c.Binds m₂)) m₂ m') (hm' : c.Binds m₂ m')
  /-- The routine is being called, or its scope is to be left. -/
  | inside {vs : List Value} {m₃ : Moment σ} (h : c.Bound host options lines m vs m₃)
      (hpath : ReflTransGen
        (StepWhile host options lines fun x => m.scopes.frames.length < x.scopes.frames.length) m₃ m')
      (hm' : m.scopes.frames.length < m'.scopes.frames.length)
  | over {m₄ : Moment σ} (h : c.Over host options lines m m₄) (hpath : ReflTransGen (Step host options lines) m₄ m')

end Stages

/-! ## From stage to stage -/

section Stages

variable {σ : Type} {host : Host (StateM σ)} {options : Options} {lines : Array Line} {L : Address → Option Layout}
  {R : Rules} {c : CallSite} {m m₂ m₃ m' : Moment σ} {vs : List Value}

theorem Stands.opened (h : c.Stands lines R) (hL : Describes L lines) (hm : m.Laid L) (hpc : m.pc = c.address)
    {m₁ : Moment σ} (hstep : Step host options lines m m₁) : c.Opened host options lines m m₁ := by
  have hcode := h.code.left.left
  rw [← hpc] at hcode
  obtain ⟨hpc₁, hS₁⟩ := enters_of_step hL hm hcode hstep
  exact ⟨hstep, by rw [hpc₁, hpc], hS₁⟩

theorem Opened.argued {m₁ : Moment σ} (h : c.Opened host options lines m m₁)
    (hvs : Evaluates host options lines c.arguments m₁ vs m₂) : c.Argued host options lines m vs m₂ := by
  refine ⟨⟨m₁, h, hvs⟩, by rw [hvs.pc, h.pc]; rfl, ?_⟩
  have hnames := hvs.similar.top.2
  rw [Scopes.names_pushAll, h.scopes] at hnames
  exact List.forall₂_nil_left_iff.1 hnames

/-- What the arguments leave: the new scope with their values, inside of scopes as they were before the call. -/
theorem Argued.scopes (h : c.Argued host options lines m vs m₂) :
    ∃ S : Scopes, m₂.scopes = S.pushAll vs ∧ S.top = .empty ∧ List.Forall₂ Scope.Similar m.scopes.frames S.below := by
  obtain ⟨m₁, hopened, hvs⟩ := h.evaluated
  obtain ⟨S, hS, hsimilar⟩ := hvs.similar.unpush
  rw [hopened.scopes] at hsimilar
  refine ⟨S, hS, ?_, hsimilar.below⟩
  have hstack : S.top.stack = Scope.empty.stack := hsimilar.top.1
  have hnames : S.top.names = [] := List.forall₂_nil_left_iff.1 hsimilar.top.2
  cases htop : S.top
  rw [htop] at hstack hnames
  cases hstack
  cases hnames
  rfl

/-- From the moment where its arguments are evaluated, a call binds its parameters. -/
theorem Stands.passes_bound (h : c.Stands lines R) (hnodup : c.routine.parameters.Nodup) (hL : Describes L lines)
    (hm₂ : m₂.Laid L) (hargued : c.Argued host options lines m vs m₂) :
    Passes host options lines L m₂ (c.Binds m₂) (c.Bound host options lines m vs) := by
  obtain ⟨S, hS, htop, _⟩ := hargued.scopes
  have hlength : vs.length = c.routine.parameters.length := by
    obtain ⟨m₁, _, hvs⟩ := hargued.evaluated
    exact hvs.length_eq.trans h.length
  have henter := h.code.left.right (b := m₂.pc) (by
    rw [List.length_cons, length_codeOfAll, hargued.pc, ready]; omega)
  have hbelow : S.below = m₂.scopes.below := by rw [hS, Scopes.below_pushAll]
  have hpasses : Passes host options lines L m₂ _ _ := MacroBasic.passes_bound hL hm₂ henter hlength hS
  rw [hargued.pc] at hpasses
  refine hpasses.follow (fun m' h' => ⟨h'.1.trans hbelow, h'.2⟩) ?_
  rintro m₃ hm₃ ⟨hpc₃, hS₃⟩ hpath
  have hbinds : ReflTransGen (StepWhile host options lines (c.Binds m₂)) m₂ m₃ :=
    ReflTransGen.mono (fun _ _ hstep => ⟨⟨hstep.1.1.trans hbelow, hstep.1.2⟩, hstep.2⟩) _ _ hpath
  have hdistinct : ((c.routine.bindings vs).map Prod.fst).Nodup := by
    rw [Routine.bindings, List.map_reverse, List.map_fst_zip (Nat.le_of_eq hlength.symm)]
    exact List.nodup_reverse.2 hnodup
  refine .here hm₃ ⟨⟨m₂, hargued, ?_, hbinds⟩, hpc₃, ?_, ?_⟩
  · rw [hS₃, below_bindAll, hbelow]
  · rw [hS₃, names_bindAll _ hdistinct (by rw [htop]; rintro _ ⟨⟩), htop]
    rfl
  · show m₃.scopes.top.stack.items = []
    rw [hS₃, stack_bindAll, htop]
    rfl

/-- From the moment where its parameters are bound, a call comes to its end. -/
theorem Stands.passes_over (h : c.Stands lines R) (hL : Describes L lines) (hm₃ : m₃.Laid L)
    (hbound : c.Bound host options lines m vs m₃) :
    Passes host options lines L m₃ (fun x => m.scopes.frames.length < x.scopes.frames.length)
      (c.Over host options lines m) := by
  obtain ⟨m₂, hargued, hbelow, _⟩ := hbound.bound
  obtain ⟨S, hS, _, hlower⟩ := hargued.scopes
  rw [hS, Scopes.below_pushAll] at hbelow
  rw [← hbelow] at hlower
  have hcall := (h.code.left.right (b := c.ready) (by
    rw [List.length_cons, length_codeOfAll, ready]; omega)).right (b := m₃.pc) (by
    rw [length_bindParameters, hbound.pc]; rfl)
  have hpasses : Passes host options lines L m₃ _ _ := Passes.call hL hm₃ hcall
  rw [← hlower.length_eq] at hpasses
  refine (hpasses.mono fun x hx => Nat.lt_succ_of_le hx).bind ?_
  rintro m₄ hm₄ ⟨hpc₄, hframes⟩ hpath
  refine .here hm₄ ⟨⟨vs, m₃, hbound, hpath⟩, by rw [hpc₄, hbound.pc]; rfl, forall₂_similar_trans hlower hframes, ?_⟩
  intro hin m₅ hstep
  have hresult := h.code.right (b := m₄.pc) (by
    rw [List.length_append, List.length_cons, length_codeOfAll, Routine.length_enter, hpc₄, hbound.pc, calling, ready]
    omega)
  rw [hin] at hresult
  obtain ⟨hpc₅, given, hgiven, hS₅⟩ := hstep.plain hL hm₄ hresult rfl (show [].length = 0 from rfl) rfl
  obtain ⟨v, rfl⟩ := List.length_eq_one_iff.1 hgiven
  exact ⟨hpc₅, v, hS₅⟩

/-- Every run from the moment where a call is to begin goes through its stages. -/
theorem Stands.stage (h : c.Stands lines R) (hnodup : c.routine.parameters.Nodup) (hL : Describes L lines)
    (hm : m.Laid L) (hpc : m.pc = c.address) (hsteps : ReflTransGen (Step host options lines) m m') :
    c.Stage host options lines m m' := by
  rcases hsteps.cases_head with rfl | ⟨m₁, hstep, hsteps₁⟩
  · exact .begins rfl
  have hopened := h.opened hL hm hpc hstep
  have hdeep : m₁.scopes.below.length = m.scopes.frames.length := by rw [hopened.scopes]; rfl
  have harguments : Passes host options lines L m₁ _ _ :=
    passes_all hL c.arguments h.obeys h.code.left.left.tail hopened.pc (hstep.laid hL hm) hdeep
  rcases harguments m' hsteps₁ with ⟨hpath, hm'⟩ | ⟨m₂, hm₂, ⟨vs, hvs⟩, _, hsteps₂⟩
  · exact .evaluates hopened hpath hm'
  have hargued := hopened.argued hvs
  rcases h.passes_bound hnodup hL hm₂ hargued m' hsteps₂ with ⟨hpath, hm'⟩ | ⟨m₃, hm₃, hbound, _, hsteps₃⟩
  · exact .binds hargued hpath hm'
  rcases h.passes_over hL hm₃ hbound m' hsteps₃ with ⟨hpath, hm'⟩ | ⟨m₄, _, hover, _, hsteps₄⟩
  · exact .inside hbound hpath hm'
  · exact .over hover hsteps₄

end Stages

end CallSite

/-! ## Compiled programs -/

namespace Program

/-- Every compiled program comes from a script whose calls are where it enters scopes. Whenever a run reaches one of
these calls, everything it can come to from there is a stage of the call: its arguments are evaluated one after the
other in a new scope, inside of the scopes that there are; then the parameters are bound to their values in this
scope; then the routine is called; and when the scope of the call has been left, there are the same scopes as before
with the same values on their stacks, and with the same names of the same kinds in the same order, of which only
variables can have other values. If the call is an expression, the next step adds one value to the innermost scope. -/
theorem run_calls (options : Options) (bindings : List (String × Value × Kind)) (source : String) (compiled : Program)
    (hcompile : (sharing options bindings).compile source = (.ok (), compiled)) :
    ∃ body, Grammar.script (.ofString source) options.explicit options.external
        (sharing options bindings).external = .ok body ∧
      (∀ a line, compiled.lines[a]? = some line → line.instruction = .pushScope →
        ∃ c ∈ body.sites 0, c.address = a) ∧
      ∀ c ∈ body.sites 0, c.routine ∈ body.routines 0 ∧ c.arguments.length = c.routine.parameters.length ∧
        CodeAt compiled.lines c.address c.code ∧
        ∀ p, Prepared compiled p → ∀ {σ : Type} (host : Host (StateM σ)) (st : σ) (m m' : Moment σ),
          Reaches host p.options p.lines (starting p.external host st) (host.clock st).2 m.machine m.state m.calls →
          m.pc = c.address → ReflTransGen (Step host p.options p.lines) m m' →
          c.Stage host p.options p.lines m m' := by
  obtain ⟨body, hscript, rfl⟩ := script_of_compile hcompile
  have hobeys := obeys_of_script hscript
  have hsited := body.sited hobeys (codeAt_instructionsOf (body.lines 0))
  refine ⟨body, hscript, ?_, ?_⟩
  · intro a line hline hi
    have hx : (instructionsOf (body.lines 0))[a]? = some line.instruction := by
      rw [instructionsOf, List.getElem?_map, ← List.getElem?_toArray]
      exact congrArg (Option.map Line.instruction) hline
    obtain ⟨c, hc, hat⟩ := hsited.begins a line.instruction hx hi
    exact ⟨c, hc, by rw [hat, Nat.zero_add]⟩
  · intro c hc
    have hstands := hsited.stands c hc
    refine ⟨hstands.routine, hstands.length, hstands.code, ?_⟩
    intro p hp σ host st m m' hreaches hpc hsteps
    have hlines : p.lines = (body.lines 0).toArray := hp.lines
    rw [hlines] at hreaches hsteps ⊢
    have hL := describes_table hscript
    have hstart : Laid body.table (starting p.external host st).config [] := ⟨_, hL.start, trivial, .script⟩
    have hnodup := (body.parameters_of_mem_routines hobeys hstands.routine).2
    exact hstands.stage hnodup hL (hreaches.laid hL hstart) hpc hsteps

/-- A call with a call among its arguments, of a function that is left from inside of a loop. -/
theorem run_calls_nested :
    let source := "FUNCTION F(A, B)\nDO\nF = A\nEXIT FUNCTION\nLOOP\nEND FUNCTION\nDIM X\nX = F(TRUE, F(FALSE, TRUE))"
    let host : Host (StateM Unit) := .indifferent (pure 0)
    ∃ (compiled : Program) (c : CallSite) (m m' : Moment Unit), (sharing {} []).compile source = (.ok (), compiled) ∧
      Prepared compiled compiled ∧
      Reaches host compiled.options compiled.lines (starting compiled.external host ()) () m.machine m.state m.calls ∧
      ReflTransGen (Step host compiled.options compiled.lines) m m' ∧
      m.pc = 10 ∧ c.address = 10 ∧ m'.pc = 28 ∧ c.Stage host compiled.options compiled.lines m m' := by
  intro source host
  have hok : ((sharing {} []).compile source).1.isOk = true := by decide +kernel
  have hsites : ((Grammar.script (.ofString source) true true .empty).toOption.map fun body =>
      (body.sites 0).map CallSite.address) = some [10, 12] := by decide +kernel
  have hsteps : (fun p : Program => ((Moment.mk (starting p.external host ()) () []).after? host p.options p.lines 3).map
      fun m => (m.pc, (m.after? host p.options p.lines 26).map Moment.pc)) ((sharing {} []).compile source).2 =
      some (10, some 28) := by
    decide +kernel
  obtain ⟨compiled, hcompile⟩ := compiled_of_isOk hok
  rw [hcompile] at hsteps
  obtain ⟨m, hm, hlater⟩ := Option.map_eq_some_iff.1 hsteps
  obtain ⟨hpc, hlater⟩ := Prod.mk.inj hlater
  obtain ⟨m', hm', hpc'⟩ := Option.map_eq_some_iff.1 hlater
  obtain ⟨body, hscript, _, hcalls⟩ := run_calls {} [] source compiled hcompile
  -- the outer call is the one whose code begins first
  obtain ⟨c, hc, hat⟩ : ∃ c ∈ body.sites 0, c.address = 10 := by
    have hscript : Grammar.script (.ofString source) true true .empty = .ok body := hscript
    rw [hscript] at hsites
    have haddresses : (body.sites 0).map CallSite.address = [10, 12] := Option.some.inj hsites
    refine List.mem_map.1 ?_
    rw [haddresses]
    exact List.mem_cons_self ..
  have hprepared := prepared_of_compile hcompile
  have hreaches : Reaches host compiled.options compiled.lines (starting compiled.external host ()) ()
      m.machine m.state m.calls :=
    Reaches.steps (m := ⟨starting compiled.external host (), (), []⟩) .start (steps_of_after? hm)
  exact ⟨compiled, c, m, m', hcompile, hprepared, hreaches, steps_of_after? hm', hpc, hat, hpc',
    (hcalls c hc).2.2.2 compiled hprepared host () m m' hreaches (hpc.trans hat.symm) (steps_of_after? hm')⟩

end Program

end MacroBasic
