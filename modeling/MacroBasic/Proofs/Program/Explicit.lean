/-
Scripts in which every name has to be declared. The parser wants a declaration before each use of a name in the text,
while a run binds the name only when it comes to the declaration. Where no branch or loop between the two could have
been skipped, the run has come there, whatever routines it has called in whatever order; only a name that is declared
in a branch or in a loop, and used behind it, can be missing.
-/
import MacroBasic.Proofs.Grammar.Grounding
import MacroBasic.Proofs.Machine.Requests
import MacroBasic.Proofs.Program.Scoping

namespace MacroBasic

open Machine

/-! ## The outlooks of a script -/

/-- The outlook before a script that shares the given bindings. -/
def Outlook.outset (shared : Scope) : Outlook := ⟨shared.names.map Binding.name, []⟩

/-- The outlook at each instruction of a whole script. -/
def Block.outlookAt (body : Block) (shared : Scope) (a : Address) : Option Outlook :=
  (body.outlooks (.outset shared))[a]?

/-- Whether a name is in doubt at an address: a branch or a loop before it has declared the name, or the script has
imported it, and nothing else makes it sure to be bound there. -/
def Block.doubts (body : Block) (shared : Scope) (a : Address) (x : String) : Bool :=
  (body.outlookAt shared a).any fun o => x ∈ o.doubtful ∧ x ∉ o.sure

section Outlooks

variable {body : Block} {shared : Scope} {a : Address} {x : String} {o : Outlook}

theorem listsAt_outlookAt (body : Block) (shared : Scope) :
    ListsAt (body.outlookAt shared) 0 (body.outlooks (.outset shared)) := by
  intro i o ho
  rw [Nat.zero_add]
  exact ho

/-- Behind the script nothing is asked of the scopes. -/
theorem sureAt_outlookAt_end (body : Block) (shared : Scope) : sureAt (body.outlookAt shared) (0 + body.size) = [] := by
  have hnone : body.outlookAt shared (0 + body.size) = none :=
    List.getElem?_eq_none (by rw [body.length_outlooks, Nat.zero_add])
  rw [sureAt, hnone]
  rfl

theorem sureAt_outlookAt_start (body : Block) (shared : Scope) :
    sureAt (body.outlookAt shared) 0 ⊆ (Outlook.outset shared).sure := by
  refine body.sureAt_start (listsAt_outlookAt body shared) ?_
  rw [sureAt_outlookAt_end]
  exact List.nil_subset _

theorem doubts_of_knows (ho : body.outlookAt shared a = some o) (hx : o.Knows x) (hsure : x ∉ o.sure) :
    body.doubts shared a x = true := by
  rw [Block.doubts, ho]
  exact decide_eq_true ⟨hx.resolve_left hsure, hsure⟩

/-- Only names are in doubt that the script leaves unsettled. -/
theorem mem_unsettled_of_doubts (h : body.doubts shared a x = true) : x ∈ body.unsettled := by
  obtain ⟨o, ho, hx⟩ := (Option.any_eq_true ..).1 h
  exact body.doubtful_outlooks (List.Subset.refl _) (List.nil_subset _) o (List.mem_of_getElem? ho)
    (of_decide_eq_true hx).1

theorem get?_ne_none_of_mem (h : x ∈ shared.names.map Binding.name) : shared.get? x ≠ none := by
  obtain ⟨b, hb, rfl⟩ := List.mem_map.1 h
  intro hnone
  exact absurd (List.find?_eq_none.1 hnone b hb) (by simp)

/-- Before a script the parser sees the shared names, and no routine. -/
theorem suits_outset (O : Address → Option Outlook) (h : ∀ b ∈ shared.names, b.address = none) :
    (Outlook.outset shared).Suits O (.onBottom shared.unbound) := by
  constructor
  · rintro x ⟨b, hb, _⟩
    -- the scope of the script itself is still empty
    obtain ⟨f, hf, hb⟩ := List.exists_of_findSome?_eq_some hb
    rcases List.mem_cons.1 hf with rfl | hf
    · cases hb
    · rw [List.mem_singleton.1 hf] at hb
      have hname : b.name = x := by simpa using List.find?_some hb
      obtain ⟨b', hb', rfl⟩ := List.mem_map.1 (List.mem_of_find?_eq_some hb)
      exact .inl (List.mem_map.2 ⟨b', hb', hname⟩)
  · rintro r ⟨f, hf, b, hb, hentry, _⟩
    rcases List.mem_cons.1 hf with rfl | hf
    · cases hb
    · rw [List.mem_singleton.1 hf] at hb
      obtain ⟨b', hb', rfl⟩ := List.mem_map.1 hb
      rw [h b' hb'] at hentry
      cases hentry

end Outlooks

namespace Program

section Explicit

variable {options : Options} {bindings : List (String × Value × Kind)} {source : String} {body : Block} {p : Program}

/-- The code of a compiled script keeps to its outlooks. -/
theorem grounded_of_script (hexplicit : options.explicit = true)
    (h : Grammar.script (.ofString source) options.explicit options.external
      (sharing options bindings).external = .ok body) (a : Address) (line : Line)
    (hline : (body.lines 0).toArray[a]? = some line) :
    Grounded (body.lines 0).toArray body.table (body.outlookAt (sharing options bindings).external) a
      line.instruction := by
  have hx : (instructionsOf (body.lines 0))[a]? = some line.instruction := by
    rw [instructionsOf, List.getElem?_map, ← List.getElem?_toArray]
    exact congrArg (Option.map Line.instruction) hline
  rw [hexplicit] at h
  have hend : sureAt (body.outlookAt (sharing options bindings).external) (0 + body.size) ⊆
      (body.outlook (.outset (sharing options bindings).external)).sure := by
    rw [sureAt_outlookAt_end]
    exact List.nil_subset _
  have hgrounded := body.grounded (.outset (sharing options bindings).external) [] (Grammar.script_resolved h)
    (suits_outset _ (address_sharing options bindings)) (fun _ hl => by cases hl)
    (codeAt_instructionsOf (body.lines 0)) (listsAt_table body).left (listsAt_outlookAt body _) hend a
    line.instruction hx
  rwa [Nat.zero_add] at hgrounded

/-- A run begins with all names bound that the script shares. -/
theorem assured_starting {lines : Array Line} (hL : Describes body.table lines) {shared external : Scope}
    (hexternal : ∀ x, shared.get? x ≠ none → external.get? x ≠ none) {σ : Type} (host : Host (StateM σ)) (st : σ) :
    Assured lines body.table (sureAt (body.outlookAt shared)) (starting external host st).config := by
  refine ⟨_, hL.start, .script rfl fun x hx => ?_, fun hne => absurd rfl hne⟩
  have hshared := get?_ne_none_of_mem (sureAt_outlookAt_start body shared hx)
  exact ⟨external, List.mem_cons_of_mem _ (List.mem_singleton.2 rfl), hexternal x hshared⟩

/-- Where a run uses a name, it is bound or in doubt. -/
theorem bound_or_doubts (hexplicit : options.explicit = true)
    (h : Grammar.script (.ofString source) options.explicit options.external
      (sharing options bindings).external = .ok body) (hlines : p.lines = (body.lines 0).toArray)
    (hexternal : ∀ x, (sharing options bindings).external.get? x ≠ none → p.external.get? x ≠ none)
    {σ : Type} {host : Host (StateM σ)} {st st' : σ} {M : Machine} {calls : List Address}
    (hreaches : Reaches host p.options p.lines (starting p.external host st) (host.clock st).2 M st' calls)
    {line : Line} {x : String} (hline : p.lines[M.pc]? = some line) (huses : line.instruction.uses? = some x) :
    M.scopes.get? x ≠ none ∨ body.doubts (sharing options bindings).external M.pc x = true := by
  have hL := describes_table h
  have hgrounded := grounded_of_script hexplicit h
  rw [hlines] at hreaches hline
  have hlaid : Laid body.table (starting p.external host st).config [] := ⟨_, hL.start, trivial, .script⟩
  obtain ⟨l, hl, hassured⟩ := hreaches.assured hL (fun a line hline => (hgrounded a line hline).secures) hlaid
    (assured_starting hL hexternal host st)
  obtain ⟨l', hl', hfits⟩ := hL.fits M.pc line hline
  change body.table M.pc = some l at hl
  rw [hl] at hl'
  cases hl'
  cases l with
  | returned s =>
    rw [hfits.1] at huses
    cases huses
  | shaped s =>
    have hknown {o : Outlook} (ho : body.outlookAt (sharing options bindings).external M.pc = some o)
        (hx : o.Knows x) :
        M.scopes.get? x ≠ none ∨ body.doubts (sharing options bindings).external M.pc x = true := by
      -- what is sure there is bound; what is known there but not sure is in doubt
      by_cases hsure : x ∈ o.sure
      · refine .inl (hassured.1.get?_ne_none ?_)
        show x ∈ sureAt _ M.pc
        rwa [sureAt_eq ho]
      · exact .inr (doubts_of_knows ho hx hsure)
    cases hi : line.instruction with
    | pushVariable y =>
      rw [hi] at huses
      cases huses
      obtain ⟨o, ho, hx⟩ := (hgrounded M.pc line hline).reads x hi
      exact hknown ho hx
    | assign y =>
      rw [hi] at huses
      cases huses
      rcases (hgrounded M.pc line hline).given x hi with ⟨o, ho, hx⟩ | ⟨hready, r, hprepares⟩
      · exact hknown ho hx
      · -- a parameter, which the scope of the call binds
        have htop := hassured.2 (hprepares.waiting_ne_nil hL hl) x hready
        refine .inl fun hnone => htop ?_
        exact List.findSome?_eq_none_iff.1 hnone _ List.mem_cons_self
    | _ =>
      rw [hi] at huses
      cases huses

end Explicit

/-- Where names have to be declared, a compiled script that runs with the bindings that it was compiled with, or others
of the same names, finds every name bound that it reads or gives a value, unless the name is in doubt there: a branch
or a loop before the place has declared it, or the script has imported it. Only of such names does it ask the host,
for a value or to take one over, and only one of them can be the unknown one that ends a run. A script that declares
nothing in branches and loops and imports nothing has no such names. -/
theorem run_explicit (options : Options) (bindings : List (String × Value × Kind)) (source : String)
    (compiled : Program) (hexplicit : options.explicit = true)
    (hcompile : (sharing options bindings).compile source = (.ok (), compiled)) (p : Program)
    (hp : Prepared compiled p) (hexternal : ∀ x, compiled.external.get? x ≠ none → p.external.get? x ≠ none) :
    ∃ body, Grammar.script (.ofString source) options.explicit options.external
        (sharing options bindings).external = .ok body ∧
      (∀ a x, body.doubts compiled.external a x = true → x ∈ body.unsettled) ∧
      ∀ {σ : Type} (host : Host (StateM σ)) (st : σ),
        (∀ m : Moment σ, Reaches host p.options p.lines (starting p.external host st) (host.clock st).2 m.machine
            m.state m.calls → ∀ line x, p.lines[m.pc]? = some line → line.instruction.uses? = some x →
          m.scopes.get? x ≠ none ∨ body.doubts compiled.external m.pc x = true) ∧
        (∀ fuel ended st' log, p.run host.logged fuel (st, []) = (ended, st', log) →
          ∀ e ∈ log, ∀ x, e.request.name? = some x → ∃ a line, p.lines[a]? = some line ∧
            line.instruction.uses? = some x ∧ body.doubts compiled.external a x = true) ∧
        ∀ fuel f after st', p.run host fuel st = (some (.error f, after), st') → f.code = .unknownVariable →
          ∃ a line x, p.lines[a]? = some line ∧ line.instruction = .pushVariable x ∧
            body.doubts compiled.external a x = true := by
  obtain ⟨body, hscript, rfl⟩ := script_of_compile hcompile
  have hlines : p.lines = (body.lines 0).toArray := hp.lines
  have hL := describes_table hscript
  rw [← hlines] at hL
  have hlaid {τ : Type} (host : Host (StateM τ)) (st : τ) : Laid body.table (starting p.external host st).config [] :=
    ⟨_, hL.start, trivial, .script⟩
  have hbound {τ : Type} {host : Host (StateM τ)} {st st' : τ} {M : Machine} {calls : List Address}
      (hreaches : Reaches host p.options p.lines (starting p.external host st) (host.clock st).2 M st' calls)
      {line : Line} {x : String} (hline : p.lines[M.pc]? = some line) (huses : line.instruction.uses? = some x) :=
    bound_or_doubts hexplicit hscript hlines hexternal hreaches hline huses
  refine ⟨body, hscript, fun a x => mem_unsettled_of_doubts, fun {σ} host st => ⟨?_, ?_, ?_⟩⟩
  · intro m hreaches line x hline huses
    exact hbound hreaches hline huses
  · intro fuel ended st' log hrun e he x hx
    obtain ⟨o, hmachine, -⟩ := machine_of_run hp.state hp.error hrun
    -- a name is asked about only where it is used and not bound, so where it is in doubt
    obtain ⟨events, hspeaks, hasks⟩ := run_asks hL (hlaid host.logged (st, [])) .start hmachine
    have hlog : log = [] ++ events := hspeaks.logged
    rw [hlog] at he
    obtain ⟨M, st₁, calls, line, hreaches, hline, huses, hnone⟩ := hasks e he x hx
    exact ⟨M.pc, line, hline, huses, (hbound hreaches hline huses).resolve_left fun hsome => hsome hnone⟩
  · intro fuel f after st' hrun hf
    obtain ⟨o, hmachine, hfinish⟩ := outcome_of_run hp.state hp.error hrun
    cases o with
    | ok _ M => cases hfinish
    | error f' M =>
      cases hfinish
      obtain ⟨M, st₂, calls, line, x, hreaches, hline, hi, hnone⟩ := run_unknown hL (hlaid host st) hmachine hf
      have huses : line.instruction.uses? = some x := by rw [hi]; rfl
      exact ⟨M.pc, line, x, hline, hi, (hbound hreaches hline huses).resolve_left fun hsome => hsome hnone⟩

/-- A variable that a loop declares, and that is used only in the loop and in the condition at its end: the script
never asks for it, nor for the shared one, whatever the host does. -/
theorem run_explicit_loop :
    let source := "SUB S(N)\nDO\nDIM X\nX = N\nLOOP WHILE X = Y\nDEBUGPRINT N\nEND SUB\nS FALSE"
    let bindings : List (String × Value × Kind) := [("Y", .boolean true, .variable)]
    ∃ (compiled : Program) (body : Block), (sharing {} bindings).compile source = (.ok (), compiled) ∧
      Prepared compiled compiled ∧
      Grammar.script (.ofString source) true true (sharing {} bindings).external = .ok body ∧
      body.unsettled = ["X"] ∧
      ∀ (host : Host (StateM Unit)) fuel ended log, compiled.run host.logged fuel ((), []) = (ended, (), log) →
        ∀ e ∈ log, e.request.name? = none := by
  intro source bindings
  have hscript : (Grammar.script (.ofString source) true true (sharing {} bindings).external).toOption.map (fun body =>
      (body.unsettled, (body.lines 0).zipIdx.all fun l => l.1.instruction.uses?.all fun x =>
        !body.doubts (sharing {} bindings).external l.2 x)) = some (["X"], true) := by
    decide +kernel
  obtain ⟨body, hscript, hchecked⟩ := Option.map_eq_some_iff.1 hscript
  obtain ⟨hunsettled, hsettled⟩ := Prod.mk.inj hchecked
  have hscript : Grammar.script (.ofString source) true true (sharing {} bindings).external = .ok body := by
    generalize Grammar.script (.ofString source) true true (sharing {} bindings).external = parsed at hscript
    cases parsed with
    | ok body' => cases hscript; rfl
    | error f => cases hscript
  have hcompile : (sharing {} bindings).compile source = (.ok (), ofScript {} (sharing {} bindings).external body) :=
    compile_of_script hscript
  have hprepared := prepared_of_compile hcompile
  obtain ⟨body', hscript', _, hruns⟩ := run_explicit {} bindings source _ rfl hcompile _ hprepared fun _ hx => hx
  cases hscript.symm.trans hscript'
  refine ⟨_, body, hcompile, hprepared, hscript, hunsettled, fun host fuel ended log hrun e he => ?_⟩
  cases hname : e.request.name? with
  | none => rfl
  | some x =>
    obtain ⟨a, line, hline, huses, hdoubts⟩ := (hruns host ()).2.1 fuel ended () log hrun e he x hname
    have hat : (line, a) ∈ (body.lines 0).zipIdx := by
      rw [List.mem_zipIdx_iff_getElem?, ← List.getElem?_toArray]
      exact hline
    have hsure := List.all_eq_true.1 hsettled (line, a) hat
    simp only [huses, Option.all_some] at hsure
    rw [show body.doubts (sharing {} bindings).external a x = true from hdoubts] at hsure
    cases hsure

/-- Whether a request is to take over a value of a name. -/
def handsOver (x : String) : Request → Bool
  | .assign y _ => x == y
  | _ => false

theorem assign_of_handsOver {x : String} {r : Request} (h : handsOver x r = true) : ∃ v, r = .assign x v := by
  cases r with
  | assign y v => exact ⟨v, by rw [beq_iff_eq.1 h]⟩
  | _ => cases h

/-- A declaration in a branch that is skipped binds no name. The parser takes the assignment behind the branch, but the
run asks the host to take over the value. -/
theorem run_explicit_skipped :
    let source := "IF FALSE THEN\nDIM X\nEND IF\nX = TRUE\nDEBUGPRINT X"
    let host : Host (StateM Unit) := .indifferent (pure 0)
    (∀ s ∈ (Symbols.ofString source).ahead, s.token ≠ .word .external) ∧
      ∃ compiled, (sharing {} []).compile source = (.ok (), compiled) ∧ Prepared compiled compiled ∧
        ∃ e ∈ (compiled.run host.logged 20 ((), [])).2.2, ∃ v, e.request = .assign "X" v := by
  intro source host
  have hwords : ((Symbols.ofString source).ahead.all fun s => decide (s.token ≠ .word .external)) = true := by
    decide +kernel
  have hlog : ((((sharing {} []).compile source).2.run host.logged 20 ((), [])).2.2.any fun e =>
      handsOver "X" e.request) = true := by
    decide +kernel
  have hok : ((sharing {} []).compile source).1.isOk = true := by decide +kernel
  refine ⟨fun s hs => of_decide_eq_true (List.all_eq_true.1 hwords s hs), ?_⟩
  obtain ⟨compiled, hcompile⟩ := compiled_of_isOk hok
  rw [hcompile] at hlog
  obtain ⟨e, he, hrequest⟩ := List.any_eq_true.1 hlog
  exact ⟨compiled, hcompile, prepared_of_compile hcompile, e, he, assign_of_handsOver hrequest⟩

end Program

end MacroBasic
