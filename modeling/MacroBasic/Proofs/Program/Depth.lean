/-
Stacks of compiled programs. How many values the innermost scope holds is a matter of the instructions alone: it
is the same number each time that a run comes to an address, whatever loops, exits and calls it has been through.
So a run that comes to the end leaves nothing on a stack.
-/
import MacroBasic.Proofs.Machine.Depth
import MacroBasic.Proofs.Program.Safety

namespace MacroBasic

open Machine

namespace Program

theorem table_end (body : Block) : body.table body.size = some (.shaped .script) := by
  have hend := ((listsAt_table body).right (b := 0 + body.size) (by rw [body.length_layouts])).first
  rwa [Nat.zero_add] at hend

section Completion

variable {options : Options} {bindings : List (String × Value × Kind)} {source : String} {body : Block}

/-- At the end of a script there are the script's own scope and the shared one, and neither holds values. -/
theorem frames_of_end (hscript : Grammar.script (.ofString source) options.explicit options.external
      (sharing options bindings).external = .ok body) {p : Program} (hlines : p.lines = (body.lines 0).toArray)
    (hstack : p.external.stack = .empty) {σ : Type} {host : Host (StateM σ)} {st st' : σ} {M : Machine}
    {calls : List Address}
    (hreaches : Reaches host p.options p.lines (starting p.external host st) (host.clock st).2 M st' calls)
    (hend : p.lines[M.pc]? = none) : M.scopes.frames = [M.scopes.top, M.scopes.bottom] ∧
      M.scopes.top.stack.items = [] ∧ M.scopes.bottom.stack.items = [] := by
  have hL := describes_table hscript
  rw [← hlines] at hL
  have hstart : Laid body.table (starting p.external host st).config [] := ⟨_, hL.start, trivial, .script⟩
  have hlaid := hreaches.laid hL hstart
  have hpc : M.pc = body.size := by
    have hwithin : M.pc ≤ p.lines.size := (hlaid.safe hL).within
    have hbeyond := Array.getElem?_eq_none_iff.1 hend
    rw [hlines, List.size_toArray, Block.length_lines] at hwithin hbeyond
    exact Nat.le_antisymm hwithin hbeyond
  obtain ⟨l, hl, hS⟩ := hlaid
  rw [show M.config.pc = body.size from hpc, table_end] at hl
  cases hl
  obtain ⟨hitems, haround⟩ := hS
  have hitems : M.scopes.items = [] := List.eq_nil_of_length_eq_zero hitems.length_eq
  obtain ⟨external, hbelow⟩ : ∃ external, M.scopes.below = [external] := by
    change Around body.table false [] (returnOf M.scopes.top) M.scopes.below calls at haround
    generalize M.scopes.below = below at haround
    cases haround with
    | script => exact ⟨_, rfl⟩
  have hbottom : M.scopes.bottom = external := by
    rw [Scopes.bottom, hbelow]
    rfl
  rw [hbottom]
  refine ⟨congrArg (M.scopes.top :: ·) hbelow, hitems, ?_⟩
  have hsimilar := (hreaches.retains hL hstart rfl).similar (by rw [hbelow]; rfl)
  rw [hbelow] at hsimilar
  cases hsimilar with
  | cons h _ => rw [h.1, hstack]; rfl

end Completion

/-- For every compiled program there is one number for each address, found from the instructions alone and at most
as large as their number. In every state that a run reaches, the innermost scope holds as many values as the number
for the address says; only the scope of a call that has returned can hold others, when it is to be left next. The
machine of a run that completes stops behind the last instruction. It has two scopes then, that of the script and the
shared one, which the program gets back, and neither holds values. -/
theorem run_depth (options : Options) (bindings : List (String × Value × Kind)) (source : String) (compiled : Program)
    (hcompile : (sharing options bindings).compile source = (.ok (), compiled)) :
    let code := instructionsOf compiled.lines.toList
    (∀ a, depthAt code a ≤ code.length) ∧
    ∀ p, Prepared compiled p → ∀ {σ : Type} (host : Host (StateM σ)) (st : σ),
      (∀ M st' calls, Reaches host p.options p.lines (starting p.external host st) (host.clock st).2 M st' calls →
        M.scopes.items.length = depthAt code M.pc ∨
          ∃ a b, M.pc = a + 1 ∧ code[a]? = some (.call b) ∧ code[a + 1]? = some .popScope) ∧
      ∀ fuel after st', p.run host fuel st = (some (.ok (), after), st') →
        ∃ M calls script,
          Machine.run host p.options p.lines fuel (starting p.external host st) (host.clock st).2 =
            (some (.ok () M), st') ∧
          Reaches host p.options p.lines (starting p.external host st) (host.clock st).2 M st' calls ∧
          p.lines[M.pc]? = none ∧ (.ok (), after) = p.finish (.ok () M) ∧
          M.scopes.frames = [script, after.external] ∧ script.stack.items = [] ∧ after.external.stack.items = [] := by
  obtain ⟨body, hscript, rfl⟩ := script_of_compile hcompile
  intro code
  refine ⟨depthAt_le code, fun p hp σ host st => ?_⟩
  have hlines : p.lines = (body.lines 0).toArray := hp.lines
  refine ⟨fun M st' calls hreaches => ?_, fun fuel after st' hrun => ?_⟩
  · have hL := describes_table hscript
    rw [← hlines] at hL
    -- no call has returned at the end, so the one exception is in front of it
    have hend : ∀ t, body.table p.lines.size ≠ some (.returned t) := by
      intro t ht
      rw [hlines, List.size_toArray, Block.length_lines, table_end] at ht
      cases ht
    have hstart : Shape.script.Stands (foundIn body.table (instructionsOf p.lines.toList))
        (starting p.external host st).scopes [] := ⟨trivial, .script⟩
    have hdepth := hreaches.depth hL hend rfl hstart
    rwa [hlines] at hdepth
  · obtain ⟨o, hmachine, hfinish⟩ := outcome_of_run hp.state hp.error hrun
    obtain ⟨M, st₁, calls, hreaches, ⟨rfl, hend, rfl⟩ | ⟨line, f, M', rfl, _⟩⟩ := exists_reaches_of_run .start hmachine
    · have hframes := frames_of_end hscript hlines hp.stack hreaches hend
      cases hfinish
      exact ⟨M, calls, M.scopes.top, hmachine, hreaches, hend, rfl, hframes⟩
    · cases hfinish

/-- A loop that is left when a function says so, which is itself left from inside of a loop. -/
theorem run_depth_loops :
    let source := "FUNCTION F(N)\nDO\nF = N\nEXIT FUNCTION\nLOOP\nEND FUNCTION\nDO\nIF F(TRUE) THEN\nEXIT DO\nEND IF\nLOOP"
    let host : Host (StateM Unit) := .indifferent (pure 0)
    ∃ compiled after, (sharing {} []).compile source = (.ok (), compiled) ∧ Prepared compiled compiled ∧
      compiled.run host 40 () = (some (.ok (), after), ()) ∧ ∃ M calls script,
        Machine.run host compiled.options compiled.lines 40 (starting compiled.external host ()) () =
          (some (.ok () M), ()) ∧
        Reaches host compiled.options compiled.lines (starting compiled.external host ()) () M () calls ∧
        compiled.lines[M.pc]? = none ∧ (.ok (), after) = compiled.finish (.ok () M) ∧
        M.scopes.frames = [script, after.external] ∧ script.stack.items = [] ∧ after.external.stack.items = [] := by
  intro source host
  have hok : ((sharing {} []).compile source).1.isOk = true := by decide +kernel
  have hran : (((sharing {} []).compile source).2.run host 40 ()).1.map (·.1.isOk) = some true := by decide +kernel
  obtain ⟨compiled, hcompile⟩ := compiled_of_isOk hok
  rw [hcompile] at hran
  obtain ⟨after, _, hrun⟩ := completed_of_isOk hran
  have hprepared := prepared_of_compile hcompile
  exact ⟨compiled, after, hcompile, hprepared, hrun,
    ((run_depth {} [] source compiled hcompile).2 compiled hprepared host ()).2 40 after () hrun⟩

end Program

end MacroBasic
