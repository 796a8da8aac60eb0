/-
Where run-time faults are reported. The place of a fault is the one that the line of its instruction bears, and that
is the beginning of a statement: of the innermost statement that the instruction is code of, unless statements inside
of it stand in front of the instruction. Then it is the beginning of the last one of these.
-/
import MacroBasic.Proofs.Grammar.Origins
import MacroBasic.Proofs.Machine.Blame
import MacroBasic.Proofs.Program.Compiled

namespace MacroBasic

open Machine Grammar

/-- Where no statement inside of its own stands in front of an instruction, the place recorded for it is that of its
own statement. -/
theorem Written.recorded_eq_place {w : Written} {x : Nat} (h : ∀ v ∈ w.inside, x < v.address + v.stmt.size) :
    w.recorded x = w.place := by
  rw [Written.recorded, List.filter_eq_nil_iff.2, lastPlaceOf_nil]
  intro v hv
  have hbehind := h v hv
  simp only [decide_eq_true_eq]
  omega

/-- A place is the one recorded for an address of a script. The instruction there is for exactly one statement, the
innermost one with that instruction in its code, and this statement was read from the text where its place says. The
place recorded is the one of this statement, unless the code of a statement inside of it ends in front of the
instruction. -/
def Block.Blames (body : Block) (text : Symbols) (x : Nat) (p : Position) : Prop :=
  ∃ w ∈ body.written 0, w.Owns x ∧ (∀ w' ∈ body.written 0, w'.Owns x → w' = w) ∧
    WasRead text.ending text.ahead w ∧ p = w.recorded x ∧
    ((∀ v ∈ w.inside, x < v.address + v.stmt.size) → p = w.place)

namespace Program

/-- Every line of a compiled program bears the place recorded for its address. Whenever a run of that program, or of one
with its instructions, ends with a fault, a turn has raised it, and it is reported at the place recorded for the
instruction of that turn. -/
theorem run_blames (options : Options) (bindings : List (String × Value × Kind)) (source : String) (compiled : Program)
    (hcompile : (sharing options bindings).compile source = (.ok (), compiled)) :
    ∃ body, script (.ofString source) options.explicit options.external (sharing options bindings).external =
        .ok body ∧
      (∀ x line, compiled.lines[x]? = some line → body.Blames (.ofString source) x line.position) ∧
      ∀ p : Program, p.lines = compiled.lines → p.state = .idle → p.error = none →
        ∀ {σ : Type} (host : Host (StateM σ)) (st : σ) (fuel : Nat) (f : Fault) (after : Program) (st' : σ),
          p.run host fuel st = (some (.error f, after), st') →
          ∃ M st₁ calls line M',
            Reaches host p.options p.lines (starting p.external host st) (host.clock st).2 M st₁ calls ∧
            p.lines[M.pc]? = some line ∧ turn host p.options line M st₁ = (.error f M', st') ∧
            ∃ place, f.position = some place ∧ body.Blames (.ofString source) M.pc place := by
  obtain ⟨body, hscript, rfl⟩ := script_of_compile hcompile
  have hblames : ∀ x line, (body.lines 0).toArray[x]? = some line →
      body.Blames (.ofString source) x line.position := by
    intro x line hline
    rw [List.getElem?_toArray] at hline
    obtain ⟨w, hw, howns, hunique, hplace⟩ := Block.line_written hline
    exact ⟨w, hw, howns, hunique, script_read hscript w hw, hplace,
      fun h => hplace.trans (Written.recorded_eq_place h)⟩
  refine ⟨body, hscript, hblames, ?_⟩
  intro p hlines hstate herror σ host st fuel f after st' hrun
  change p.lines = (body.lines 0).toArray at hlines
  obtain ⟨o, hmachine, hfinish⟩ := outcome_of_run hstate herror hrun
  -- The run stops at the last of the configurations that it reaches, or a turn there ends with the fault.
  obtain ⟨M, st₁, calls, hreaches, ⟨rfl, _⟩ | ⟨line, f', M', rfl, hline, hturn⟩⟩ :=
    exists_reaches_of_run .start hmachine
  · cases hfinish
  · cases hfinish
    refine ⟨M, st₁, calls, line, M', hreaches, hline, hturn, line.position, turn_place hturn, ?_⟩
    exact hblames _ _ (hlines ▸ hline)

/-- A run that fails in the condition behind a loop, with a statement in the body of the loop. -/
theorem run_blames_condition :
    let source := "DIM a\nDO\nDEBUGCLEAR\nLOOP WHILE a"
    let host : Host (StateM Unit) := .indifferent (pure 0)
    ∃ (body : Block) (compiled : Program) (f : Fault) (after : Program) (x : Nat) (place : Position),
      (sharing {} []).compile source = (.ok (), compiled) ∧ compiled.run host 5 () = (some (.error f, after), ()) ∧
      f.position = some place ∧ body.Blames (.ofString source) x place := by
  intro source host
  have hok : ((sharing {} []).compile source).1.isOk = true := by decide +kernel
  have hfails : (((sharing {} []).compile source).2.run host 5 ()).1.map (·.1.isOk) = some false := by decide +kernel
  obtain ⟨compiled, hcompile⟩ := compiled_of_isOk hok
  rw [hcompile] at hfails
  obtain ⟨f, after, _, hrun⟩ := faulted_of_isOk hfails
  obtain ⟨body, hscript, _, hruns⟩ := run_blames {} [] source compiled hcompile
  obtain ⟨_, _, rfl⟩ := script_of_compile hcompile
  obtain ⟨M, _, _, _, _, _, _, _, place, hplace, hblames⟩ := hruns _ rfl rfl rfl host () 5 f after () hrun
  exact ⟨body, _, f, after, M.pc, place, hcompile, hrun, hplace, hblames⟩

/-- The condition behind a loop is evaluated for the loop, but the line of it bears the place of the last statement in
the body, and so does the fault of a run that fails there. -/
theorem run_blames_body :
    let source := "DIM a\nDO\nDEBUGCLEAR\nLOOP WHILE a"
    let host : Host (StateM Unit) := .indifferent (pure 0)
    (∃ body, script (.ofString source) true true .empty = .ok body ∧
      (∃ w ∈ body.written 0, w.place = ⟨2, 1, 6⟩ ∧ w.Owns 3) ∧
      (body.lines 0)[3]?.map Line.position = some ⟨3, 1, 9⟩) ∧
      ∃ compiled f after, (sharing {} []).compile source = (.ok (), compiled) ∧
        compiled.run host 5 () = (some (.error f, after), ()) ∧ f.position = some ⟨3, 1, 9⟩ := by
  intro source host
  have hlines : ∃ body ∈ (script (.ofString source) true true .empty).toOption,
      (∃ w ∈ body.written 0, w.place = ⟨2, 1, 6⟩ ∧ w.Owns 3) ∧
        (body.lines 0)[3]?.map Line.position = some ⟨3, 1, 9⟩ := by decide +kernel
  have hok : ((sharing {} []).compile source).1.isOk = true := by decide +kernel
  have hplace : (((sharing {} []).compile source).2.run host 5 ()).1.map
      (fun r => match r.1 with | .error f => f.position | .ok _ => none) = some (some ⟨3, 1, 9⟩) := by decide +kernel
  constructor
  · obtain ⟨body, hbody, hw⟩ := hlines
    refine ⟨body, ?_, hw⟩
    generalize script (.ofString source) true true .empty = x at hbody
    cases x with
    | error f => cases hbody
    | ok b =>
      cases hbody
      rfl
  · obtain ⟨compiled, hcompile⟩ := compiled_of_isOk hok
    rw [hcompile] at hplace
    generalize hrun : compiled.run host 5 () = y at hplace
    obtain ⟨ended, _⟩ := y
    rcases ended with _ | ⟨f | _, after⟩
    · cases hplace
    · exact ⟨compiled, f, after, hcompile, hrun, Option.some.inj hplace⟩
    · cases hplace

end Program

end MacroBasic
