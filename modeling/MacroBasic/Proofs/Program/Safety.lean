/-
Compiled programs are safe. There is a table of layouts for every program that the compiler makes, so that no run
of it, under whatever settings and with whatever host, ever lacks an operand or loses its way.
-/
import MacroBasic.Proofs.Grammar.Layout
import MacroBasic.Proofs.Machine.Safety
import MacroBasic.Proofs.Program.Compiled

namespace MacroBasic

open Machine

/-- The layouts of a whole script, with that of its end. -/
def Block.table (body : Block) (a : Address) : Option Layout :=
  (body.layouts 0 .script ++ [.shaped .script])[a]?

namespace Program

section Table

variable {options : Options} {bindings : List (String × Value × Kind)} {source : String} {body : Block}

theorem listsAt_table (body : Block) : ListsAt body.table 0 (body.layouts 0 .script ++ [.shaped .script]) := by
  intro i l hl
  rw [Nat.zero_add]
  exact hl

/-- The table of a compiled script tells the layouts of its lines. -/
theorem describes_table (h : Grammar.script (.ofString source) options.explicit options.external
    (sharing options bindings).external = .ok body) : Describes body.table (body.lines 0).toArray := by
  have hobeys := obeys_of_script h
  have hlaid := (listsAt_table body).left
  have hend : body.table (0 + body.size) = some (.shaped .script) :=
    ((listsAt_table body).right (by rw [body.length_layouts])).first
  have hR : Knows body.table ⟨(· ≠ returnName), (· ∈ body.routines 0)⟩ := by
    refine ⟨fun n hn => hn, fun r hr => body.entries hlaid r hr, ?_⟩
    intro r hr
    exact (body.parameters_of_mem_routines hobeys hr).1
  refine ⟨body.start hlaid hend, ?_, ?_⟩
  · intro a l hl
    have hlt := (List.getElem?_eq_some_iff.1 hl).1
    simp only [List.length_append, body.length_layouts, List.length_singleton] at hlt
    simp only [List.size_toArray, Block.length_lines]
    exact Nat.le_of_lt_succ hlt
  · intro a line hline
    have hx := getElem?_instructionsOf (body.lines 0).toArray a
    rw [hline] at hx
    have hchecked := body.checked hR [] hobeys trivial hlaid hend rfl a line.instruction hx
    rwa [Nat.zero_add] at hchecked

end Table

/-- Every state is safe that a run reaches of a program with the instructions of a compiled one: the compiled
program itself or a copy of it, with its shared bindings as they were or changed. No instruction reaches below the
bottom of the stack of the innermost scope, a loop is left for an address, a routine returns to the address that
the call of its activation has recorded, there always is a scope to go back to, and the address of the next
instruction is never beyond the end. An internal fault that ends a run is that of a stack that is full when the machine
stops. -/
theorem run_safe (options : Options) (bindings : List (String × Value × Kind)) (source : String) (compiled : Program)
    (hcompile : (sharing options bindings).compile source = (.ok (), compiled)) (p : Program)
    (hlines : p.lines = compiled.lines) (hstate : p.state = .idle) (herror : p.error = none) {σ : Type}
    (host : Host (StateM σ)) (st : σ) :
    (∀ M st' calls, Reaches host p.options p.lines (starting p.external host st) (host.clock st).2 M st' calls →
      Safe p.lines M.config calls) ∧
    ∀ fuel f after st', p.run host fuel st = (some (.error f, after), st') → f.code = .internal →
      ∃ M place,
        Machine.run host p.options p.lines fuel (starting p.external host st) (host.clock st).2 =
          (some (.error f M), st') ∧
        (.error f, after) = p.finish (.error f M) ∧ M.scopes.Full ∧ f = M.scopes.overflow.orPlace place := by
  obtain ⟨body, hscript, rfl⟩ := script_of_compile hcompile
  have hL := describes_table hscript
  have hstart : Laid body.table (starting p.external host st).config [] := ⟨_, hL.start, trivial, .script⟩
  change p.lines = (body.lines 0).toArray at hlines
  rw [← hlines] at hL
  refine ⟨fun M st' calls h => (h.laid hL hstart).safe hL, ?_⟩
  intro fuel f after st' hrun hf
  obtain ⟨o, hmachine, hfinish⟩ := outcome_of_run hstate herror hrun
  cases o with
  | ok _ M => cases hfinish
  | error f' M =>
    cases hfinish
    obtain ⟨hfull, place, hover⟩ := run_fault hL hstart hmachine hf
    exact ⟨M, place, hmachine, rfl, hfull, hover⟩

/-- A loop that is left behind a sub that is left from inside of a loop. -/
theorem run_safe_exit :
    let source := "SUB S\nDO\nEXIT SUB\nLOOP\nEND SUB\nDO\nEXIT DO\nLOOP"
    let host : Host (StateM Unit) := .indifferent (pure 0)
    ∃ compiled, (sharing {} []).compile source = (.ok (), compiled) ∧
      ∀ M st calls, Reaches host compiled.options compiled.lines (starting compiled.external host ()) () M st calls →
        Safe compiled.lines M.config calls := by
  intro source host
  have hok : ((sharing {} []).compile source).1.isOk = true := by decide +kernel
  obtain ⟨compiled, hcompile⟩ := compiled_of_isOk hok
  obtain ⟨body, _, rfl⟩ := script_of_compile hcompile
  exact ⟨_, hcompile, (run_safe {} [] source _ hcompile _ rfl rfl rfl host ()).1⟩

end Program

end MacroBasic
