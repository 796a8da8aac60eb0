/-
What programs share stays in order. Bindings are shared one by one, given values, taken over by copies and worked on by
runs. A property of scopes that each of these keeps holds of what every program shares, whatever has been done with
programs before.
-/
import MacroBasic.Proofs.Machine.Frames
import MacroBasic.Proofs.Program.Lifecycle
import MacroBasic.Proofs.Program.Sharing

namespace MacroBasic

open Machine

/-- A property of scopes that nothing takes away that is done with a scope that is shared. -/
structure Scope.Stable (P : Scope → Prop) : Prop where
  empty : P .empty
  allocate : ∀ {f : Scope} {b : Binding}, b.address = none → P f → P (f.allocate b)
  assign? : ∀ {f f' : Scope} {name : String} {v : Value}, f.assign? name v = some f' → P f → P f'
  unbound : ∀ {f : Scope}, P f → P f.unbound
  clear : ∀ {f : Scope}, P f → P f.clear
  /-- A run works on the scope and gives it back. -/
  worked : ∀ {again : String → Prop} {f f' : Scope}, f.Worked again f' → P f → P f'

namespace Program

variable {p : Program} {σ : Type} {host : Host (StateM σ)} {fuel : Nat} {st st' : σ} {result : Except Fault Unit}
  {after : Program}

/-- A run leaves a program that is not ready as it is. One that is ready it leaves as a run of the machine ends, with
the bindings of the outermost scope. -/
theorem run_leaves (h : p.run host fuel st = (some (result, after), st')) : ¬ p.Ready ∧ after = p ∨ p.Ready ∧
    ∃ o, Machine.run host p.options p.lines fuel (starting p.external host st) (host.clock st).2 = (some o, st') ∧
      after.external = (leaves o).scopes.bottom := by
  by_cases hready : p.Ready
  · obtain ⟨o, hmachine, hfinish⟩ := outcome_of_run hready.1 hready.2 h
    refine .inr ⟨hready, o, hmachine, ?_⟩
    rw [← external_finish p o, hfinish]
  · refine .inl ⟨hready, ?_⟩
    have hafter : (p.run host fuel st).1.map Prod.snd = some after := by
      rw [h]
      rfl
    rcases run_fate hafter with hsame | ⟨hready', _⟩
    · exact hsame
    · exact absurd hready' hready

end Program

namespace Scope.Stable

variable {P : Scope → Prop} {p p' : Program} {op : Operation}

theorem importSet (hP : Stable P) (h : P p.external) (name : String) (v : Value) : P (p.importSet name v).external := by
  unfold Program.importSet
  split
  · rename_i hassign
    exact hP.assign? hassign h
  · exact hP.allocate rfl h

theorem importAll (hP : Stable P) (h : P p.external) (bindings : List (String × Value)) :
    P (p.importAll bindings).external := by
  unfold Program.importAll
  induction bindings generalizing p with
  | nil => exact h
  | cons b bindings ih => exact ih (hP.importSet h b.1 b.2)

/-- Whatever is done with a program, what it shares keeps the property. -/
theorem apply (hP : Stable P) (h : P p.external) (hop : op.apply p = some p') : P p'.external := by
  cases op with
  | run host fuel st =>
    obtain ⟨⟨result, after⟩, hrun, rfl⟩ := Option.map_eq_some_iff.1 hop
    rcases Program.run_leaves (Prod.ext hrun rfl) with ⟨_, rfl⟩ | ⟨_, o, hmachine, hexternal⟩
    · exact h
    · show P after.external
      rw [hexternal]
      exact hP.worked (run_worked hmachine) h
  | compile source =>
    cases hop
    unfold Program.compile
    split <;> exact h
  | retarget index target =>
    cases hop
    unfold Program.retarget
    split
    · split <;> exact h
    · exact h
  | new options => cases hop; exact hP.empty
  | importAdd name v kind => cases hop; exact hP.allocate rfl h
  | importSet name v => cases hop; exact hP.importSet h name v
  | importAll bindings => cases hop; exact hP.importAll h bindings
  | importClear => cases hop; exact hP.clear h
  | clone | setOptions | add | cancel => cases hop; exact h

end Scope.Stable

namespace History

variable {P : Scope → Prop} {deeds : List Deed} {programs : List Program}

/-- Whatever has been done with programs, what each of them shares has the property. -/
theorem external_of_stable (h : History deeds programs) (hP : Scope.Stable P) : ∀ p ∈ programs, P p.external := by
  induction h with
  | start options =>
    intro p hp
    rw [List.mem_singleton.1 hp]
    exact hP.empty
  | @deed deeds programs slot op p p' h hslot hop ih =>
    have hprogram : P p.external := ih p (List.mem_of_getElem? hslot)
    intro q hq
    rcases List.mem_append.1 hq with hq | hq
    · rcases List.mem_or_eq_of_mem_set hq with hq | rfl
      · exact ih q hq
      · exact hP.apply hprogram hop
    · cases op with
      | clone =>
        rw [List.mem_singleton.1 hq]
        exact hP.unbound hprogram
      | _ => cases hq

end History

end MacroBasic
