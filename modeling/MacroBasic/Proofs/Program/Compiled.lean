/-
Programs made by sharing bindings and compiling a source. Their scripts obey the rules, no name in them is
the one under which calls record where to return to, and running them is running the machine on their lines.
-/
import MacroBasic.Program
import MacroBasic.Proofs.Grammar.Script

namespace MacroBasic

/-! ## Names in a text -/

namespace Scanner

/-- No name begins with a tilde, so none is that of a return address. -/
theorem symbol_name {ch : Char} {c d : Cursor} {s : Symbol} (h : symbol ch c = .ok s d) (ht : s.token = .name) :
    s.text ≠ Machine.returnName := by
  unfold symbol at h
  simp only at h
  split at h
  · rename_i token hsingle
    cases h
    -- a character that is a symbol by itself is no name
    unfold single? at hsingle
    split at hsingle <;> cases hsingle <;> cases ht
  · rename_i hsingle
    split at h
    · split at h <;> cases h
      cases ht
    · split at h
      · split at h <;> cases h <;> cases ht
      · split at h
        · split at h <;> cases h
          cases ht
        · split at h
          · split at h
            · cases h
            · split at h <;> cases h
              cases ht
          · split at h
            · split at h <;> cases h
              intro htext
              have hchars := congrArg String.toList htext
              rw [String.toList_ofList] at hchars
              injection hchars with hch
              subst hch
              cases hsingle
            · cases h

theorem scan_name {c : Cursor} {s : Symbol} (hs : s ∈ (scan c).ahead) (ht : s.token = .name) :
    s.text ≠ Machine.returnName := by
  fun_induction scan c with
  | case1 => cases hs
  | case2 => cases hs
  | case3 => cases hs
  | case4 c ch after hblanks first behind hsymbol _ _ more ih =>
    rcases List.mem_cons.1 hs with rfl | hs
    · exact symbol_name hsymbol ht
    · exact ih hs

end Scanner

namespace Program

/-! ## Shared bindings -/

/-- A program with the given settings that shares the given bindings. -/
def sharing (options : Options) (bindings : List (String × Value × Kind)) : Program :=
  bindings.foldl (fun p (name, v, kind) => p.importAdd name v kind) (.new options)

section Sharing

variable (options : Options) (bindings : List (String × Value × Kind))

/-- Sharing bindings sets nothing else. -/
theorem sharing_eq : sharing options bindings =
    { new options with external := (sharing options bindings).external } := by
  unfold sharing
  generalize new options = p
  induction bindings generalizing p with
  | nil => rfl
  | cons b bindings ih => exact ih (p.importAdd b.1 b.2.1 b.2.2)

/-- No shared binding is that of a routine with an address. -/
theorem address_sharing : ∀ b ∈ (sharing options bindings).external.names, b.address = none := by
  have all (p : Program) (hp : ∀ b ∈ p.external.names, b.address = none) :
      ∀ b ∈ (bindings.foldl (fun p (name, v, kind) => p.importAdd name v kind) p).external.names,
        b.address = none := by
    induction bindings generalizing p with
    | nil => exact hp
    | cons x bindings ih =>
      refine ih (p.importAdd x.1 x.2.1 x.2.2) fun y hy => ?_
      rcases Scope.mem_put hy with rfl | hy
      · rfl
      · exact hp y hy
  exact all (new options) nofun

end Sharing

/-! ## Compiled programs -/

section Compiled

variable {options : Options} {bindings : List (String × Value × Kind)} {source : String}

/-- The program that a script becomes. -/
def ofScript (options : Options) (external : Scope) (body : Block) : Program where
  lines := (body.lines 0).toArray
  external := external
  options := options

theorem compile_of_script {body : Block} (h : Grammar.script (.ofString source) options.explicit options.external
    (sharing options bindings).external = .ok body) :
    (sharing options bindings).compile source =
      (.ok (), ofScript options (sharing options bindings).external body) := by
  unfold compile compileLines
  rw [sharing_eq] at h ⊢
  simp only [new] at h ⊢
  rw [h]
  rfl

/-- A source that compiles has been parsed to a script. -/
theorem script_of_compile {p : Program} (h : (sharing options bindings).compile source = (.ok (), p)) :
    ∃ body, Grammar.script (.ofString source) options.explicit options.external
      (sharing options bindings).external = .ok body ∧ p = ofScript options (sharing options bindings).external body := by
  cases hs : Grammar.script (.ofString source) options.explicit options.external
      (sharing options bindings).external with
  | ok body =>
    rw [compile_of_script hs] at h
    cases h
    exact ⟨body, rfl, rfl⟩
  | error f =>
    unfold compile compileLines at h
    rw [sharing_eq] at h hs
    simp only [new] at h hs
    rw [hs] at h
    cases h

/-- A compilation that succeeds gives a program. -/
theorem compiled_of_isOk {p : Program} (h : (p.compile source).1.isOk = true) :
    ∃ compiled, p.compile source = (.ok (), compiled) := by
  cases hcompile : p.compile source with
  | mk result compiled =>
    rw [hcompile] at h
    cases result with
    | error f => cases h
    | ok _ => exact ⟨compiled, rfl⟩

/-- A compiled script gives values to no return address and calls only what it defines. -/
theorem obeys_of_script {body : Block} (h : Grammar.script (.ofString source) options.explicit options.external
    (sharing options bindings).external = .ok body) :
    body.Obeys ⟨(· ≠ Machine.returnName), (· ∈ body.routines 0)⟩ [] false :=
  Grammar.script_obeys h (address_sharing options bindings)
    (fun _ hsym htoken => Scanner.scan_name hsym htoken) fun _ hx => hx

end Compiled

/-! ## Programs that are ready to run -/

/-- A program is ready to run the instructions of a compiled one: it is that program itself or a copy of it, with
its shared bindings as they were or changed. Shared bindings come without values that have no name. -/
structure Prepared (compiled p : Program) : Prop where
  lines : p.lines = compiled.lines
  state : p.state = .idle
  error : p.error = none
  stack : p.external.stack = .empty

section Prepared

variable {p : Program}

theorem stack_sharing (options : Options) (bindings : List (String × Value × Kind)) :
    (sharing options bindings).external.stack = .empty := by
  have all (p : Program) : (bindings.foldl (fun p (name, v, kind) => p.importAdd name v kind) p).external.stack =
      p.external.stack := by
    induction bindings generalizing p with
    | nil => rfl
    | cons b bindings ih => exact ih (p.importAdd b.1 b.2.1 b.2.2)
  exact all (new options)

/-- A compiled program is ready to run. -/
theorem prepared_of_compile {options : Options} {bindings : List (String × Value × Kind)} {source : String}
    (h : (sharing options bindings).compile source = (.ok (), p)) : Prepared p p := by
  obtain ⟨body, _, rfl⟩ := script_of_compile h
  exact ⟨rfl, rfl, rfl, stack_sharing options bindings⟩

end Prepared

/-- The machine that a run begins with, given the shared bindings. -/
def starting {σ : Type} (external : Scope) (host : Host (StateM σ)) (st : σ) : Machine where
  scopes := .onBottom external
  started := (host.clock st).1

section Ready

variable {p : Program} (hstate : p.state = .idle) (herror : p.error = none) {σ : Type} {host : Host (StateM σ)}
  {fuel : Nat} {st st' : σ}

include hstate herror

/-- A run of a program that is ready for it is a run of the machine. -/
theorem run_ready (host : Host (StateM σ)) (fuel : Nat) (st : σ) :
    p.run host fuel st =
      let (o, st') := Machine.run host p.options p.lines fuel (starting p.external host st) (host.clock st).2
      (o.map p.finish, st') := by
  unfold run
  rw [if_neg (by rw [hstate]; decide), herror]
  rfl

/-- What a run gives is made of what the machine gives, and the host is left as the machine leaves it. -/
theorem machine_of_run {ended : Option (Except Fault Unit × Program)} (h : p.run host fuel st = (ended, st')) :
    ∃ o, Machine.run host p.options p.lines fuel (starting p.external host st) (host.clock st).2 = (o, st') ∧
      ended = o.map p.finish := by
  rw [run_ready hstate herror] at h
  obtain ⟨hended, hst⟩ := Prod.mk.inj h
  exact ⟨_, Prod.ext rfl hst, hended.symm⟩

/-- A run that comes to an end has an outcome of the machine, and its result is made of that one. -/
theorem outcome_of_run {ended : Except Fault Unit × Program} (h : p.run host fuel st = (some ended, st')) :
    ∃ o, Machine.run host p.options p.lines fuel (starting p.external host st) (host.clock st).2 = (some o, st') ∧
      p.finish o = ended := by
  obtain ⟨o, hmachine, hended⟩ := machine_of_run hstate herror h
  obtain ⟨o, rfl, hfinish⟩ := Option.map_eq_some_iff.1 hended.symm
  exact ⟨o, hmachine, hfinish⟩

end Ready

section Ends

variable {σ : Type} {x : Option (Except Fault Unit × Program) × σ}

/-- A run that completes gives a program back. -/
theorem completed_of_isOk (h : x.1.map (·.1.isOk) = some true) : ∃ after st, x = (some (.ok (), after), st) := by
  obtain ⟨ended, st⟩ := x
  obtain ⟨⟨result, after⟩, rfl, hresult⟩ := Option.map_eq_some_iff.1 h
  cases result with
  | error f => cases hresult
  | ok _ => exact ⟨after, st, rfl⟩

/-- A run that does not complete ends with a fault. -/
theorem faulted_of_isOk (h : x.1.map (·.1.isOk) = some false) : ∃ f after st, x = (some (.error f, after), st) := by
  obtain ⟨ended, st⟩ := x
  obtain ⟨⟨result, after⟩, rfl, hresult⟩ := Option.map_eq_some_iff.1 h
  cases result with
  | error f => exact ⟨f, after, st, rfl⟩
  | ok _ => cases hresult

end Ends

end Program

end MacroBasic
