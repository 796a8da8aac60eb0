/-
What a compilation changes and what it depends on. To parse a text and then to lay out its tree comes to the same as
to write the instructions while the text is read. A compilation replaces the instructions of a program and what has
become of it, and nothing else. Its result depends on the source, on the rules for names and on the kinds of the
shared bindings, whatever has been done with the program before. A source that compiles under strict rules compiles
to the same instructions where the rules allow more.
-/
import MacroBasic.Proofs.Compiler.Statement
import MacroBasic.Proofs.Program.Branches
import MacroBasic.Proofs.Symbol.Pushback

namespace MacroBasic

open Grammar

/-! ## Shared bindings -/

namespace Scope

theorem get?_unbound (f : Scope) (name : String) :
    f.unbound.get? name = (f.get? name).map fun b => { b with value := .uninitialized } := by
  unfold get? unbound
  simp only [List.find?_map]
  rfl

/-- A binding without an address, as the parser asks about it. -/
theorem outline_of_unaddressed {f : Scope} (h : f.Unaddressed) {name : String} {b : Binding}
    (hb : f.get? name = some b) : b.outline = (b.kind, none) := by
  unfold Binding.outline
  rw [h b (List.mem_of_find?_eq_some hb)]
  rfl

/-- Shared bindings of the same names and kinds stand for each other. -/
theorem frames_of_kinds {f g : Scope} (hf : f.Unaddressed) (hg : g.Unaddressed)
    (h : ∀ name, (f.get? name).map Binding.kind = (g.get? name).map Binding.kind) :
    (Likeness.identical False).Frames f.unbound g.unbound := by
  intro name
  have hkind := h name
  rw [get?_unbound, get?_unbound]
  cases hb : f.get? name with
  | none =>
    rw [hb] at hkind
    rw [Option.map_eq_none_iff.1 hkind.symm]
    exact .none
  | some b =>
    rw [hb] at hkind
    obtain ⟨c, hc, hkind⟩ := Option.map_eq_some_iff.1 hkind.symm
    rw [hc]
    refine .some ?_
    show b.outline = c.outline
    rw [outline_of_unaddressed hf hb, outline_of_unaddressed hg hc, hkind]

end Scope

namespace Program

/-! ## Compiling in place -/

/-- Replaces the instructions by those of a source text, which are written while the text is read from a stream. What
has been written is dropped if that fails. -/
def compileInPlace (source : String) (p : Program) : Except Fault Unit × Program :=
  let cleared := { p with lines := #[], state := .idle, error := none }
  match Compiler.script (Stream.ofString source).symbols p.options.explicit p.options.external p.external
      ⟨cleared, .zero⟩ with
  | .ok (_, d) => (.ok (), d.program)
  | .error f => (.error f, { cleared with error := some f })

theorem compileInPlace_eq (source : String) (p : Program) : p.compileInPlace source = p.compile source := by
  have hsymbols : (Stream.ofString source).symbols = .ofString source := Stream.symbols_eq_scan _
  unfold compileInPlace compile compileLines
  rw [hsymbols]
  dsimp only
  rw [Compiler.script_eq _ _ _ _ _ rfl]
  cases script (.ofString source) p.options.explicit p.options.external p.external with
  | error f => rfl
  | ok body =>
    show (Except.ok (), { p with lines := #[] ++ (body.lines 0).toArray, state := .idle, error := none }) = _
    rw [Array.empty_append]
    rfl

/-! ## What a compilation changes -/

/-- A compilation has not changed what is shared, the settings or whether cancelling has been asked for. It has left
a program that can be run, or no instructions and the fault that it has raised. -/
structure Replaced (p : Program) (result : Except Fault Unit) (after : Program) : Prop where
  external : after.external = p.external
  options : after.options = p.options
  cancelled : after.cancelled = p.cancelled
  idle : after.state = .idle
  settled : result = .ok () ∧ after.error = none ∨ ∃ f, result = .error f ∧ after.lines = #[] ∧ after.error = some f

theorem replaced_compile (p : Program) (source : String) : p.Replaced (p.compile source).1 (p.compile source).2 := by
  unfold compile
  split
  · exact ⟨rfl, rfl, rfl, rfl, .inl ⟨rfl, rfl⟩⟩
  · exact ⟨rfl, rfl, rfl, rfl, .inr ⟨_, rfl, rfl, rfl⟩⟩

/-! ## What a compilation depends on -/

/-- Two compilations with the same result and the same instructions at the same places. -/
def SameResult (x y : Except Fault Unit × Program) : Prop := x.1 = y.1 ∧ x.2.lines = y.2.lines

theorem sameResult_of_lines {p q : Program} {source : String}
    (h : compileLines p.options p.external source = compileLines q.options q.external source) :
    SameResult (p.compile source) (q.compile source) := by
  unfold compile
  rw [h]
  cases compileLines q.options q.external source <;> exact ⟨rfl, rfl⟩

/-- Whatever has been done with two programs before, a compilation changes nothing but their instructions and what
has become of them, also where it writes into them while it reads. Its result is the same for both if their rules for
names and the kinds of what they share are the same. -/
theorem compile_atomic {deeds deeds' : List Deed} {programs programs' : List Program} (h : History deeds programs)
    (h' : History deeds' programs') {p q : Program} (hp : p ∈ programs) (hq : q ∈ programs') (source : String) :
    p.compileInPlace source = p.compile source ∧ p.Replaced (p.compile source).1 (p.compile source).2 ∧
      (p.options.explicit = q.options.explicit → p.options.external = q.options.external →
        (∀ name, (p.external.get? name).map Binding.kind = (q.external.get? name).map Binding.kind) →
        SameResult (p.compile source) (q.compile source)) := by
  refine ⟨p.compileInPlace_eq source, p.replaced_compile source, fun hexplicit hexternal hkinds => ?_⟩
  refine sameResult_of_lines ?_
  -- the text is the same, so only the shared bindings can tell the two parses apart
  have hframes := Scope.frames_of_kinds (h.unaddressed p hp) (h'.unaddressed q hq) hkinds
  have hscript := Likeness.script_eq (Likeness.identical_texts False (.ofString source)) p.options.explicit
    p.options.external hframes
  unfold compileLines
  rw [hscript, hexplicit, hexternal]

/-- A new program and one whose last source was refused, each with a constant of its own. -/
theorem compile_atomic_refused :
    let new : Program := .new {}
    let p := new.importAdd "K" (.text "a") .constant
    let given := new.importAdd "K" (.boolean true) .constant
    let q := (given.compile "DIM X\nX = K +").2
    let source := "DIM X\nX = K\nDEBUGPRINT X"
    q.error.isSome = true ∧ (p.compile source).1.isOk = true ∧ p.compileInPlace source = p.compile source ∧
      p.Replaced (p.compile source).1 (p.compile source).2 ∧ SameResult (p.compile source) (q.compile source) := by
  intro new p given q source
  have hp : History [⟨0, .importAdd "K" (.text "a") .constant, new, p⟩] [p] := (History.start _).deed rfl rfl
  have hgiven : History [⟨0, .importAdd "K" (.boolean true) .constant, new, given⟩] [given] :=
    (History.start _).deed rfl rfl
  have hq : History [⟨0, .importAdd "K" (.boolean true) .constant, new, given⟩,
      ⟨0, .compile "DIM X\nX = K +", given, q⟩] [q] := hgiven.deed rfl rfl
  have hgiven : q.options = given.options ∧ q.external = given.external :=
    ⟨(given.replaced_compile _).options, (given.replaced_compile _).external⟩
  have hkinds (name : String) :
      (p.external.get? name).map Binding.kind = (q.external.get? name).map Binding.kind := by
    rw [hgiven.2]
    by_cases hname : name = "K"
    · subst hname
      rfl
    · have hne : "K" ≠ name := Ne.symm hname
      rw [show p.external.get? name = _ from Scope.get?_allocate_of_ne hne _,
        show given.external.get? name = _ from Scope.get?_allocate_of_ne hne _]
  obtain ⟨hplace, hreplaced, hsame⟩ :=
    compile_atomic hp hq (List.mem_singleton.2 rfl) (List.mem_singleton.2 rfl) source
  exact ⟨by decide +kernel, by decide +kernel, hplace, hreplaced,
    hsame (congrArg Options.explicit hgiven.1).symm (congrArg Options.external hgiven.1).symm hkinds⟩

/-! ## Relaxed rules -/

/-- The program with other rules for names. -/
def withRules (explicit external : Bool) (p : Program) : Program :=
  { p with options := { p.options with explicit := explicit, external := external } }

theorem compile_withRules {p compiled : Program} {source : String} {explicit explicit' external external' : Bool}
    (h : (p.withRules explicit external).compile source = (.ok (), compiled))
    (hexplicit : explicit = explicit' ∨ explicit' = false) (hexternal : external = external' ∨ external' = true) :
    ∃ relaxed, (p.withRules explicit' external').compile source = (.ok (), relaxed) ∧
      relaxed.lines = compiled.lines := by
  obtain ⟨body, hscript, rfl⟩ := compile_eq_ok.1 h
  have hrelaxed := Likeness.script_relaxed hscript hexplicit hexternal
  exact ⟨_, compile_eq_ok.2 ⟨body, hrelaxed, rfl⟩, rfl⟩

/-- A source that compiles where names have to be declared, or where none may be shared, compiles to the same
instructions at the same places where they need not be declared, or where they may be shared. -/
theorem compile_relaxed (p : Program) (source : String) :
    (∀ external compiled, (p.withRules true external).compile source = (.ok (), compiled) →
      ∃ relaxed, (p.withRules false external).compile source = (.ok (), relaxed) ∧ relaxed.lines = compiled.lines) ∧
    (∀ explicit compiled, (p.withRules explicit false).compile source = (.ok (), compiled) →
      ∃ relaxed, (p.withRules explicit true).compile source = (.ok (), relaxed) ∧ relaxed.lines = compiled.lines) :=
  ⟨fun _ _ h => compile_withRules h (.inr rfl) (.inl rfl), fun _ _ h => compile_withRules h (.inl rfl) (.inr rfl)⟩

/-- A source that declares its names and shares none. -/
theorem compile_relaxed_declared :
    let p := (Program.new {}).importAdd "K" (.text "a") .constant
    let source := "DIM X\nX = K\nIF X = K THEN DEBUGPRINT X"
    ∃ strict closed, (p.withRules true true).compile source = (.ok (), strict) ∧
      (∃ relaxed, (p.withRules false true).compile source = (.ok (), relaxed) ∧ relaxed.lines = strict.lines) ∧
      (p.withRules true false).compile source = (.ok (), closed) ∧
      ∃ relaxed, (p.withRules true true).compile source = (.ok (), relaxed) ∧ relaxed.lines = closed.lines := by
  intro p source
  have hcompiles : ((p.withRules true true).compile source).1.isOk = true ∧
      ((p.withRules true false).compile source).1.isOk = true := by
    decide +kernel
  generalize hstrict : (p.withRules true true).compile source = x at hcompiles
  generalize hclosed : (p.withRules true false).compile source = y at hcompiles
  obtain ⟨r, strict⟩ := x
  obtain ⟨r', closed⟩ := y
  cases r with
  | error f => cases hcompiles.1
  | ok _ =>
    cases r' with
    | error f => cases hcompiles.2
    | ok _ =>
      obtain ⟨hexplicit, hexternal⟩ := compile_relaxed p source
      obtain ⟨relaxed, hopen, hlines⟩ := hexternal true closed hclosed
      exact ⟨strict, closed, rfl, hexplicit true strict hstrict, rfl, relaxed, hstrict ▸ hopen, hlines⟩

end Program

end MacroBasic
