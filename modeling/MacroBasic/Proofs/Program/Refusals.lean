/-
The faults of a compilation. A source is refused with a place and a code of reading, scanning or parsing, or because
too many routines are defined inside of each other. Nothing else can go wrong on the way: to go back in the source, to
lead a branch that has been written to its target and to leave a scope never fail.
-/
import MacroBasic.Proofs.Grammar.Refusals
import MacroBasic.Proofs.Program.Compilation

namespace MacroBasic.Program

open Grammar

theorem script_of_refused {source : String} {p : Program} {f : Fault} (h : (p.compile source).1 = .error f) :
    script (.ofString source) p.options.explicit p.options.external p.external = .error f := by
  unfold compile compileLines at h
  cases hscript : script (.ofString source) p.options.explicit p.options.external p.external with
  | error g =>
    rw [hscript] at h
    cases h
    rfl
  | ok body =>
    rw [hscript] at h
    cases h

/-- Where no routines are shared, a source that is read, scanned, parsed and written in one go compiles as its tree
does. If it is refused, then for a character that cannot be read, by scanning or by parsing, each time with a place, or
because more than 65533 routines are defined inside of each other. It is never refused for going back too far in the
source, for a number that is no numeral, for a branch that cannot be led to its target, for a routine without an
address or for leaving a scope that has not been entered. -/
theorem compile_refused (source : String) (p : Program)
    (hshared : ∀ b ∈ p.external.names, b.kind = .constant ∨ b.kind = .variable) :
    p.compileInPlace source = p.compile source ∧
      ∀ f, (p.compile source).1 = .error f →
        f.code ∉ [.backPastStart, .backTwice, .internal] ∧
        (f.code = .unknownSymbol → f.message ≠ Scanner.malformed) ∧
        (f.position.isSome = true ∧
            (f.code = .invalidCharacter ∨ f.code ∈ [.unknownSymbol, .endOfSource, .endOfLine] ∨ f.code.OfParse) ∨
          f = Scopes.tooDeep ∧
            Nested (65533 + 1) (.ofText (.ofString source) p.options.explicit p.options.external p.external) none 0
              (Symbols.ofString source).ahead) := by
  refine ⟨compileInPlace_eq source p, fun f h => ?_⟩
  have hscript := script_of_refused h
  have hroutines : ∀ b ∈ p.external.names, b.isRoutine = false := fun b hb => by
    rcases hshared b hb with hkind | hkind <;> simp [Binding.isRoutine, hkind]
  have hending : ∀ g, (Symbols.ofString source).ending = .error g → g.OfScan := fun g => Scanner.ofScan_scan _
  -- a fault of scanning, a fault of parsing, or one scope too many
  rcases regular_of_script hroutines hending hscript with (hscan | ⟨hplaced, hparse⟩) | rfl
  · refine ⟨fun hcode => ?_, fun _ => hscan.message, .inl ⟨hscan.placed, hscan.code.imp_right .inl⟩⟩
    have hcodes : f.code = .invalidCharacter ∨ f.code = .unknownSymbol ∨ f.code = .endOfSource ∨
        f.code = .endOfLine := by
      simpa using hscan.code
    simp only [List.mem_cons, List.not_mem_nil, or_false] at hcode
    rcases hcodes with h | h | h | h <;> rw [h] at hcode <;> exact absurd hcode (by decide)
  · refine ⟨fun hcode => ?_, fun hcode => ?_, .inl ⟨hplaced, .inr (.inr hparse)⟩⟩
    · simp only [List.mem_cons, List.not_mem_nil, or_false] at hcode
      rcases hcode with hcode | hcode | hcode <;> rw [hcode] at hparse <;> exact absurd hparse (by decide)
    · rw [hcode] at hparse
      exact absurd hparse (by decide)
  · have hnested := (script_tooDeep_iff hroutines hending).1 hscript
    exact ⟨by decide, fun hcode => absurd hcode (by decide), .inr ⟨rfl, hnested⟩⟩

/-- A source that gives a shared constant another value. -/
theorem compile_refused_constant :
    let p := (Program.new {}).importAdd "K" (.text "a") .constant
    (∀ b ∈ p.external.names, b.kind = .constant ∨ b.kind = .variable) ∧
      ∃ f, (p.compileInPlace "K = TRUE").1 = .error f ∧ f.code = .assignmentToConstant ∧ f.position.isSome = true := by
  intro p
  have hshared : ∀ b ∈ p.external.names, b.kind = .constant ∨ b.kind = .variable := by decide
  obtain ⟨hplace, hrefused⟩ := compile_refused "K = TRUE" p hshared
  have hcode : (p.compile "K = TRUE").2.error.map Fault.code = some .assignmentToConstant := by decide +kernel
  rcases (p.replaced_compile "K = TRUE").settled with ⟨_, hnone⟩ | ⟨f, hf, _, hsome⟩
  · rw [hnone] at hcode
    cases hcode
  · rw [hsome] at hcode
    have hcode : f.code = .assignmentToConstant := Option.some.inj hcode
    refine ⟨hshared, f, hplace ▸ hf, hcode, ?_⟩
    rcases (hrefused f hf).2.2 with ⟨hplaced, _⟩ | ⟨rfl, _⟩
    · exact hplaced
    · cases hcode

end MacroBasic.Program
