/-
How keywords are spelled is immaterial. Sources that differ at most in the case of the letters of their keywords
compile to the same program, or fail with faults of one code at one place. Names, strings and comments keep their case,
so what stands in them is never respelled.
-/
import MacroBasic.Proofs.Grammar.Identity
import MacroBasic.Proofs.Program.Normalization
import MacroBasic.Proofs.Symbol.Respelling

namespace MacroBasic

open Text Grammar Scanner

/-! ## Symbols that differ in the spelling of a keyword -/

theorem Token.keywords_ne : ∀ k ∈ keywords, k.2 ≠ .name ∧ k.2 ≠ .delimiter := by decide

namespace Scanner

variable {s t : Symbol}

/-- Only the texts of keywords differ. -/
theorem SameWord.text_eq (h : SameWord s t) (hs : s.token = .name ∨ s.token = .delimiter) : s.text = t.text := by
  rcases h.text with htext | ⟨k, hk, hkeyword⟩
  · exact htext
  · obtain ⟨hname, hdelimiter⟩ := Token.keywords_ne k hk
    rw [hkeyword] at hname hdelimiter
    exact absurd hs (by simp [hname, hdelimiter])

theorem SameWord.isNewline (h : SameWord s t) : s.isNewline = t.isNewline := by
  unfold Symbol.isNewline
  by_cases hs : s.token = .delimiter
  · rw [← h.token, h.text_eq (.inr hs)]
  · have ht : t.token ≠ .delimiter := h.token ▸ hs
    rw [beq_false_of_ne hs, beq_false_of_ne ht, Bool.false_and, Bool.false_and]

end Scanner

/-- Faults of one code at one place. -/
def Fault.SameSpot (f g : Fault) : Prop := f.code = g.code ∧ f.position = g.position

namespace Grammar.Likeness

/-- Sources whose keywords may be spelled in other letters. The text of a keyword stands in the faults about it. -/
def respelled : Likeness where
  __ := Likeness.unindexed
  symbol := SameWord
  fault := Fault.SameSpot
  place := id
  symbol_eof _ := .refl _
  token h := h.token
  value h _ := h.value
  name h hs := h.text_eq (.inl hs)
  position h := h.position
  raised h _ _ _ _ _ := ⟨rfl, congrArg some h.position⟩
  unaddressed h _ _ _ _ := ⟨rfl, congrArg some h.position⟩

theorem respelled_keepsBreaks : respelled.KeepsBreaks := fun h => SameWord.isNewline h

end Grammar.Likeness

/-- Cursors in front of texts that differ at most in the case of keywords give symbols that the parser cannot tell
apart. -/
theorem Scanner.scan_inStep {c d : Cursor} (h : InStep .code c d) : Likeness.respelled.Texts (scan c) (scan d) := by
  rw [scan_eq c, scan_eq d]
  have hmet := skipBlanks_inStep h
  generalize hx : skipBlanks c = x, skipBlanks d = y at hmet
  cases hmet with
  | none h => exact .nil (.ok (endOfSource_inStep h ▸ .refl _))
  | error f => exact .nil (.error ⟨rfl, rfl⟩)
  | @some ch ch' after after' hread =>
    have hsymbol := symbol_met (.some hread)
    dsimp only
    generalize hu : symbol ch after = u, symbol ch' after' = v at hsymbol
    cases hsymbol with
    | error f => exact .nil (.error ⟨rfl, rfl⟩)
    | ok hs hb =>
      have := skipBlanks_length hx
      have := symbol_length hu
      exact .cons hs (scan_inStep hb)
termination_by c.rest.length

theorem Symbols.ofString_respelled {s t : String} (h : Respelled .code s.toList t.toList) :
    Likeness.respelled.Texts (.ofString s) (.ofString t) :=
  scan_inStep ⟨h, rfl⟩

/-! ## Compiling -/

namespace Program

theorem compileLines_respelled (options : Options) (external : Scope) {source other : String}
    (h : Respelled .code source.toList other.toList) :
    Likeness.respelled.Alike Eq (compileLines options external source) (compileLines options external other) := by
  unfold compileLines
  refine (Likeness.script_alike (Symbols.ofString_respelled h) Likeness.respelled_keepsBreaks (.refl fun _ _ => rfl)
    (.inl rfl) (.inl rfl) ⟨rfl, rfl⟩).bind fun body body' hbody => .ok ?_
  rw [← Block.placed_id body, ← Block.placed_id body']
  exact congrArg (fun b => (b.lines 0).toArray) hbody

/-- Two compilations that both succeed with the same program, so with the same instructions at the same places, or both
fail with faults of one code at one place. -/
def CompileAlike (x y : Except Fault Unit × Program) : Prop :=
  (x.1 = .ok () ∧ x = y) ∨ ∃ f g, x.1 = .error f ∧ y.1 = .error g ∧ f.code = g.code ∧ f.position = g.position

/-- Sources that differ at most in the case of the letters of their keywords compile alike, whatever the settings and
the shared bindings. -/
theorem compile_of_respelled (p : Program) {source other : String} (h : Respelled .code source.toList other.toList) :
    CompileAlike (p.compile source) (p.compile other) := by
  have hlines := compileLines_respelled p.options p.external h
  unfold compile
  generalize compileLines p.options p.external source = x, compileLines p.options p.external other = y at hlines
  cases hlines with
  | ok hsame => exact .inl ⟨rfl, by rw [hsame]⟩
  | error hf => exact .inr ⟨_, _, rfl, rfl, hf.1, hf.2⟩
  | refused h => exact h.elim

/-- A declaration and an assignment in two spellings, where the name, the string and the comment look like keywords. -/
theorem compile_of_respelled_declaration :
    Respelled .code "dim @dim : @dim = \"Dim\" 'dIM".toList "DiM @dim : @dim = \"Dim\" 'dIM".toList ∧
      CompileAlike (compile "dim @dim : @dim = \"Dim\" 'dIM" {}) (compile "DiM @dim : @dim = \"Dim\" 'dIM" {}) := by
  have h : Respelled .code "dim @dim : @dim = \"Dim\" 'dIM".toList "DiM @dim : @dim = \"Dim\" 'dIM".toList := by
    show Respelled .code ("dim".toList ++ " @dim : @dim = \"Dim\" 'dIM".toList)
      ("DiM".toList ++ " @dim : @dim = \"Dim\" 'dIM".toList)
    have hword : Scanner.IsWord "dim".toList := ⟨by decide, List.all_eq_true.1 (by decide)⟩
    have hend : ∀ x ∈ " @dim : @dim = \"Dim\" 'dIM".toList.head?, continuesName x = false := by
      rintro x ⟨⟩
      decide
    exact .word hword hend (.inr ⟨by decide, by decide⟩) (.refl ..)
  exact ⟨h, compile_of_respelled {} h⟩

end Program

end MacroBasic
