/-
Only the normal form of a source matters. Sources that are the same once every line break is read as one
line feed and every tab as a space compile to the same instructions at the same lines and columns, or fail
with the same fault there.
-/
import MacroBasic.Program
import MacroBasic.Proofs.Grammar.LikeScripts
import MacroBasic.Proofs.Symbol.Normalization

namespace MacroBasic

open Text Grammar Scanner

/-! ## Places that differ in the number of raw characters -/

theorem Symbol.unindexed_fault {s t : Symbol} (h : SameSymbol s t) {m n : String} (hmn : m = n) (code : FaultCode) :
    (s.fault code m).unindexed = (t.fault code n).unindexed := by
  simp [Symbol.fault, Fault.because, Fault.near, Fault.unindexed, h.text, h.position, hmn]

/-- Sources whose places may differ in the number of raw characters in front of them. -/
def Grammar.Likeness.unindexed : Likeness where
  symbol := SameSymbol
  binding b c := b.outline = c.outline
  fault f g := f.unindexed = g.unindexed
  place := Position.unindexed
  lenient := False
  symbol_eof _ := ⟨rfl, rfl, rfl, rfl⟩
  token h := h.token
  value h _ := h.value
  name h _ := h.text
  position h := h.position
  outline h := h
  declared _ _ := rfl
  raised h code _ _ _ hmn := Symbol.unindexed_fault h (hmn h.text) code
  unaddressed h _ _ _ _ := Symbol.unindexed_fault h rfl _

theorem Grammar.Likeness.unindexed_keepsBreaks : Likeness.unindexed.KeepsBreaks :=
  fun h => by rw [Symbol.isNewline, SameSymbol.token h, SameSymbol.text h]; rfl

/-- Cursors in front of the same normal form give texts that the parser cannot tell apart. -/
theorem Scanner.scan_alike {c d : Cursor} (h : c.Alike d) : Likeness.unindexed.Texts (scan c) (scan d) := by
  obtain ⟨hahead, hending⟩ := Lockstep.scan_texts (L := .unindexed) h
  show Likeness.unindexed.Symbols (scan c).ending (scan d).ending (scan c).ahead (scan d).ahead
  generalize (scan c).ahead = s, (scan d).ahead = t, (scan c).ending = u, (scan d).ending = v at hahead hending ⊢
  have hending : Likeness.unindexed.Endings u v := by
    cases hending with
    | ok hs => exact .ok hs.unindexed
    | error hf => exact .error hf
  induction hahead with
  | nil => exact .nil hending
  | cons hs _ ih => exact .cons hs.unindexed ih

/-- Texts with one normal form give symbols that the parser cannot tell apart. -/
theorem Symbols.ofString_alike {s t : String} (h : normal s.toList = normal t.toList) :
    Likeness.unindexed.Texts (.ofString s) (.ofString t) :=
  scan_alike ⟨h, rfl, rfl, rfl⟩

/-! ## Compiling -/

namespace Program

/-- The instructions of a tree, and the lines and columns they bear, are those of the tree without the
numbers of raw characters. -/
theorem lines_of_placed {b b' : Block} (h : b.placed Position.unindexed = b'.placed Position.unindexed) :
    (b.lines 0).map (Line.placed Position.unindexed) = (b'.lines 0).map (Line.placed Position.unindexed) := by
  rw [← Block.lines_placed, ← Block.lines_placed, h]

theorem compileLines_alike (options : Options) (external : Scope) {source other : String}
    (h : normal source.toList = normal other.toList) :
    Likeness.unindexed.Alike (fun x y => x.toList.map (Line.placed Position.unindexed) =
        y.toList.map (Line.placed Position.unindexed))
      (compileLines options external source) (compileLines options external other) := by
  unfold compileLines
  exact (Likeness.script_alike (Symbols.ofString_alike h) Likeness.unindexed_keepsBreaks (.refl fun _ _ => rfl)
    (.inl rfl) (.inl rfl) rfl).bind
    fun body body' hbody => .ok (lines_of_placed hbody)

/-- Two compilations that both succeed, with the same instructions at the same lines and columns, or both
fail, with the same fault at the same line and column. -/
def SameCompilation (x y : Except Fault Unit × Program) : Prop :=
  (x.1 = .ok () ∧ y.1 = .ok () ∧ x.2.lines.map Line.instruction = y.2.lines.map Line.instruction ∧
    x.2.lines.map (fun l => (l.position.line, l.position.column)) =
      y.2.lines.map (fun l => (l.position.line, l.position.column))) ∨
  ∃ f g, x.1 = .error f ∧ y.1 = .error g ∧ f.code = g.code ∧ f.token = g.token ∧ f.message = g.message ∧
    f.position.map (fun q => (q.line, q.column)) = g.position.map (fun q => (q.line, q.column))

/-- Sources with one normal form compile alike, whatever the settings and the shared bindings. -/
theorem compile_of_normal_eq (p : Program) {source other : String}
    (h : normal source.toList = normal other.toList) : SameCompilation (p.compile source) (p.compile other) := by
  have hlines := compileLines_alike p.options p.external h
  unfold compile
  generalize compileLines p.options p.external source = x, compileLines p.options p.external other = y at hlines
  cases hlines with
  | @ok lines lines' hsame =>
    refine .inl ⟨rfl, rfl, ?_, ?_⟩ <;> apply Array.ext' <;> simp only [Array.toList_map]
    · simpa [Function.comp_def, Line.placed] using congrArg (List.map Line.instruction) hsame
    · simpa [Function.comp_def, Line.placed, Position.unindexed] using
        congrArg (List.map fun l => (l.position.line, l.position.column)) hsame
  | @error f g hf =>
    have hf : f.unindexed = g.unindexed := hf
    have hposition : f.position.map Position.unindexed = g.position.map Position.unindexed :=
      congrArg Fault.position hf
    refine .inr ⟨f, g, rfl, rfl, (congrArg Fault.code hf :), (congrArg Fault.token hf :),
      (congrArg Fault.message hf :), ?_⟩
    simpa [Function.comp_def, Position.unindexed] using
      congrArg (Option.map fun q => (q.line, q.column)) hposition
  | refused h => exact h.elim

/-- A source with tabs and three kinds of line break compiles like the one with line feeds and spaces. -/
theorem compile_of_normal_eq_breaks :
    normal "x =\t1 ' one\r\n\rDEBUGPRINT x\n\r".toList = normal "x = 1 ' one\n\nDEBUGPRINT x\n".toList ∧
      SameCompilation (compile "x =\t1 ' one\r\n\rDEBUGPRINT x\n\r" {})
        (compile "x = 1 ' one\n\nDEBUGPRINT x\n" {}) :=
  ⟨by decide, compile_of_normal_eq {} (by decide)⟩

end Program

end MacroBasic
