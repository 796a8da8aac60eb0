/-
A program on one line. Where a source has a line break behind each header of a block and behind each statement, and
another one has the same sentences with a colon in the place of each line break, both compile to the same instructions
or both are refused with the same code.
-/
import MacroBasic.Proofs.Grammar.OneLine
import MacroBasic.Proofs.Program.Plain

namespace MacroBasic

open Grammar

/-! ## Sources in two layouts -/

/-- A source is a spelling of a paragraph: it has exactly the symbols of it, and its delimiters are line breaks, or none
of them is one. -/
structure Grammar.Paragraph.Spelled (t : Paragraph) (broken : Bool) (source : String) : Prop where
  marks : (Symbols.ofString source).ahead.map Grammar.mark = t.render
  delimiters : ∀ s ∈ (Symbols.ofString source).ahead, s.token = .delimiter → s.isNewline = broken
  whole : ∃ e, (Symbols.ofString source).ending = .ok e

/-- Whether a symbol has the given mark, which is not the one of a literal, and is a line break or not as it has to be
if it is a delimiter. -/
def Grammar.Mark.spells (broken : Bool) : Mark → Symbol → Bool
  | .plain t, s =>
    s.token == t && !([Token.number, .string, .name].contains t) && (t != .delimiter || s.isNewline == broken)
  | .name n, s => s.token == .name && s.text == n
  | _, _ => false

theorem Grammar.mark_of_spells {broken : Bool} {m : Mark} {s : Symbol} (h : m.spells broken s = true) :
    Grammar.mark s = m ∧ (s.token = .delimiter → s.isNewline = broken) := by
  unfold Mark.spells at h
  unfold Grammar.mark
  split at h <;> simp_all
  exact fun hd => h.2.resolve_left fun hne => hne hd

/-- A source that has the symbols of a paragraph without literals is a spelling of it. -/
theorem Grammar.Paragraph.Spelled.of_spells {t : Paragraph} {broken : Bool} {source : String}
    (h : List.Forall₂ (Mark.spells broken · · = true) t.render (Symbols.ofString source).ahead ∧
      Except.isOk (Symbols.ofString source).ending = true) : t.Spelled broken source := by
  obtain ⟨hspells, hwhole⟩ := h
  have hsymbols : (Symbols.ofString source).ahead.map Grammar.mark = t.render ∧
      ∀ s ∈ (Symbols.ofString source).ahead, s.token = .delimiter → s.isNewline = broken := by
    generalize (Symbols.ofString source).ahead = symbols, t.render = marks at hspells
    induction hspells with
    | nil => exact ⟨rfl, nofun⟩
    | cons hs _ ih =>
      obtain ⟨hmark, hbreak⟩ := mark_of_spells hs
      exact ⟨by rw [List.map_cons, hmark, ih.1], List.forall_mem_cons.2 ⟨hbreak, ih.2⟩⟩
  refine ⟨hsymbols.1, hsymbols.2, ?_⟩
  cases h : (Symbols.ofString source).ending with
  | ok e => exact ⟨e, rfl⟩
  | error f =>
    rw [h] at hwhole
    cases hwhole

theorem Scanner.scan_ending {c : Cursor} {e : Symbol} (h : (scan c).ending = .ok e) : e.token = .eof := by
  fun_induction scan c with
  | case1 => cases h
  | case2 =>
    cases h
    rfl
  | case3 => cases h
  | case4 _ _ _ _ _ _ _ _ _ _ ih => exact ih h

/-- Symbols with literals in them that have the same marks have the same literals. -/
theorem Symbol.value_of_marks {s t : Symbol} (h : Grammar.mark s = Grammar.mark t)
    (ht : s.token = .number ∨ s.token = .string) (hs : ∃ v, s.value = some v) (ht' : ∃ v, t.value = some v) :
    s.value = t.value := by
  obtain ⟨v, hv⟩ := hs
  obtain ⟨w, hw⟩ := ht'
  have htoken := token_of_marks h
  unfold Grammar.mark at h
  rcases ht with hs | hs <;> rw [hs] at htoken <;> simp only [hs, ← htoken, hv, hw] at h ⊢ <;> simpa using h

/-- The symbols of a source with line breaks may be taken by those of the one with colons. -/
theorem Grammar.Paragraph.Spelled.texts {t : Paragraph} {many one : String} (hmany : t.Spelled true many)
    (hone : t.Spelled false one) : Likeness.layout.Texts (.ofString many) (.ofString one) := by
  have hmarks := hmany.marks.trans hone.marks.symm
  have hbreaks := hmany.delimiters
  have hcolons := hone.delimiters
  obtain ⟨e, he⟩ := hmany.whole
  obtain ⟨e', he'⟩ := hone.whole
  have hvalues : ∀ s ∈ (Symbols.ofString many).ahead, s.token = .number ∨ s.token = .string → ∃ v, s.value = some v :=
    fun s hs ht => (Scanner.scan_value hs ht).imp fun _ h => h.1
  have hvalues' : ∀ s ∈ (Symbols.ofString one).ahead, s.token = .number ∨ s.token = .string → ∃ v, s.value = some v :=
    fun s hs ht => (Scanner.scan_value hs ht).imp fun _ h => h.1
  have hends : Likeness.layout.Endings (Symbols.ofString many).ending (Symbols.ofString one).ending := by
    have heof := Scanner.scan_ending he
    have heof' := Scanner.scan_ending he'
    rw [he, he']
    refine .ok ⟨?_, ?_, ?_⟩
    · simp [Grammar.mark, heof, heof']
    · simp [heof]
    · simp [heof]
  show Likeness.layout.Symbols _ _ (Symbols.ofString many).ahead (Symbols.ofString one).ahead
  generalize (Symbols.ofString many).ahead = x at hmarks hbreaks hvalues
  generalize (Symbols.ofString one).ahead = y at hmarks hcolons hvalues'
  induction x generalizing y with
  | nil =>
    obtain rfl := List.map_eq_nil_iff.1 hmarks.symm
    exact .nil hends
  | cons s x ih =>
    obtain ⟨s', y, rfl, hs, hrest⟩ := map_mark_cons hmarks.symm
    rw [List.forall_mem_cons] at hbreaks hcolons hvalues hvalues'
    have htoken := token_of_marks hs
    refine .cons ⟨hs.symm, fun hl => ?_, fun hd => ⟨hbreaks.1 hd, hcolons.1 (htoken.trans hd)⟩⟩
      (ih hbreaks.2 hvalues.2 y hrest.symm hcolons.2 hvalues'.2)
    exact Symbol.value_of_marks hs.symm hl (hvalues.1 hl) (hvalues'.1 (by rwa [htoken]))

/-! ## Compiling -/

/-- The parser makes trees of the two that are the same but for places, or it is stopped by faults of the same code. -/
theorem Grammar.script_reaches {t : Paragraph} (ht : t.WellFormed) {many one : String} (hmany : t.Spelled true many)
    (hone : t.Spelled false one) (explicit external : Bool) (shared : Scope) :
    Likeness.layout.Alike (fun b b' => b.placed Likeness.layout.place = b'.placed Likeness.layout.place)
      (script (.ofString many) explicit external shared) (script (.ofString one) explicit external shared) := by
  have htexts := hmany.texts hone
  have hnames : Likeness.layout.Names (.onBottom shared.unbound) (.onBottom shared.unbound) :=
    List.forall₂_same.2 fun f _ name => by cases f.get? name <;> constructor; rfl
  unfold script
  dsimp only
  have he : Likeness.layout.Surrounds ⟨.onBottom shared.unbound, explicit, external, (Symbols.ofString many).ending⟩
      ⟨.onBottom shared.unbound, explicit, external, (Symbols.ofString one).ending⟩ := ⟨hnames, .inl rfl, .inl rfl⟩
  have hleft : Likeness.layout.Left ⟨.onBottom shared.unbound, explicit, external, (Symbols.ofString many).ending⟩
      ⟨.onBottom shared.unbound, explicit, external, (Symbols.ofString one).ending⟩ (Symbols.ofString many).ahead
      (Symbols.ofString one).ahead := htexts
  have hends : EndsBlock [] [] := trivial
  have hread := t.reaches ht he (show (⟨false, true, [], none⟩ : Place).singleLine = false from rfl) false
    (List.nil_subset closingWords) 0 hmany.marks hends (by rwa [List.append_nil])
  rw [List.append_nil] at hread
  refine hleft.arrive.bind fun _ _ _ => ?_
  exact hread.bind fun ⟨⟨body, _⟩, r, _⟩ ⟨⟨body', _⟩, r', _⟩ ⟨⟨hbody, hr⟩, _⟩ => by
    dsimp only
    rw [hr.token]
    split
    · exact .ok hbody.value
    · exact .error rfl

namespace Program

/-- Two compilations that both succeed, with the same instructions, or both fail, with faults of the same code. -/
def SameInstructions (x y : Except Fault Unit × Program) : Prop :=
  (x.1 = .ok () ∧ y.1 = .ok () ∧ x.2.lines.map Line.instruction = y.2.lines.map Line.instruction) ∨
  ∃ f g, x.1 = .error f ∧ y.1 = .error g ∧ f.code = g.code

/-- The instructions of a tree do not depend on the places in it. -/
theorem instructions_of_layout {b b' : Block}
    (h : b.placed Likeness.layout.place = b'.placed Likeness.layout.place) :
    (b.lines 0).toArray.map Line.instruction = (b'.lines 0).toArray.map Line.instruction := by
  have hlines : (b.lines 0).map (Line.placed Likeness.layout.place) =
      (b'.lines 0).map (Line.placed Likeness.layout.place) := by
    rw [← Block.lines_placed, ← Block.lines_placed, h]
  have hinstructions := congrArg (List.map Line.instruction) hlines
  simpa [Function.comp_def, Line.placed] using hinstructions

/-- A program tree with a line break behind each header of a block, behind each `ELSE` and behind each statement
compiles to the same instructions as with a colon in the place of each line break, or both are refused with the same
code, whatever the settings and the shared bindings. The blocks may be nested to any depth, and the statements in them
may be right or wrong. -/
theorem compile_one_line (p : Program) {t : Paragraph} (ht : t.WellFormed) {many one : String}
    (hmany : t.Spelled true many) (hone : t.Spelled false one) :
    SameInstructions (p.compile many) (p.compile one) := by
  have hscript := script_reaches ht hmany hone p.options.explicit p.options.external p.external
  have hlines : Likeness.layout.Alike (fun x y => x.map Line.instruction = y.map Line.instruction)
      (compileLines p.options p.external many) (compileLines p.options p.external one) :=
    hscript.bind fun _ _ hbody => .ok (instructions_of_layout hbody)
  unfold compile
  generalize compileLines p.options p.external many = x, compileLines p.options p.external one = y at hlines
  cases hlines with
  | ok hsame => exact .inl ⟨rfl, rfl, hsame⟩
  | error hcode => exact .inr ⟨_, _, rfl, rfl, hcode⟩
  | refused h => exact h.elim

/-- A loop in a sub, and a loop with a choice between a call and leaving it. -/
theorem compile_one_line_nested :
    let declared : Sentence := .simple [.word .dim, .name "I"]
    let loop : Sentence := .guardLoop none (.cons (.simple [.word .debugClear]) .nil) (some ⟨false, .name "N"⟩)
    let sub : Sentence := .routine false "S" (some ["N"]) (.cons loop .nil) true
    let yes : Paragraph := .cons (.simple [.name "S", .name "I"]) .nil
    let no : Paragraph := .cons (.simple [.word .exit, .word .forWord]) .nil
    let choice : Sentence := .branchElse (.name "I") yes no false
    let count : Sentence := .countLoop "I" (.name "I") (.name "I") none (.cons choice .nil) true
    let t : Paragraph := .cons declared (.cons sub (.cons count .nil))
    let many := "DIM I\nSUB S(N)\nDO\nDEBUGCLEAR\nLOOP WHILE N\nENDSUB\n" ++
      "FOR I=I TO I\nIF I THEN\nS I\nELSE\nEXIT FOR\nEND IF\nNEXT I\n"
    let one := "DIM I:SUB S(N):DO:DEBUGCLEAR:LOOP WHILE N:ENDSUB:" ++
      "FOR I=I TO I:IF I THEN:S I:ELSE:EXIT FOR:END IF:NEXT I:"
    t.WellFormed ∧ t.Spelled true many ∧ t.Spelled false one ∧
      SameInstructions (compile many {}) (compile one {}) ∧ Except.isOk (compile many {}).1 = true := by
  intro declared loop sub yes no choice count t many one
  have hsimple {m : Mark} {more : List Mark} (hm : (lead m.token).isSimple = true)
      (hinner : ∀ x ∈ m :: more, isInner x.token = true) : Simple (m :: more) := ⟨⟨m, more, rfl, hm⟩, hinner⟩
  have ht : t.WellFormed := by
    refine ⟨hsimple rfl (by decide), ⟨⟨?_, ⟨hsimple rfl (by decide), trivial⟩, ?_⟩, trivial⟩, ?_, trivial⟩
    · nofun
    · rintro _ ⟨⟩
      trivial
    · refine ⟨trivial, trivial, nofun, ?_, trivial⟩
      exact ⟨trivial, ⟨hsimple rfl (by decide), trivial⟩, hsimple rfl (by decide), trivial⟩
  have hmany : t.Spelled true many := .of_spells (by decide +kernel)
  have hone : t.Spelled false one := .of_spells (by decide +kernel)
  exact ⟨ht, hmany, hone, compile_one_line {} ht hmany hone, by decide +kernel⟩

end Program

end MacroBasic
