/-
Strings in a text. What is put between quotes with its own quotes doubled is scanned as one string with that value, and
scanning goes on behind the closing quote as it would with a text of its own. The other way round, each string that is
scanned stands in the text as its value between quotes with the quotes doubled, with tabs for some of the spaces.
-/
import MacroBasic.Proofs.Symbol.Normalization
import MacroBasic.Proofs.Symbol.Scanning

namespace MacroBasic

open Text

/-- Whether a character can be read: line breaks and tabs, and all that are no control characters. -/
def Text.isReadable (c : Char) : Bool := isBreak c || c == '\t' || !isControl c

/-- A text between quotes, with its own quotes doubled. -/
def Scanner.literal (s : String) : List Char := quote :: doubled s.toList ++ [quote]

/-- A fault without its place. -/
def Fault.unplaced (f : Fault) : Fault := { f with position := none }

/-! ## The same text in another place -/

namespace Cursor

variable {c d : Cursor}

theorem skipLine_rest (h : c.rest = d.rest) : c.skipLine.rest = d.skipLine.rest := by
  have key : ∀ (rest : List Char) {c d : Cursor}, c.rest = rest → d.rest = rest →
      (skipLine.go c rest).rest = (skipLine.go d rest).rest := by
    intro rest
    induction rest with
    | nil =>
      intro c d hc hd
      rw [skipLine.go, skipLine.go, hc, hd]
    | cons a rest ih =>
      intro c d hc hd
      rw [skipLine.go, skipLine.go]
      split
      · rw [hc, hd]
      · exact ih rfl rfl
  unfold skipLine
  rw [← h]
  exact key c.rest rfl h.symm

end Cursor

namespace Scanner

/-- What is left of a text is read alike wherever it stands. -/
def Lockstep.elsewhere : Lockstep where
  cursor c d := c.rest = d.rest
  place _ _ := True
  fault f g := f.unplaced = g.unplaced
  next {c d} h := by
    rcases hd : d.rest with _ | ⟨a, rest⟩
    · rw [Cursor.next_nil (h.trans hd), Cursor.next_nil hd]
      exact .none
    · cases ha : isBreak a with
      | true =>
        rw [Cursor.next_break (h.trans hd) ha, Cursor.next_break hd ha]
        exact .some rfl
      | false =>
        rw [Cursor.next_cons (h.trans hd) ha, Cursor.next_cons hd ha]
        split
        · exact .error rfl
        · exact .some rfl
  skipLine := Cursor.skipLine_rest
  last _ := trivial
  succ _ := trivial
  placed _ _ := rfl

/-! ## Reading a string -/

variable {c : Cursor} {s t : List Char}

/-- A character that can be read is read as itself, as a space or as a line feed, so only a quote is read as one. -/
theorem next_of_isReadable {a : Char} (hrest : c.rest = a :: t) (ha : isReadable a = true) (hquote : a ≠ quote) :
    ∃ x d, c.next = .ok (some (x, d)) ∧ x ≠ quote := by
  cases hbreak : isBreak a with
  | true => exact ⟨_, _, Cursor.next_break hrest hbreak, by decide⟩
  | false =>
    by_cases htab : a = '\t'
    · subst htab
      exact ⟨' ', _, Cursor.next_cons hrest hbreak, by decide⟩
    · have hcontrol : isControl a = false := by simpa [isReadable, hbreak, htab] using ha
      exact ⟨a, _, Cursor.next_of_not_isControl hrest hcontrol, hquote⟩

theorem isControl_quote : isControl quote = false := by decide

theorem string_of_end (hrest : c.rest = quote :: t) (ht : ∀ x ∈ t.head?, isReadable x = true ∧ x ≠ quote) :
    string c = .ok [] (c.pass t) := by
  rw [string_eq, Cursor.next_of_not_isControl hrest isControl_quote]
  dsimp only
  rw [if_neg (by decide), if_pos rfl]
  rcases t with _ | ⟨a, t⟩
  · rw [Cursor.next_nil rfl]
  · obtain ⟨x, d, hnext, hx⟩ := next_of_isReadable (c := c.pass (a :: t)) rfl (ht a rfl).1 (ht a rfl).2
    rw [hnext]
    exact if_neg hx

theorem string_of_quotes (hrest : c.rest = quote :: quote :: t) {d : Cursor} {run : List Char}
    (h : string ((c.pass (quote :: t)).pass t) = .ok run d) : string c = .ok (quote :: run) d := by
  rw [string_eq, Cursor.next_of_not_isControl hrest isControl_quote]
  dsimp only
  rw [if_neg (by decide), if_pos rfl, Cursor.next_of_not_isControl rfl isControl_quote]
  simp only [if_true, h]

theorem string_of_char {a : Char} (hrest : c.rest = a :: t) (ha : isControl a = false) (hquote : a ≠ quote)
    {d : Cursor} {run : List Char} (h : string (c.pass t) = .ok run d) : string c = .ok (a :: run) d := by
  have hline : a ≠ '\n' := by
    rintro rfl
    exact absurd ha (by decide)
  rw [string_eq, Cursor.next_of_not_isControl hrest ha]
  simp only [if_neg hline, if_neg hquote, h]

/-- A string goes up to the first quote that is not doubled. -/
theorem string_of_doubled (hs : ∀ x ∈ s, isControl x = false) (ht : ∀ x ∈ t.head?, isReadable x = true ∧ x ≠ quote)
    (hrest : c.rest = doubled s ++ quote :: t) : ∃ d, d.rest = t ∧ string c = .ok s d := by
  induction s generalizing c with
  | nil => exact ⟨c.pass t, rfl, string_of_end hrest ht⟩
  | cons a s ih =>
    have ha := hs a (List.mem_cons_self ..)
    replace hs : ∀ x ∈ s, isControl x = false := fun x hx => hs x (List.mem_cons_of_mem _ hx)
    by_cases hquote : a = quote
    · subst hquote
      obtain ⟨d, hd, hstring⟩ := ih (c := (c.pass _).pass (doubled s ++ quote :: t)) hs rfl
      exact ⟨d, hd, string_of_quotes hrest hstring⟩
    · rw [doubled_cons hquote] at hrest
      obtain ⟨d, hd, hstring⟩ := ih (c := c.pass (doubled s ++ quote :: t)) hs rfl
      exact ⟨d, hd, string_of_char hrest ha hquote hstring⟩

/-- The symbol of a string. -/
def stringAt (s : String) (p : Position) : Symbol where
  token := .string
  text := s
  position := p
  value := some (.text s)

theorem symbol_quote (c : Cursor) :
    symbol quote c = match string c with
      | .error f d => .error f d
      | .ok run d => .ok (stringAt (String.ofList run) c.last) d := rfl

/-- A string is found where its opening quote stands, and scanning goes on behind its closing quote. -/
theorem scan_quoted {s t : String} (hs : ∀ x ∈ s.toList, isControl x = false)
    (ht : ∀ x ∈ t.toList.head?, isReadable x = true ∧ x ≠ quote) (hrest : c.rest = literal s ++ t.toList) :
    ∃ d, d.rest = t.toList ∧ scan c = ⟨stringAt s c.here :: (scan d).ahead, (scan d).ending⟩ := by
  have hrest : c.rest = quote :: (doubled s.toList ++ quote :: t.toList) := by simpa [literal] using hrest
  obtain ⟨d, hd, hstring⟩ := string_of_doubled (c := c.pass (doubled s.toList ++ quote :: t.toList)) hs ht rfl
  have hblanks : skipBlanks c = .ok (some quote) (c.pass (doubled s.toList ++ quote :: t.toList)) := by
    rw [skipBlanks_eq, Cursor.next_of_not_isControl hrest isControl_quote]
    dsimp only
    rw [if_neg (by decide), if_neg (by decide)]
  refine ⟨d, hd, ?_⟩
  rw [scan_eq, hblanks]
  simp only [symbol_quote, hstring, String.ofList_toList]
  rfl

/-! ## What a scanned string is written as -/

/-- Each symbol of a scanned text stands in it, behind the text in front of its place. -/
theorem lexeme_of_mem {before : List Char} (hc : c.Stands before) {sym : Symbol} (hsym : sym ∈ (scan c).ahead) :
    ∃ pre slice post, before ++ c.rest = pre ++ slice ++ post ∧ sym.position = .behind pre ∧
      normal slice = sym.spelling ∧ sym.token.Spells sym.spelling ∧
      ∀ x ∈ (normal post).head?, EndsAt sym.spelling x := by
  fun_induction scan c generalizing before with
  | case1 | case2 | case3 => cases hsym
  | case4 c ch after hb first behind hs _ _ more =>
    rename_i ih
    obtain ⟨gap, raw₁, e, hgap, hfirst, hch, hlast, _⟩ := skipBlanks_reads hb
    obtain ⟨⟨raw, hraw, hspelling⟩, hspells, hposition, hend⟩ := found_of_symbol hs
    have he : e.Stands (before ++ gap) := hgap.stands before hc
    rcases List.mem_cons.1 hsym with rfl | hsym
    · refine ⟨before ++ gap, raw₁ ++ raw, behind.rest, ?_, ?_, ?_, hspells, hend⟩
      · rw [hgap.rest, (hfirst.trans hraw).rest]
        simp
      · rw [hposition, hlast, he.here]
      · rw [hfirst.normal_append hraw, hch, hspelling]
        rfl
    · obtain ⟨pre, slice, post, htext, hrest⟩ := ih ((hfirst.trans hraw).stands _ he) hsym
      refine ⟨pre, slice, post, ?_, hrest⟩
      rw [← htext, hgap.rest, (hfirst.trans hraw).rest]
      simp

theorem string_of_mem {sym : Symbol} (hsym : sym ∈ (scan c).ahead) (htoken : sym.token = .string) :
    sym.value = some (.text sym.text) := by
  fun_induction scan c with
  | case1 | case2 | case3 => cases hsym
  | case4 c ch after hb first behind hs _ _ more ih =>
    rcases List.mem_cons.1 hsym with rfl | hsym
    · obtain ⟨⟨raw, _, hspelling⟩, _, _, _⟩ := found_of_symbol hs
      -- only a quote begins what is spelled like a string
      have hch : ch = quote := by
        rw [Symbol.spelling, if_pos htoken] at hspelling
        exact (List.cons.inj hspelling).1.symm
      subst hch
      rw [symbol_quote] at hs
      split at hs <;> cases hs
      rfl
    · exact ih hsym

theorem spells_string {w : List Char} (h : Token.Spells .string w) :
    ∃ content, '\n' ∉ content ∧ w = quote :: doubled content ++ [quote] := by
  generalize ht : Token.string = t at h
  cases h with
  | mark hm => exact absurd ht.symm (marks_ne_string _ hm)
  | whole | decimal => cases ht
  | word => exact absurd ht.symm (keyword_ne _).1
  | string h => exact ⟨_, h, rfl⟩

/-- A slice without line breaks is read character by character. -/
theorem normal_eq_map {raw : List Char} (h : '\n' ∉ normal raw) : normal raw = raw.map shown := by
  induction raw with
  | nil => rfl
  | cons a raw ih =>
    cases ha : isBreak a with
    | true =>
      rw [normal_of_isBreak ha] at h
      exact absurd (List.mem_cons_self ..) h
    | false =>
      rw [normal_of_not_isBreak ha] at h ⊢
      rw [List.map_cons, ih fun hraw => h (List.mem_cons_of_mem _ hraw)]

theorem mem_doubled {x : Char} : x ∈ doubled s ↔ x ∈ s := by
  simp only [doubled, List.mem_flatMap]
  constructor
  · rintro ⟨y, hy, hx⟩
    split at hx <;> simp_all
  · intro hx
    refine ⟨x, hx, ?_⟩
    split <;> simp_all

/-- A string goes on behind a quote that is doubled. -/
theorem ne_quote_of_endsAt (hs : '\n' ∉ s) {x : Char} (h : EndsAt (quote :: doubled s ++ [quote]) x) : x ≠ quote := by
  rintro rfl
  refine h [quote] .string ?_
  have hlonger : quote :: doubled s ++ [quote] ++ [quote, quote] = quote :: doubled (s ++ [quote]) ++ [quote] := by
    simp [doubled, List.flatMap_append]
  rw [hlonger]
  exact .string (by simpa using ⟨hs, by decide⟩)

end Scanner

/-! ## Texts -/

open Scanner

/-- A string between quotes is scanned as one symbol, and what follows as if it stood alone. Each scanned string stands
in the text between quotes, with its quotes doubled and with tabs for some of its spaces, and no quote follows. -/
theorem Symbols.ofString_quoted :
    (∀ s t : String, (∀ x ∈ s.toList, isControl x = false) →
      (∀ x ∈ t.toList.head?, isReadable x = true ∧ x ≠ quote) →
      ∃ more, ofString (String.ofList (literal s ++ t.toList)) = ⟨stringAt s ⟨1, 1, 0⟩ :: more.ahead, more.ending⟩ ∧
        Lockstep.elsewhere.Texts more (ofString t)) ∧
    ∀ text : String, ∀ sym ∈ (ofString text).ahead, sym.token = .string →
      ∃ v before slice after, sym.value = some (.text v) ∧ sym.text = v ∧
        text.toList = before ++ slice ++ after ∧ sym.position = .behind before ∧ slice.map shown = literal v ∧
        ∀ x ∈ after.head?, x ≠ quote := by
  refine ⟨?_, ?_⟩
  · intro s t hs ht
    obtain ⟨d, hd, hscan⟩ := scan_quoted (c := .ofString (String.ofList (literal s ++ t.toList))) hs ht
      (by rw [Cursor.ofString, String.toList_ofList])
    exact ⟨scan d, hscan, Lockstep.scan_texts (L := .elsewhere) hd⟩
  · intro text sym hsym htoken
    obtain ⟨pre, slice, post, htext, hposition, hslice, hspells, hend⟩ :=
      lexeme_of_mem (Cursor.ofString_stands text) hsym
    have hspelling : sym.spelling = literal sym.text := if_pos htoken
    rw [htoken, hspelling] at hspells
    rw [hspelling] at hslice hend
    have hfree : '\n' ∉ literal sym.text := by
      obtain ⟨content, hcontent, hw⟩ := spells_string hspells
      rw [hw]
      simpa [mem_doubled] using ⟨by decide, hcontent, by decide⟩
    refine ⟨sym.text, pre, slice, post, string_of_mem hsym htoken, rfl, htext, hposition, ?_, ?_⟩
    · rw [← normal_eq_map (hslice ▸ hfree), hslice]
    · rintro x hx rfl
      obtain ⟨rest, rfl⟩ := List.head?_eq_some_iff.1 hx
      have hquote : (normal (quote :: rest)).head? = some quote := by
        rw [normal_of_not_isBreak (by decide)]
        rfl
      exact ne_quote_of_endsAt (fun h => hfree (by simp [literal, mem_doubled, h])) (hend quote hquote) rfl

/-- A string with quotes at both of its ends, in front of an operator and of a control character. -/
theorem Symbols.ofString_quoted_ends :
    (∀ x ∈ "\"a\"".toList, isControl x = false) ∧ (∀ x ∈ "& b\x01".toList.head?, isReadable x = true ∧ x ≠ quote) ∧
      ∃ more, ofString "\"\"\"a\"\"\"& b\x01" = ⟨stringAt "\"a\"" ⟨1, 1, 0⟩ :: more.ahead, more.ending⟩ ∧
        Lockstep.elsewhere.Texts more (ofString "& b\x01") := by
  have hcontent : ∀ x ∈ "\"a\"".toList, isControl x = false := by simp [isControl]
  have hbehind : ∀ x ∈ "& b\x01".toList.head?, isReadable x = true ∧ x ≠ quote := by
    rintro x ⟨⟩
    decide
  exact ⟨hcontent, hbehind, ofString_quoted.1 "\"a\"" "& b\x01" hcontent hbehind⟩

end MacroBasic
