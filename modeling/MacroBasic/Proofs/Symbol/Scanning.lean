/-
The scanner against the lexemes: a text that is scanned to its end consists of the symbols that were
found, each as long as it can be and with the place where it begins, and of spaces, tabs and comments
around them.
-/
import MacroBasic.Proofs.Symbol.Lexemes

namespace MacroBasic.Scanner

open Text

/-! ## Runs of characters -/

theorem takeWhile_reads {p : Char → Bool} {c d : Cursor} {run : List Char} (h : takeWhile p c = .ok run d) :
    ∃ raw, c.Reads raw d ∧ normal raw = run ∧ (∀ x ∈ run, p x = true) ∧
      ∀ x ∈ (normal d.rest).head?, p x = false := by
  fun_induction takeWhile p c generalizing run d with
  | case1 => cases h
  | case2 c hn =>
    cases h
    exact ⟨[], .refl c, rfl, by simp, by simp [Cursor.rest_of_next_none hn]⟩
  | case3 c ch after hn hp _ run' behind hr ih =>
    cases h
    obtain ⟨first, hfirst, hch, _⟩ := Cursor.next_reads hn
    obtain ⟨raw, hraw, rfl, hall, hend⟩ := ih hr
    refine ⟨first ++ raw, hfirst.trans hraw, ?_, ?_, hend⟩
    · rw [hfirst.normal_append hraw, hch]; rfl
    · intro x hx
      rcases List.mem_cons.1 hx with rfl | hx
      · exact hp
      · exact hall x hx
  | case4 => cases h
  | case5 c ch after hn hp =>
    cases h
    exact ⟨[], .refl c, rfl, by simp, by simpa [Cursor.head?_of_next hn] using hp⟩

theorem takeIf_some {p : Char → Bool} {c d : Cursor} {x : Char} (h : takeIf p c = .ok (some x) d) :
    p x = true ∧ ∃ raw, c.Reads raw d ∧ normal raw = [x] := by
  unfold takeIf at h
  split at h
  · cases h
  · rename_i ch after hn
    split at h
    · rename_i hp
      cases h
      obtain ⟨raw, hraw, hch, _⟩ := Cursor.next_reads hn
      exact ⟨hp, raw, hraw, hch⟩
    · cases h
  · cases h

theorem takeIf_none {p : Char → Bool} {c d : Cursor} (h : takeIf p c = .ok none d) :
    d = c ∧ ∀ x ∈ (normal d.rest).head?, p x = false := by
  unfold takeIf at h
  split at h
  · cases h
  · rename_i ch after hn
    split at h
    · cases h
    · rename_i hp
      cases h
      exact ⟨rfl, by simpa [Cursor.head?_of_next hn] using hp⟩
  · rename_i hn
    cases h
    exact ⟨rfl, by simp [Cursor.rest_of_next_none hn]⟩

/-- What is read behind the first digit of a number. -/
theorem number_reads {first : Char} {c d : Cursor} {run : List Char} (hfirst : first.isDigit = true)
    (h : number c = .ok run d) :
    ∃ raw, c.Reads raw d ∧ normal raw = run ∧ Token.Spells .number (first :: run) ∧
      ∀ x ∈ (normal d.rest).head?, EndsAt (first :: run) x := by
  unfold number at h
  split at h
  · cases h
  · rename_i whole c₁ h₁
    obtain ⟨raw₁, hraw₁, rfl, hall₁, hend₁⟩ := takeWhile_reads h₁
    have hdigits : ∀ x ∈ first :: normal raw₁, x.isDigit = true := by simpa [hfirst] using hall₁
    split at h
    · cases h
    · rename_i c₂ h₂
      cases h
      obtain ⟨rfl, hend₂⟩ := takeIf_none h₂
      refine ⟨raw₁, hraw₁, rfl, .whole (by simp) hdigits, fun x hx => endsAt_number hfirst (hend₁ x hx) ?_⟩
      rintro rfl
      exact absurd (hend₂ '.' hx) (by decide)
    · rename_i point c₂ h₂
      obtain ⟨hp, raw₂, hraw₂, hn₂⟩ := takeIf_some h₂
      obtain rfl : point = '.' := by simpa using hp
      split at h
      · cases h
      · rename_i fraction c₃ h₃
        cases h
        obtain ⟨raw₃, hraw₃, rfl, hall₃, hend₃⟩ := takeWhile_reads h₃
        refine ⟨raw₁ ++ (raw₂ ++ raw₃), hraw₁.trans (hraw₂.trans hraw₃), ?_,
          .decimal (by simp) hdigits hall₃, fun x hx => endsAt_number hfirst (hend₃ x hx) (fun _ => by simp)⟩
        rw [hraw₁.normal_append (hraw₂.trans hraw₃), hraw₂.normal_append hraw₃, hn₂]; rfl

/-- What is read behind the opening quote of a string. -/
theorem string_reads {c d : Cursor} {run : List Char} (h : string c = .ok run d) :
    ∃ raw, c.Reads raw d ∧ normal raw = doubled run ++ [quote] ∧ '\n' ∉ run ∧
      ∀ x ∈ (normal d.rest).head?, x ≠ quote := by
  fun_induction string c generalizing run d with
  | case1 | case2 | case3 | case4 | case7 | case10 => cases h
  | case5 c after hn' hn =>
    cases h
    obtain ⟨raw, hraw, hch, _⟩ := Cursor.next_reads hn
    exact ⟨raw, hraw, hch, by simp, by simp [Cursor.rest_of_next_none hn']⟩
  | case6 c after behind run' e hr hn _ hline hn' _ ih =>
    cases h
    obtain ⟨raw₁, hraw₁, hch₁, _⟩ := Cursor.next_reads hn
    obtain ⟨raw₂, hraw₂, hch₂, _⟩ := Cursor.next_reads hn'
    obtain ⟨raw, hraw, hrun, hfree, hend⟩ := ih hr
    refine ⟨raw₁ ++ (raw₂ ++ raw), hraw₁.trans (hraw₂.trans hraw), ?_, ?_, hend⟩
    · rw [hraw₁.normal_append (hraw₂.trans hraw), hraw₂.normal_append hraw, hch₁, hch₂, hrun,
        doubled_cons_quote]; rfl
    · simp only [List.mem_cons, not_or]; exact ⟨fun h => hline h.symm, hfree⟩
  | case8 c after ch behind hn' hch hn =>
    cases h
    obtain ⟨raw, hraw, hq, _⟩ := Cursor.next_reads hn
    exact ⟨raw, hraw, hq, by simp, by simpa [Cursor.head?_of_next hn'] using hch⟩
  | case9 c ch after hn _ hline hch run' e hr ih =>
    cases h
    obtain ⟨raw₁, hraw₁, hch₁, _⟩ := Cursor.next_reads hn
    obtain ⟨raw, hraw, hrun, hfree, hend⟩ := ih hr
    refine ⟨raw₁ ++ raw, hraw₁.trans hraw, ?_, ?_, hend⟩
    · rw [hraw₁.normal_append hraw, hch₁, hrun, doubled_cons hch]; rfl
    · simp only [List.mem_cons, not_or]; exact ⟨fun h => hline h.symm, hfree⟩

/-! ## Symbols -/

/-- What is read as one character, and is not a line break, is one character. -/
theorem exists_of_normal {raw : List Char} {ch : Char} (h : normal raw = [ch]) (hch : ch ≠ '\n') :
    ∃ c, raw = [c] ∧ shown c = ch := by
  rcases raw with _ | ⟨c, rest⟩
  · cases h
  · cases hb : isBreak c with
    | true => rw [normal_of_isBreak hb] at h; exact absurd (List.cons.inj h).1.symm hch
    | false =>
      rw [normal_of_not_isBreak hb] at h
      obtain ⟨hc, hrest⟩ := List.cons.inj h
      obtain rfl : rest = [] := Classical.not_not.1 fun hne => normal_ne_nil hne hrest
      exact ⟨c, rfl, hc⟩

theorem eq_of_normal_commentMark {raw : List Char} (h : normal raw = [commentMark]) : raw = [commentMark] := by
  obtain ⟨c, rfl, hc⟩ := exists_of_normal h (by decide)
  unfold shown at hc
  split at hc
  · cases hc
  · rw [hc]

theorem gap_of_normal_space {raw gap after : List Char} (h : normal raw = [' ']) (hg : Gap gap after) :
    Gap (raw ++ gap) after := by
  obtain ⟨c, rfl, hc⟩ := exists_of_normal h (by decide)
  unfold shown at hc
  split at hc
  · rename_i ht
    exact .blank (.inr ht) hg
  · exact .blank (.inl hc) hg

/-- The gap in front of a symbol, and the character that the symbol begins with. -/
theorem skipBlanks_reads {c d : Cursor} {ch : Char} (h : skipBlanks c = .ok (some ch) d) :
    ∃ gap first e, c.Reads gap e ∧ e.Reads first d ∧ normal first = [ch] ∧ d.last = e.here ∧ Gap gap e.rest := by
  fun_induction skipBlanks c generalizing d with
  | case1 | case2 => cases h
  | case3 c after _ hn _ ih =>
    obtain ⟨gap, first, e, hgap, hfirst, hch, hlast, hg⟩ := ih h
    obtain ⟨mark, hmark, hm, _⟩ := Cursor.next_reads hn
    obtain ⟨body, hbody, hfree, hend⟩ := after.skipLine_reads
    rw [eq_of_normal_commentMark hm] at hmark
    refine ⟨[commentMark] ++ (body ++ gap), first, e, hmark.trans (hbody.trans hgap), hfirst, hch, hlast, ?_⟩
    rw [hgap.rest] at hend
    show Gap (commentMark :: body ++ gap) e.rest
    exact .comment hfree hend hg
  | case4 c after _ hn _ _ ih =>
    obtain ⟨gap, first, e, hgap, hfirst, hch, hlast, hg⟩ := ih h
    obtain ⟨raw, hraw, hr, _⟩ := Cursor.next_reads hn
    exact ⟨raw ++ gap, first, e, hraw.trans hgap, hfirst, hch, hlast, gap_of_normal_space hr hg⟩
  | case5 c ch' after hn =>
    cases h
    obtain ⟨raw, hraw, hr, hlast⟩ := Cursor.next_reads hn
    exact ⟨[], raw, c, .refl c, hraw, hr, hlast, .nil⟩

/-- The gap at the end of a text. -/
theorem skipBlanks_none {c d : Cursor} (h : skipBlanks c = .ok none d) : Gap c.rest [] := by
  fun_induction skipBlanks c generalizing d with
  | case1 => cases h
  | case2 c hn => rw [Cursor.rest_of_next_none hn]; exact .nil
  | case3 c after _ hn _ ih =>
    obtain ⟨mark, hmark, hm, _⟩ := Cursor.next_reads hn
    obtain ⟨body, hbody, hfree, hend⟩ := after.skipLine_reads
    rw [hmark.rest, eq_of_normal_commentMark hm, hbody.rest]
    show Gap (commentMark :: body ++ after.skipLine.rest) []
    exact .comment hfree (by rwa [List.append_nil]) (ih h)
  | case4 c after _ hn _ _ ih =>
    obtain ⟨raw, hraw, hr, _⟩ := Cursor.next_reads hn
    rw [hraw.rest]
    exact gap_of_normal_space hr (ih h)
  | case5 => cases h

/-- The symbol `s` consists of the character `ch` and what lies between two cursors, and cannot go on
there. -/
structure Found (ch : Char) (c : Cursor) (s : Symbol) (d : Cursor) : Prop where
  reads : ∃ raw, c.Reads raw d ∧ s.spelling = ch :: normal raw
  spells : s.token.Spells s.spelling
  position : s.position = c.last
  ends : ∀ x ∈ (normal d.rest).head?, EndsAt s.spelling x

theorem Found.of_text {ch : Char} {c d : Cursor} {raw : List Char} {s : Symbol} (hraw : c.Reads raw d)
    (hstring : s.token ≠ .string) (htext : s.text.toList = ch :: normal raw) (hs : s.token.Spells (ch :: normal raw))
    (hposition : s.position = c.last) (hend : ∀ x ∈ (normal d.rest).head?, EndsAt (ch :: normal raw) x) :
    Found ch c s d := by
  have hspelling : s.spelling = ch :: normal raw := by rw [Symbol.spelling, if_neg hstring, htext]
  exact ⟨⟨raw, hraw, hspelling⟩, hspelling ▸ hs, hposition, hspelling ▸ hend⟩

theorem marks_ne_string : ∀ m ∈ marks, m.2 ≠ .string := by decide

/-- A mark of one character. -/
theorem found_mark {ch : Char} {c : Cursor} {s : Symbol} (hm : ([ch], s.token) ∈ marks)
    (htext : s.text.toList = [ch]) (hposition : s.position = c.last)
    (hend : ∀ x ∈ (normal c.rest).head?, joins ch x = false) : Found ch c s c :=
  .of_text (.refl c) (marks_ne_string _ hm) htext (.mark hm) hposition fun x hx => endsAt_mark hm (hend x hx)

/-- A mark of two characters. -/
theorem found_mark_pair {ch second : Char} {c d : Cursor} {raw : List Char} {s : Symbol} (hraw : c.Reads raw d)
    (hn : normal raw = [second]) (hm : ([ch, second], s.token) ∈ marks) (htext : s.text.toList = [ch, second])
    (hposition : s.position = c.last) : Found ch c s d := by
  refine .of_text hraw (marks_ne_string _ hm) ?_ ?_ hposition fun x _ => ?_ <;> rw [hn]
  · exact htext
  · exact .mark hm
  · exact endsAt_mark_pair hm

theorem mark_of_single? {ch : Char} {t : Token} (h : single? ch = some t) :
    ([ch], t) ∈ marks ∧ ∀ x, joins ch x = false := by
  unfold single? at h
  split at h <;> simp at h <;> subst h <;> exact ⟨by decide, fun x => by simp [joins, joinable?]⟩

theorem mark_of_joinable? {ch : Char} {op : BinaryOperator} (h : joinable? ch = some op) :
    ([ch], .operator (.binary op)) ∈ marks ∧ ([ch, '='], .update op) ∈ marks ∧
      ∀ x, x ≠ '=' → joins ch x = false := by
  unfold joinable? at h
  split at h <;> simp at h <;> subst h <;>
    exact ⟨by decide, by decide, fun x hx => by simp [joins, hx]⟩

theorem mark_of_relation {ch : Char} (h : ch = '<' ∨ ch = '>') :
    ([ch], .operator (.binary (relation ch none))) ∈ marks ∧
      (∀ x, continuesRelation ch x = true → ([ch, x], .operator (.binary (relation ch (some x)))) ∈ marks) ∧
      ∀ x, continuesRelation ch x = false → joins ch x = false := by
  rcases h with rfl | rfl
  · refine ⟨by decide, fun x hx => ?_, fun x hx => by simp [joins, joinable?, hx]⟩
    have hx : x = '=' ∨ x = '>' := by simpa [continuesRelation] using hx
    rcases hx with rfl | rfl <;> decide
  · refine ⟨by decide, fun x hx => ?_, fun x hx => by simp [joins, joinable?, hx]⟩
    have hx : x = '=' := by simpa [continuesRelation] using hx
    subst hx; decide

theorem keyword_ne (text : String) :
    (Token.ofKeyword? text).getD .name ≠ .string ∧ (Token.ofKeyword? text).getD .name ≠ .eof := by
  have hall : ∀ k ∈ Token.keywords, k.2 ≠ .string ∧ k.2 ≠ .eof := by decide
  rcases hk : Token.ofKeyword? text with _ | t
  · simp
  · rw [Token.ofKeyword?, List.lookup_eq_some_iff] at hk
    obtain ⟨before, after, heq, _⟩ := hk
    exact hall (Text.toCapitals text, t) (by rw [heq]; simp)

/-- A name or a keyword. -/
theorem found_word {ch : Char} {c d : Cursor} {raw : List Char} {s : Symbol} (hraw : c.Reads raw d)
    (htoken : s.token = (Token.ofKeyword? s.text).getD .name) (htext : s.text = String.ofList (ch :: normal raw))
    (hposition : s.position = c.last) (hopens : opensName ch = true)
    (hall : ∀ x ∈ normal raw, continuesName x = true)
    (hend : ∀ x ∈ (normal d.rest).head?, continuesName x = false) : Found ch c s d := by
  refine .of_text hraw ?_ ?_ ?_ hposition fun x hx => endsAt_word hopens (hend x hx)
  · rw [htoken]; exact (keyword_ne s.text).1
  · rw [htext, String.toList_ofList]
  · rw [htoken, htext]; exact .word hopens hall

theorem found_of_symbol {ch : Char} {c d : Cursor} {s : Symbol} (h : symbol ch c = .ok s d) : Found ch c s d := by
  unfold symbol at h
  simp only at h
  split at h
  · rename_i token hsingle
    cases h
    obtain ⟨hm, hj⟩ := mark_of_single? hsingle
    exact found_mark hm (by simp) rfl fun x _ => hj x
  · split at h
    · rename_i hangle
      obtain ⟨hone, htwo, hj⟩ := mark_of_relation (by simpa using hangle)
      split at h
      · cases h
      · rename_i second e ht
        cases h
        rcases second with _ | second
        · obtain ⟨rfl, hend⟩ := takeIf_none ht
          exact found_mark hone (by simp) rfl fun x hx => hj x (hend x hx)
        · obtain ⟨hp, raw, hraw, hn⟩ := takeIf_some ht
          exact found_mark_pair hraw hn (htwo second hp) (by simp) rfl
    · split at h
      · rename_i op hjoin
        obtain ⟨hone, htwo, hj⟩ := mark_of_joinable? hjoin
        split at h
        · cases h
        · rename_i second e ht
          cases h
          obtain ⟨hp, raw, hraw, hn⟩ := takeIf_some ht
          obtain rfl : second = '=' := by simpa using hp
          exact found_mark_pair hraw hn htwo (by simp) rfl
        · rename_i e ht
          cases h
          obtain ⟨rfl, hend⟩ := takeIf_none ht
          exact found_mark hone (by simp) rfl fun x hx => hj x (by simpa using hend x hx)
      · split at h
        · rename_i hquote
          subst hquote
          split at h
          · cases h
          · rename_i run e hs
            cases h
            obtain ⟨raw, hraw, hn, hfree, hend⟩ := string_reads hs
            refine ⟨⟨raw, hraw, ?_⟩, ?_, rfl, fun x hx => ?_⟩
            · simp [Symbol.spelling, hn]
            · simpa [Symbol.spelling] using Token.Spells.string hfree
            · simpa [Symbol.spelling] using endsAt_string (hend x hx)
        · split at h
          · rename_i hdigit
            split at h
            · cases h
            · rename_i run e hnum
              obtain ⟨raw, hraw, rfl, hs, hend⟩ := number_reads hdigit hnum
              split at h
              · cases h
                exact .of_text hraw (by simp) (by simp) hs rfl hend
              · cases h
          · split at h
            · rename_i hopens
              split at h
              · cases h
              · rename_i run e hrun
                obtain ⟨rfl, rfl⟩ := EStateM.Result.ok.inj h
                obtain ⟨raw, hraw, rfl, hall, hend⟩ := takeWhile_reads hrun
                exact found_word hraw (by dsimp only) rfl rfl hopens hall hend
            · cases h

/-! ## Whole texts -/

theorem token_ne_eof {t : Token} {w : List Char} (h : t.Spells w) : t ≠ .eof := by
  have hmarks : ∀ m ∈ marks, m.2 ≠ .eof := by decide
  cases h with
  | mark hm => exact hmarks _ hm
  | whole | decimal | string => simp
  | word => exact (keyword_ne _).2

theorem next_eq_eof {c d : Cursor} {s : Symbol} (h : next c = .ok s d) (hs : s.token = .eof) :
    skipBlanks c = .ok none d := by
  unfold next at h
  split at h
  · cases h
  · rename_i hb
    cases h; exact hb
  · exact absurd hs (token_ne_eof (found_of_symbol h).spells)

theorem next_eq_symbol {c d : Cursor} {s : Symbol} (h : next c = .ok s d) (hs : s.token ≠ .eof) :
    ∃ ch after, skipBlanks c = .ok (some ch) after ∧ symbol ch after = .ok s d := by
  unfold next at h
  split at h
  · cases h
  · cases h; exact absurd rfl hs
  · rename_i hb
    exact ⟨_, _, hb, h⟩

/-- Symbols that are asked for one after the other are those of the scanned text. -/
theorem scan_of_gives {c : Cursor} {symbols : List Symbol} (h : Gives c symbols) :
    ∃ ending, scan c = ⟨symbols, .ok ending⟩ := by
  induction h with
  | done hn hs =>
    rw [scan]
    split
    · rename_i h; rw [next_eq_eof hn hs] at h; cases h
    · exact ⟨_, rfl⟩
    · rename_i h; rw [next_eq_eof hn hs] at h; cases h
  | more hn hs _ ih =>
    obtain ⟨ch, after, hb, hsym⟩ := next_eq_symbol hn hs
    obtain ⟨ending, ih⟩ := ih
    refine ⟨ending, ?_⟩
    rw [scan]
    split
    · rename_i h; rw [hb] at h; cases h
    · rename_i h; rw [hb] at h; cases h
    · rename_i h
      rw [hb] at h; cases h
      split
      · rename_i h; rw [hsym] at h; cases h
      · rename_i h
        rw [hsym] at h; cases h
        rw [ih]

theorem gives_of_scan {c : Cursor} {ending : Symbol} (h : (scan c).ending = .ok ending) :
    Gives c (scan c).ahead := by
  fun_induction scan c with
  | case1 | case3 => cases h
  | case2 c d hs => exact .done (by rw [next, hs]) rfl
  | case4 c ch after hs s behind hsym _ _ more =>
    rename_i ih
    exact .more (by rw [next, hs]; exact hsym) (token_ne_eof (found_of_symbol hsym).spells) (ih h)

/-- The symbols from a cursor on are those that the text there consists of. -/
theorem scanned_of_gives {before : List Char} {c : Cursor} {symbols : List Symbol} (hc : c.Stands before)
    (h : Gives c symbols) : Scanned before symbols c.rest := by
  induction h generalizing before with
  | done hn hs => exact .done (skipBlanks_none (next_eq_eof hn hs))
  | @more c d s ss hn hs _ ih =>
    obtain ⟨ch, after, hb, hsym⟩ := next_eq_symbol hn hs
    obtain ⟨gap, first, e, hgap, hfirst, hch, hlast, hg⟩ := skipBlanks_reads hb
    obtain ⟨⟨raw, hraw, hspelling⟩, hspells, hposition, hend⟩ := found_of_symbol hsym
    have hslice : normal (first ++ raw) = s.spelling := by
      rw [hfirst.normal_append hraw, hch, hspelling]; rfl
    have he : e.Stands (before ++ gap) := hgap.stands before hc
    have hd : d.Stands (before ++ gap ++ (first ++ raw)) := (hfirst.trans hraw).stands _ he
    have hrest : e.rest = first ++ raw ++ d.rest := (hfirst.trans hraw).rest
    rw [hgap.rest, hrest, ← List.append_assoc]
    refine .symbol ?_ ?_ hslice hspells ?_ (ih hd)
    · rw [← hrest]; exact hg
    · rw [hposition, hlast, he.here]
    · exact longest_of_reads (hfirst.trans hraw) fun x hx => hslice ▸ hend x hx

/-- A text that is scanned to its end consists of the symbols found, in order and each as long as it can
be, and of blanks and comments around them. -/
theorem scanned_text {text : String} {symbols : List Symbol} (h : Gives (.ofString text) symbols) :
    Scanned [] symbols text.toList ∧ ∃ ending, Symbols.ofString text = ⟨symbols, .ok ending⟩ :=
  ⟨scanned_of_gives (Cursor.ofString_stands text) h, scan_of_gives h⟩

/-- Two assignments in three lines, with tabs, a doubled quote, a comment and three kinds of line break. -/
def sample : String := "x\t= \"a\"\"\tb\" ' one\r\ny<>=\n\rz&=1.5"

theorem scanned_sample :
    Gives (.ofString sample) (Symbols.ofString sample).ahead ∧
      Scanned [] (Symbols.ofString sample).ahead sample.toList ∧
      (Symbols.ofString sample).ahead.map (fun s => (s.text, s.position)) =
        [("x", ⟨1, 1, 0⟩), ("=", ⟨1, 3, 2⟩), ("a\" b", ⟨1, 5, 4⟩), ("\n", ⟨1, 18, 17⟩),
         ("y", ⟨2, 1, 19⟩), ("<>", ⟨2, 2, 20⟩), ("=", ⟨2, 4, 22⟩), ("\n", ⟨2, 5, 23⟩),
         ("z", ⟨3, 1, 25⟩), ("&=", ⟨3, 2, 26⟩), ("1.5", ⟨3, 4, 28⟩)] := by
  have hg : Gives (.ofString sample) (Symbols.ofString sample).ahead := by
    have hok : ((scan (.ofString sample)).ending.toOption).isSome = true := by decide +kernel
    rcases he : (scan (.ofString sample)).ending with f | ending
    · rw [he] at hok; cases hok
    · exact gives_of_scan he
  exact ⟨hg, (scanned_text hg).1, by decide +kernel⟩

end MacroBasic.Scanner
