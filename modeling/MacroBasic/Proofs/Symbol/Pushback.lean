/-
Going back in a stream. The scanner goes back right after it has read a character, so going back never fails, and what
it finds in a stream is what it finds by looking ahead.
-/
import MacroBasic.Compiler.Scanner
import MacroBasic.Proofs.Grammar.Asking

namespace MacroBasic

namespace Stream

/-! ## Going back never fails -/

/-- A stream and a cursor find the same, or fail in the same way. -/
inductive Agrees {α : Type} : Except Fault (α × Stream) → Scanner.Scan α → Prop
  | ok {a : α} {s : Stream} : Agrees (.ok (a, s)) (.ok a s.cursor)
  | error {f : Fault} {c : Cursor} : Agrees (.error f) (.error f c)

/-- Only these two cases have to be looked at. -/
@[elab_as_elim]
theorem Agrees.elim {α : Type} {motive : Except Fault (α × Stream) → Scanner.Scan α → Prop}
    {y : Except Fault (α × Stream)} {x : Scanner.Scan α} (h : Agrees y x)
    (ok : ∀ a s, motive (.ok (a, s)) (.ok a s.cursor)) (error : ∀ f c, motive (.error f) (.error f c)) :
    motive y x := by
  cases h with
  | ok => exact ok _ _
  | error => exact error _ _

variable {s after : Stream}

theorem next_error {f : Fault} (h : s.next = .error f) : s.cursor.next = .error f := by
  unfold next at h
  split at h
  · cases h
  · cases h
  · rename_i hn
    cases h
    exact hn

theorem next_none (h : s.next = .ok (none, after)) : s.cursor.next = .ok none ∧ after = s := by
  unfold next at h
  split at h
  · cases h
  · rename_i hn
    cases h
    exact ⟨hn, rfl⟩
  · cases h

theorem next_some {ch : Char} (h : s.next = .ok (some ch, after)) :
    ∃ c, s.cursor.next = .ok (some (ch, c)) ∧ after = ⟨c, some s.cursor⟩ := by
  unfold next at h
  split at h
  · rename_i hn
    cases h
    exact ⟨_, hn, rfl⟩
  · cases h
  · cases h

/-! ### Runs of characters -/

theorem name_agrees (s : Stream) : Agrees s.name (Scanner.takeWhile Scanner.continuesName s.cursor) := by
  rw [Scanner.takeWhile_eq]
  unfold name
  split
  · rename_i hn
    rw [next_error hn]
    exact .error
  · rename_i hn
    obtain ⟨hc, rfl⟩ := next_none hn
    rw [hc]
    exact .ok
  · rename_i ch after hn
    have := next_length hn
    obtain ⟨c, hc, rfl⟩ := next_some hn
    rw [hc]
    dsimp only
    split
    · exact (name_agrees ⟨c, some s.cursor⟩).elim (fun _ _ => .ok) fun _ _ => .error
    -- the character that ends the run is given back, which leaves the stream as it was
    · exact .ok
termination_by s.cursor.rest.length

theorem fraction_agrees (s : Stream) : Agrees (s.number true) (Scanner.takeWhile Char.isDigit s.cursor) := by
  rw [Scanner.takeWhile_eq]
  unfold number
  split
  · rename_i hn
    rw [next_error hn]
    exact .error
  · rename_i hn
    obtain ⟨hc, rfl⟩ := next_none hn
    rw [hc]
    exact .ok
  · rename_i ch after hn
    have := next_length hn
    obtain ⟨c, hc, rfl⟩ := next_some hn
    rw [hc]
    dsimp only
    split
    · exact (fraction_agrees ⟨c, some s.cursor⟩).elim (fun _ _ => .ok) fun _ _ => .error
    · rw [if_neg (by simp)]
      exact .ok
termination_by s.cursor.rest.length

theorem number_digit {c after : Cursor} {ch : Char} (hc : c.next = .ok (some (ch, after))) (hch : ch.isDigit = true) :
    Scanner.number c = match Scanner.number after with
      | .ok run d => .ok (ch :: run) d
      | .error f d => .error f d := by
  unfold Scanner.number
  rw [Scanner.takeWhile_eq Char.isDigit c, hc]
  dsimp only
  rw [if_pos hch]
  cases Scanner.takeWhile Char.isDigit after with
  | error f d => rfl
  | ok whole d =>
    dsimp only
    cases Scanner.takeIf (· == '.') d with
    | error f e => rfl
    | ok point e =>
      cases point with
      | none => rfl
      | some point =>
        dsimp only
        cases Scanner.takeWhile Char.isDigit e <;> rfl

theorem number_other {c after : Cursor} {ch : Char} (hc : c.next = .ok (some (ch, after))) (hch : ¬ ch.isDigit = true) :
    Scanner.number c =
      if ch == '.' then
        match Scanner.takeWhile Char.isDigit after with
        | .ok run d => .ok (ch :: run) d
        | .error f d => .error f d
      else .ok [] c := by
  unfold Scanner.number
  rw [Scanner.takeWhile_eq Char.isDigit c, hc]
  dsimp only
  rw [if_neg hch]
  simp only [Scanner.takeIf, hc]
  by_cases hpoint : (ch == '.') = true
  · rw [if_pos hpoint, if_pos hpoint]
    dsimp only
    cases Scanner.takeWhile Char.isDigit after <;> rfl
  · rw [if_neg hpoint, if_neg hpoint]

theorem number_agrees (s : Stream) : Agrees (s.number false) (Scanner.number s.cursor) := by
  unfold number
  split
  · rename_i hn
    rw [Scanner.number, Scanner.takeWhile_eq, next_error hn]
    exact .error
  · rename_i hn
    obtain ⟨hc, rfl⟩ := next_none hn
    simp only [Scanner.number, Scanner.takeWhile_eq, Scanner.takeIf, hc]
    exact .ok
  · rename_i ch after hn
    have := next_length hn
    obtain ⟨c, hc, rfl⟩ := next_some hn
    split
    · rename_i hdigit
      rw [number_digit hc hdigit]
      exact (number_agrees ⟨c, some s.cursor⟩).elim (fun _ _ => .ok) fun _ _ => .error
    · rename_i hdigit
      rw [number_other hc hdigit, Bool.not_false, Bool.and_true]
      split
      · exact (fraction_agrees ⟨c, some s.cursor⟩).elim (fun _ _ => .ok) fun _ _ => .error
      · exact .ok
termination_by s.cursor.rest.length

theorem string_agrees (s : Stream) : Agrees s.string (Scanner.string s.cursor) := by
  rw [Scanner.string_eq]
  unfold string
  split
  · rename_i hn
    rw [next_error hn]
    exact .error
  · rename_i hn
    obtain ⟨hc, rfl⟩ := next_none hn
    rw [hc]
    exact .error
  · rename_i ch after hn
    have := next_length hn
    obtain ⟨c, hc, rfl⟩ := next_some hn
    rw [hc]
    dsimp only
    split
    · exact .error
    · split
      · split
        · rename_i hn'
          rw [next_error hn']
          exact .error
        · rename_i hn'
          obtain ⟨hc', rfl⟩ := next_none hn'
          rw [hc']
          exact .ok
        · rename_i second behind hn'
          have := next_length hn'
          obtain ⟨d, hd, rfl⟩ := next_some hn'
          rw [hd]
          dsimp only
          split
          -- a doubled quote belongs to the string, so that two characters are passed at once
          · have hshorter : d.rest.length < s.cursor.rest.length := Nat.lt_trans ‹_› ‹_›
            exact (string_agrees ⟨d, some c⟩).elim (fun _ _ => .ok) fun _ _ => .error
          · exact .ok
      · exact (string_agrees ⟨c, some s.cursor⟩).elim (fun _ _ => .ok) fun _ _ => .error
termination_by s.cursor.rest.length

theorem follows_agrees (chars : List Char) (s : Stream) :
    Agrees (s.follows chars) (Scanner.takeIf chars.contains s.cursor) := by
  unfold follows Scanner.takeIf
  cases hn : s.next with
  | error f =>
    rw [next_error hn]
    exact .error
  | ok read =>
    obtain ⟨found, after⟩ := read
    cases found with
    | none =>
      obtain ⟨hc, rfl⟩ := next_none hn
      rw [hc]
      exact .ok
    | some ch =>
      obtain ⟨c, hc, rfl⟩ := next_some hn
      rw [hc]
      show Agrees (if chars.contains ch then _ else _) (if chars.contains ch then _ else _)
      split
      · exact .ok
      · exact .ok

/-! ### Symbols -/

theorem skipBlanks_agrees (s : Stream) : Agrees s.skipBlanks (Scanner.skipBlanks s.cursor) := by
  rw [Scanner.skipBlanks_eq]
  unfold skipBlanks
  split
  · rename_i hn
    rw [next_error hn]
    exact .error
  · rename_i hn
    obtain ⟨hc, rfl⟩ := next_none hn
    rw [hc]
    exact .ok
  · rename_i ch after hn
    have := next_length hn
    obtain ⟨c, hc, rfl⟩ := next_some hn
    have hshorter : c.skipLine.rest.length < s.cursor.rest.length := Nat.lt_of_le_of_lt c.skipLine_length ‹_›
    rw [hc]
    dsimp only
    split
    -- behind a comment the stream cannot go back, but the next character is read before it has to
    · exact skipBlanks_agrees ⟨c.skipLine, none⟩
    · split
      · exact skipBlanks_agrees ⟨c, some s.cursor⟩
      · exact .ok
termination_by s.cursor.rest.length

theorem takeIf_congr {p q : Char → Bool} (h : ∀ ch, p ch = q ch) (c : Cursor) :
    Scanner.takeIf p c = Scanner.takeIf q c := by
  rw [funext h]

theorem symbol_agrees (ch : Char) (s : Stream) : Agrees (symbol ch s) (Scanner.symbol ch s.cursor) := by
  unfold symbol Scanner.symbol
  cases Scanner.single? ch with
  | some token => exact .ok
  | none =>
  dsimp only
  by_cases hrelation : (decide (ch = '<') || decide (ch = '>')) = true
  · have hsame (second : Char) : (if ch = '<' then ['=', '>'] else ['=']).contains second
        = Scanner.continuesRelation ch second := by
      unfold Scanner.continuesRelation
      by_cases hch : ch = '<' <;> simp [hch, beq_eq_decide]
    rw [if_pos hrelation, if_pos hrelation, ← takeIf_congr hsame]
    exact (follows_agrees _ s).elim (fun _ _ => .ok) fun _ _ => .error
  rw [if_neg hrelation, if_neg hrelation]
  cases Scanner.joinable? ch with
  | some op =>
    have hsame (second : Char) : ['='].contains second = (second == '=') := by simp [beq_eq_decide]
    dsimp only
    rw [← takeIf_congr hsame]
    refine (follows_agrees _ s).elim (fun second _ => ?_) fun _ _ => .error
    cases second <;> exact .ok
  | none =>
  dsimp only
  by_cases hquote : ch = Scanner.quote
  · rw [if_pos hquote, if_pos hquote]
    exact (string_agrees s).elim (fun _ _ => .ok) fun _ _ => .error
  rw [if_neg hquote, if_neg hquote]
  by_cases hdigit : ch.isDigit = true
  · rw [if_pos hdigit, if_pos hdigit]
    refine (number_agrees s).elim (fun run t => ?_) fun _ _ => .error
    simp only [bind, Except.bind]
    cases Decimal.readNumeral (ch :: run) with
    | some x => exact .ok
    | none => exact .error
  rw [if_neg hdigit, if_neg hdigit]
  by_cases hname : Scanner.opensName ch = true
  · rw [if_pos hname, if_pos hname]
    exact (name_agrees s).elim (fun _ _ => .ok) fun _ _ => .error
  rw [if_neg hname, if_neg hname]
  exact .error

theorem nextSymbol_agrees (s : Stream) : Agrees s.nextSymbol (Scanner.next s.cursor) := by
  unfold nextSymbol Scanner.next
  refine (skipBlanks_agrees s).elim (fun found t => ?_) fun _ _ => .error
  cases found with
  | none => exact .ok
  | some ch => exact symbol_agrees ch t

/-! ### Texts -/

theorem nextSymbol_length {t : Stream} {sym : Symbol} (h : s.nextSymbol = .ok (sym, t)) (hs : sym.token ≠ .eof) :
    t.cursor.rest.length < s.cursor.rest.length := by
  have hagrees := nextSymbol_agrees s
  generalize hx : Scanner.next s.cursor = x at hagrees
  rw [h] at hagrees
  cases hagrees
  obtain ⟨raw, hraw, hrest⟩ := Scanner.next_takes hx hs
  have hpos := List.length_pos_iff.2 hraw
  rw [hrest, List.length_append]
  omega

/-- All symbols from here on. -/
def symbols (s : Stream) : Symbols :=
  match h : s.nextSymbol with
  | .error f => ⟨[], .error f⟩
  | .ok (sym, t) =>
    if hs : sym.token = .eof then ⟨[], .ok sym⟩
    else
      have := nextSymbol_length h hs
      let more := symbols t
      ⟨sym :: more.ahead, more.ending⟩
termination_by s.cursor.rest.length

/-- A stream has the symbols that scanning finds by looking ahead. -/
theorem symbols_eq_scan (s : Stream) : s.symbols = Scanner.scan s.cursor := by
  have hagrees := nextSymbol_agrees s
  rw [Scanner.scan_next]
  unfold symbols
  split
  · rename_i f hn
    generalize Scanner.next s.cursor = x at hagrees
    rw [hn] at hagrees
    cases hagrees
    rfl
  · rename_i sym t hn
    generalize Scanner.next s.cursor = x at hagrees
    rw [hn] at hagrees
    cases hagrees
    dsimp only
    by_cases hs : sym.token = .eof
    · rw [dif_pos hs, if_pos hs]
    · have := nextSymbol_length hn hs
      rw [dif_neg hs, if_neg hs, symbols_eq_scan t]
termination_by s.cursor.rest.length

end Stream

end MacroBasic
