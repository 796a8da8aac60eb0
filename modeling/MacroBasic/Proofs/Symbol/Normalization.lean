/-
Two texts with one normal form look the same to the scanner: it finds the same symbols at the same lines
and columns, or fails with the same fault. Only the number of raw characters in front of a place depends
on how line breaks and tabs were written.
-/
import MacroBasic.Proofs.Source.Normal
import MacroBasic.Proofs.Symbol.Lockstep

namespace MacroBasic

open Text

/-! ## Places without the number of raw characters -/

/-- A place of which only line and column are kept. -/
def Position.unindexed (p : Position) : Position := { p with index := 0 }

/-- A fault of whose place only line and column are kept. -/
def Fault.unindexed (f : Fault) : Fault := { f with position := f.position.map Position.unindexed }

theorem Position.unindexed_eq_iff {p q : Position} :
    p.unindexed = q.unindexed ↔ p.line = q.line ∧ p.column = q.column := by
  simp [unindexed]

theorem Fault.unindexed_place {p q : Position} (h : p.unindexed = q.unindexed) (f : Fault) :
    (f.place p).unindexed = (f.place q).unindexed := by
  simp [unindexed, place, h]

/-! ## Cursors -/

namespace Cursor

/-- Two cursors in front of the same normal form, at the same line and column. -/
structure Alike (c d : Cursor) : Prop where
  rest : normal c.rest = normal d.rest
  line : c.line = d.line
  column : c.column = d.column
  last : c.last.unindexed = d.last.unindexed

variable {c d : Cursor}

theorem Alike.here (h : c.Alike d) : c.here.unindexed = d.here.unindexed :=
  Position.unindexed_eq_iff.2 ⟨h.line, h.column⟩

theorem Alike.pass (h : c.Alike d) {rest rest' : List Char} (hr : normal rest = normal rest') :
    (c.pass rest).Alike (d.pass rest') :=
  ⟨hr, h.line, congrArg (· + 1) h.column, h.here⟩

theorem Alike.passBreak (h : c.Alike d) {a b : Char} {rest rest' : List Char}
    (hr : normal (afterBreak a rest).1 = normal (afterBreak b rest').1) :
    (c.passBreak a rest).Alike (d.passBreak b rest') :=
  ⟨hr, congrArg (· + 1) h.line, rfl, h.here⟩

/-- What begins two texts with the same normal form: line breaks, or characters read as the same. -/
theorem normal_cons_eq {a : Char} {rest other : List Char} (h : normal (a :: rest) = normal other) :
    ∃ b rest', other = b :: rest' ∧ isBreak a = isBreak b ∧
      (isBreak a = true → normal (afterBreak a rest).1 = normal (afterBreak b rest').1) ∧
      (isBreak a = false → shown a = shown b ∧ normal rest = normal rest') := by
  rcases other with _ | ⟨b, rest'⟩
  · exact absurd h (normal_ne_nil (by simp))
  · refine ⟨b, rest', rfl, ?_⟩
    cases ha : isBreak a <;> cases hb : isBreak b
    · rw [normal_of_not_isBreak ha, normal_of_not_isBreak hb] at h
      exact ⟨rfl, by simp, fun _ => List.cons.inj h⟩
    · rw [normal_of_not_isBreak ha, normal_of_isBreak hb] at h
      exact absurd (List.cons.inj h).1 (shown_ne_lineFeed ha)
    · rw [normal_of_isBreak ha, normal_of_not_isBreak hb] at h
      exact absurd (List.cons.inj h).1.symm (shown_ne_lineFeed hb)
    · rw [normal_of_isBreak ha, normal_of_isBreak hb] at h
      exact ⟨rfl, fun _ => (List.cons.inj h).2, by simp⟩

/-- How a character that is not part of a line break is read. -/
theorem next_cons {a : Char} {rest : List Char} (hrest : c.rest = a :: rest) (ha : isBreak a = false) :
    c.next = if isControl (shown a) then .error (c.invalid (shown a)) else .ok (some (shown a, c.pass rest)) := by
  unfold next
  rw [hrest]
  simp only [ha, Bool.false_eq_true, if_false]
  by_cases ht : a = '\t'
  · subst ht; rfl
  · rw [if_neg ht, shown, if_neg ht]

theorem next_break {a : Char} {rest : List Char} (hrest : c.rest = a :: rest) (ha : isBreak a = true) :
    c.next = .ok (some ('\n', c.passBreak a rest)) := by
  unfold next
  rw [hrest]
  simp only [ha, if_true]

theorem next_nil (hrest : c.rest = []) : c.next = .ok none := by
  unfold next
  rw [hrest]

theorem plain_of_not_isControl {a : Char} (ha : isControl a = false) : isBreak a = false ∧ shown a = a := by
  have hne : ∀ x : Char, isControl x = true → a ≠ x := by
    rintro x hx rfl
    rw [hx] at ha
    cases ha
  exact ⟨by simp [isBreak, hne '\r' (by decide), hne '\n' (by decide)], if_neg (hne '\t' (by decide))⟩

/-- A character that is no control character is read as it is. -/
theorem next_of_not_isControl {a : Char} {rest : List Char} (hrest : c.rest = a :: rest) (ha : isControl a = false) :
    c.next = .ok (some (a, c.pass rest)) := by
  obtain ⟨hbreak, hshown⟩ := plain_of_not_isControl ha
  rw [next_cons hrest hbreak, hshown, ha, if_neg (by simp)]

theorem Alike.next (h : c.Alike d) :
    Scanner.Readings Alike (fun f g => f.unindexed = g.unindexed) c.next d.next := by
  rcases hc : c.rest with _ | ⟨a, rest⟩
  · have hd : d.rest = [] := Classical.not_not.1 fun hne => normal_ne_nil hne (by rw [← h.rest, hc, normal_nil])
    rw [next_nil hc, next_nil hd]; exact .none
  · obtain ⟨b, rest', hd, hab, hbreak, hchar⟩ := normal_cons_eq (hc ▸ h.rest)
    cases ha : isBreak a with
    | true =>
      rw [next_break hc ha, next_break hd (hab ▸ ha)]
      exact .some (h.passBreak (hbreak ha))
    | false =>
      obtain ⟨hshown, hrest⟩ := hchar ha
      rw [next_cons hc ha, next_cons hd (hab ▸ ha), ← hshown]
      split
      · exact .error (Fault.unindexed_place h.here _)
      · exact .some (h.pass hrest)

theorem Alike.skipLine (h : c.Alike d) : c.skipLine.Alike d.skipLine := by
  have key : ∀ (rest : List Char) {c d : Cursor}, c.rest = rest → c.Alike d →
      (skipLine.go c rest).Alike (skipLine.go d d.rest) := by
    intro rest
    induction rest with
    | nil =>
      intro c d hc h
      have hd : d.rest = [] := Classical.not_not.1 fun hne => normal_ne_nil hne (by rw [← h.rest, hc, normal_nil])
      rw [hd]; exact h
    | cons a rest ih =>
      intro c d hc h
      obtain ⟨b, rest', hd, hab, _, hchar⟩ := normal_cons_eq (hc ▸ h.rest)
      rw [hd, skipLine.go, skipLine.go, ← hab]
      split
      · exact h
      · rename_i ha
        exact ih rfl (h.pass (hchar (by simpa using ha)).2)
  exact key c.rest rfl h

end Cursor

/-! ## Symbols -/

namespace Scanner

/-- Texts with one normal form are read alike, up to the number of raw characters in front of a place. -/
def Lockstep.unindexed : Lockstep where
  cursor := Cursor.Alike
  place p q := p.unindexed = q.unindexed
  fault f g := f.unindexed = g.unindexed
  next h := h.next
  skipLine h := h.skipLine
  last h := h.last
  succ h := by
    obtain ⟨hline, hcolumn⟩ := Position.unindexed_eq_iff.1 h
    exact Position.unindexed_eq_iff.2 ⟨hline, congrArg (· + 1) hcolumn⟩
  placed h := Fault.unindexed_place h

/-- Symbols that differ at most in the number of raw characters in front of them. -/
structure SameSymbol (s t : Symbol) : Prop where
  token : s.token = t.token
  text : s.text = t.text
  position : s.position.unindexed = t.position.unindexed
  value : s.value = t.value

theorem Lockstep.Same.unindexed {s t : Symbol} (h : Lockstep.unindexed.Same s t) : SameSymbol s t :=
  ⟨h.token, h.text, h.position, h.value⟩

end Scanner

end MacroBasic
