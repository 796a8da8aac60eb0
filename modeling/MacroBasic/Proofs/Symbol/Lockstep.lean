/-
Two scans in step. Where the cursors in two texts read the same characters one after the other, the scanner finds
symbols of the same classes, texts and values, or is stopped by faults that are reported alike. What is the same about
places, and which faults are reported alike, is left to the relation between the texts.
-/
import MacroBasic.Symbol.Scanner
import Mathlib.Data.List.Forall2

namespace MacroBasic

namespace Scanner

/-! ## One step of a scan -/

theorem takeWhile_eq (p : Char → Bool) (c : Cursor) :
    takeWhile p c = match c.next with
      | .error f => .error f c
      | .ok none => .ok [] c
      | .ok (some (ch, after)) =>
        if p ch then
          match takeWhile p after with
          | .ok run after => .ok (ch :: run) after
          | .error f after => .error f after
        else .ok [] c := by
  rw [takeWhile]
  split
  · rename_i hn; simp only [hn]
  · rename_i hn; simp only [hn]
  · rename_i hn
    dsimp only
    exact hn ▸ rfl

theorem string_eq (c : Cursor) :
    string c = match c.next with
      | .error f => .error f c
      | .ok none =>
        .error ((Fault.because .endOfSource
          "String not closed; unexpected end of source encountered").place c.last) c
      | .ok (some (ch, after)) =>
        if ch = '\n' then
          .error ((Fault.because .endOfLine
            "String not closed; unexpected end of line encountered").place after.last) after
        else if ch = quote then
          match after.next with
          | .error f => .error f after
          | .ok none => .ok [] after
          | .ok (some (second, behind)) =>
            if second = quote then
              match string behind with
              | .ok run c => .ok (quote :: run) c
              | .error f c => .error f c
            else .ok [] after
        else
          match string after with
          | .ok run c => .ok (ch :: run) c
          | .error f c => .error f c := by
  rw [string]
  split
  · rename_i hn; simp only [hn]
  · rename_i hn; simp only [hn]
  · rename_i ch after hn
    simp only [hn]
    split
    · rfl
    · split
      · split
        · rename_i hn'; simp only [hn']
        · rename_i hn'; simp only [hn']
        · rename_i hn'
          exact hn' ▸ rfl
      · rfl

theorem skipBlanks_eq (c : Cursor) :
    skipBlanks c = match c.next with
      | .error f => .error f c
      | .ok none => .ok none c
      | .ok (some (ch, after)) =>
        if ch = commentMark then skipBlanks after.skipLine
        else if ch = ' ' then skipBlanks after
        else .ok (some ch) after := by
  rw [skipBlanks]
  split <;> simp_all

theorem scan_eq (c : Cursor) :
    scan c = match skipBlanks c with
      | .error f _ => ⟨[], .error f⟩
      | .ok none c => ⟨[], .ok (endOfSource c)⟩
      | .ok (some ch) after =>
        match symbol ch after with
        | .error f _ => ⟨[], .error f⟩
        | .ok s behind => ⟨s :: (scan behind).ahead, (scan behind).ending⟩ := by
  rw [scan]
  split
  · rename_i hb; simp only [hb]
  · rename_i hb; simp only [hb]
  · rename_i hb
    simp only [hb]
    split
    · rename_i hs; simp only [hs]
    · rename_i hs; simp only [hs]

/-! ## Texts that are read alike -/

/-- What two readings come to when they are alike. -/
inductive Readings (R : Cursor → Cursor → Prop) (F : Fault → Fault → Prop) :
    Except Fault (Option (Char × Cursor)) → Except Fault (Option (Char × Cursor)) → Prop
  | none : Readings R F (.ok none) (.ok none)
  | some {ch : Char} {c d : Cursor} : R c d → Readings R F (.ok (some (ch, c))) (.ok (some (ch, d)))
  | error {f g : Fault} : F f g → Readings R F (.error f) (.error g)

/-- A way to relate cursors that read the same characters. -/
structure Lockstep where
  cursor : Cursor → Cursor → Prop
  /-- The places of which the same is known. -/
  place : Position → Position → Prop
  /-- The faults that are reported alike. -/
  fault : Fault → Fault → Prop
  next : ∀ {c d}, cursor c d → Readings cursor fault c.next d.next
  skipLine : ∀ {c d}, cursor c d → cursor c.skipLine d.skipLine
  last : ∀ {c d}, cursor c d → place c.last d.last
  succ : ∀ {p q}, place p q → place p.succ q.succ
  placed : ∀ {p q}, place p q → ∀ f : Fault, fault (f.place p) (f.place q)

namespace Lockstep

variable (L : Lockstep)

/-- What two scans come to when they are alike. -/
inductive Scans {α : Type} (R : α → α → Prop) : Scan α → Scan α → Prop
  | ok {a b : α} {c d : Cursor} : R a b → L.cursor c d → Scans R (.ok a c) (.ok b d)
  | error {f g : Fault} {c d : Cursor} : L.fault f g → Scans R (.error f c) (.error g d)

/-- Symbols of one class, text and value at related places. -/
structure Same (s t : Symbol) : Prop where
  token : s.token = t.token
  text : s.text = t.text
  position : L.place s.position t.position
  value : s.value = t.value

/-- The ends of two texts, or the faults that stop their scans. -/
inductive Ends : Except Fault Symbol → Except Fault Symbol → Prop
  | ok {s t : Symbol} : L.Same s t → Ends (.ok s) (.ok t)
  | error {f g : Fault} : L.fault f g → Ends (.error f) (.error g)

/-- Scanned texts with the same symbols, up to places. -/
structure Texts (x y : Symbols) : Prop where
  ahead : List.Forall₂ L.Same x.ahead y.ahead
  ending : L.Ends x.ending y.ending

variable {L}

/-! ## Runs of characters -/

theorem takeWhile_scans (p : Char → Bool) {c d : Cursor} (h : L.cursor c d) :
    L.Scans Eq (takeWhile p c) (takeWhile p d) := by
  rw [takeWhile_eq p c, takeWhile_eq p d]
  have hnext := L.next h
  generalize hc : c.next = x, d.next = y at hnext
  cases hnext with
  | none => exact .ok rfl h
  | error hf => exact .error hf
  | @some ch after after' ha =>
    have := Cursor.next_length hc
    dsimp only
    split
    · have ih := takeWhile_scans p ha
      generalize takeWhile p after = u, takeWhile p after' = v at ih
      cases ih with
      | ok hrun hb => exact .ok (congrArg (ch :: ·) hrun) hb
      | error hf => exact .error hf
    · exact .ok rfl h
termination_by c.rest.length

theorem takeIf_scans (p : Char → Bool) {c d : Cursor} (h : L.cursor c d) :
    L.Scans Eq (takeIf p c) (takeIf p d) := by
  unfold takeIf
  have hnext := L.next h
  generalize c.next = x, d.next = y at hnext
  cases hnext with
  | none => exact .ok rfl h
  | error hf => exact .error hf
  | some ha =>
    dsimp only
    split
    · exact .ok rfl ha
    · exact .ok rfl h

theorem number_scans {c d : Cursor} (h : L.cursor c d) : L.Scans Eq (number c) (number d) := by
  unfold number
  have hw := takeWhile_scans Char.isDigit h
  generalize takeWhile Char.isDigit c = x, takeWhile Char.isDigit d = y at hw
  cases hw with
  | error hf => exact .error hf
  | @ok whole _ c d hwhole h =>
    subst hwhole
    dsimp only
    have hp := takeIf_scans (· == '.') h
    generalize takeIf (· == '.') c = x, takeIf (· == '.') d = y at hp
    cases hp with
    | error hf => exact .error hf
    | @ok point _ c d hpoint h =>
      subst hpoint
      cases point with
      | none => exact .ok rfl h
      | some point =>
        dsimp only
        have hf := takeWhile_scans Char.isDigit h
        generalize takeWhile Char.isDigit c = x, takeWhile Char.isDigit d = y at hf
        cases hf with
        | error hf => exact .error hf
        | ok hfraction h => exact .ok (by rw [hfraction]) h

theorem string_scans {c d : Cursor} (h : L.cursor c d) : L.Scans Eq (string c) (string d) := by
  rw [string_eq c, string_eq d]
  have hnext := L.next h
  generalize hc : c.next = x, d.next = y at hnext
  cases hnext with
  | none => exact .error (L.placed (L.last h) _)
  | error hf => exact .error hf
  | @some ch after after' ha =>
    have := Cursor.next_length hc
    dsimp only
    split
    · exact .error (L.placed (L.last ha) _)
    · split
      · have hsecond := L.next ha
        generalize hc' : after.next = x, after'.next = y at hsecond
        cases hsecond with
        | none => exact .ok rfl ha
        | error hf => exact .error hf
        | @some second behind behind' hb =>
          have := Cursor.next_length hc'
          dsimp only
          split
          · have ih := string_scans hb
            generalize string behind = u, string behind' = v at ih
            cases ih with
            | ok hrun hb => exact .ok (congrArg (quote :: ·) hrun) hb
            | error hf => exact .error hf
          · exact .ok rfl ha
      · have ih := string_scans ha
        generalize string after = u, string after' = v at ih
        cases ih with
        | ok hrun hb => exact .ok (congrArg (ch :: ·) hrun) hb
        | error hf => exact .error hf
termination_by c.rest.length

/-! ## Symbols -/

theorem skipBlanks_scans {c d : Cursor} (h : L.cursor c d) : L.Scans Eq (skipBlanks c) (skipBlanks d) := by
  rw [skipBlanks_eq c, skipBlanks_eq d]
  have hnext := L.next h
  generalize hc : c.next = x, d.next = y at hnext
  cases hnext with
  | none => exact .ok rfl h
  | error hf => exact .error hf
  | @some ch after after' ha =>
    have hlen := Cursor.next_length hc
    have hline := Cursor.skipLine_length after
    dsimp only
    split
    · exact skipBlanks_scans (L.skipLine ha)
    · split
      · exact skipBlanks_scans ha
      · exact .ok rfl ha
termination_by c.rest.length

theorem symbol_scans (ch : Char) {c d : Cursor} (h : L.cursor c d) : L.Scans L.Same (symbol ch c) (symbol ch d) := by
  unfold symbol
  dsimp only
  split
  · exact .ok ⟨rfl, rfl, L.last h, rfl⟩ h
  · split
    · have hs := takeIf_scans (continuesRelation ch) h
      generalize takeIf (continuesRelation ch) c = x, takeIf (continuesRelation ch) d = y at hs
      cases hs with
      | error hf => exact .error hf
      | ok hsecond hb => subst hsecond; exact .ok ⟨rfl, rfl, L.last h, rfl⟩ hb
    · split
      · have hs := takeIf_scans (· == '=') h
        generalize takeIf (· == '=') c = x, takeIf (· == '=') d = y at hs
        cases hs with
        | error hf => exact .error hf
        | @ok second _ _ _ hsecond hb =>
          subst hsecond
          cases second <;> exact .ok ⟨rfl, rfl, L.last h, rfl⟩ hb
      · split
        · have hs := string_scans h
          generalize string c = x, string d = y at hs
          cases hs with
          | error hf => exact .error hf
          | ok hrun hb => subst hrun; exact .ok ⟨rfl, rfl, L.last h, rfl⟩ hb
        · split
          · have hs := number_scans h
            generalize number c = x, number d = y at hs
            cases hs with
            | error hf => exact .error hf
            | ok hrun hb =>
              subst hrun
              dsimp only
              split
              · exact .ok ⟨rfl, rfl, L.last h, rfl⟩ hb
              · exact .error (L.placed (L.last h) _)
          · split
            · have hs := takeWhile_scans continuesName h
              generalize takeWhile continuesName c = x, takeWhile continuesName d = y at hs
              cases hs with
              | error hf => exact .error hf
              | ok hrun hb => subst hrun; exact .ok ⟨rfl, rfl, L.last h, rfl⟩ hb
            · exact .error (L.placed (L.last h) _)

theorem endOfSource_same {c d : Cursor} (h : L.cursor c d) : L.Same (endOfSource c) (endOfSource d) :=
  ⟨rfl, rfl, L.succ (L.last h), rfl⟩

/-- Cursors that read the same characters give the same symbols. -/
theorem scan_texts {c d : Cursor} (h : L.cursor c d) : L.Texts (scan c) (scan d) := by
  rw [scan_eq c, scan_eq d]
  have hblanks := skipBlanks_scans h
  generalize hx : skipBlanks c = x, skipBlanks d = y at hblanks
  cases hblanks with
  | error hf => exact ⟨.nil, .error hf⟩
  | @ok first _ after after' hfirst ha =>
    subst hfirst
    cases first with
    | none => exact ⟨.nil, .ok (endOfSource_same ha)⟩
    | some ch =>
      dsimp only
      have hsymbol := symbol_scans ch ha
      generalize hu : symbol ch after = u, symbol ch after' = v at hsymbol
      cases hsymbol with
      | error hf => exact ⟨.nil, .error hf⟩
      | @ok s t behind behind' hs hb =>
        have := skipBlanks_length hx
        have := symbol_length hu
        obtain ⟨hahead, hending⟩ := scan_texts hb
        exact ⟨.cons hs hahead, hending⟩
termination_by c.rest.length

end Lockstep

end Scanner

end MacroBasic
