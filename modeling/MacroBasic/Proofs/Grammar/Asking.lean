/-
What the parser asks of the scanner. A call of the scanner fails, gives the end symbol, which every later call gives
again, or takes something from the text. The parser asks for no symbol behind the end symbol, so that it makes do
with as many calls as the text has characters, and one more. That each of its loops and recursions ends is part of
its definition: all of them leave fewer symbols behind, or go on to a tighter level of the grammar.
-/
import MacroBasic.Proofs.Grammar.Identity
import MacroBasic.Proofs.Symbol.Normalization
import MacroBasic.Proofs.Symbol.Scanning

namespace MacroBasic

namespace Scanner

/-! ## Calls of the scanner -/

/-- The symbols that a parser is given which may ask for `k` of them, where each is asked for by one more call of the
scanner. Asking for another one raises the fault `f`. -/
def calls (f : Fault) : Nat → Cursor → Symbols
  | 0, _ => ⟨[], .error f⟩
  | k + 1, c =>
    match next c with
    | .error g _ => ⟨[], .error g⟩
    | .ok s d => ⟨s :: (calls f k d).ahead, (calls f k d).ending⟩

theorem next_of_skipBlanks_none {c d : Cursor} (h : skipBlanks c = .ok none d) :
    next c = .ok (endOfSource d) d ∧ next d = .ok (endOfSource d) d := by
  have hend : d.next = .ok none := by
    fun_induction skipBlanks c with
    | case1 | case5 => cases h
    | case2 c hn => cases h; exact hn
    | case3 | case4 =>
      rename_i ih
      exact ih h
  have hagain : skipBlanks d = .ok none d := by rw [skipBlanks_eq, hend]
  exact ⟨by rw [next, h], by rw [next, hagain]⟩

/-- At the end of the source every call gives the end symbol. -/
theorem calls_of_eof {c d : Cursor} {s : Symbol} (h : next c = .ok s d) (hs : s.token = .eof) (f : Fault) (k : Nat) :
    calls f k d = ⟨List.replicate k s, .error f⟩ := by
  obtain ⟨hc, hd⟩ := next_of_skipBlanks_none (next_eq_eof h hs)
  rw [h] at hc
  obtain ⟨rfl, _⟩ := EStateM.Result.ok.inj hc
  induction k with
  | zero => rfl
  | succ k ih => rw [calls, hd]; simp only [ih, List.replicate_succ]

/-- A call that gives another symbol takes something from the text. -/
theorem next_takes {c d : Cursor} {s : Symbol} (h : next c = .ok s d) (hs : s.token ≠ .eof) :
    ∃ raw, raw ≠ [] ∧ c.rest = raw ++ d.rest := by
  obtain ⟨ch, after, hblanks, hsymbol⟩ := next_eq_symbol h hs
  obtain ⟨gap, first, e, hgap, hfirst, hch, _, _⟩ := skipBlanks_reads hblanks
  obtain ⟨raw, hraw, _⟩ := (found_of_symbol hsymbol).reads
  refine ⟨gap ++ first ++ raw, ?_, ((hgap.trans hfirst).trans hraw).rest⟩
  have hne : first ≠ [] := by
    rintro rfl
    rw [Text.normal_nil] at hch
    cases hch
  simp [hne]

theorem scan_next (c : Cursor) :
    scan c = match next c with
      | .error g _ => ⟨[], .error g⟩
      | .ok s d => if s.token = .eof then ⟨[], .ok s⟩ else ⟨s :: (scan d).ahead, (scan d).ending⟩ := by
  rw [scan_eq, next]
  cases hblanks : skipBlanks c with
  | error g d => rfl
  | ok found after =>
    cases found with
    | none => rfl
    | some ch =>
      dsimp only
      cases hsymbol : symbol ch after with
      | error g d => rfl
      | ok s d => exact (if_neg (token_ne_eof (found_of_symbol hsymbol).spells)).symm

/-- A text has no more symbols than characters. -/
theorem scan_length (c : Cursor) : (scan c).ahead.length ≤ c.rest.length := by
  rw [scan_next]
  split
  · exact Nat.zero_le _
  · rename_i s d hnext
    split
    · exact Nat.zero_le _
    · rename_i hs
      obtain ⟨raw, hraw, hrest⟩ := next_takes hnext hs
      have hpos := List.length_pos_iff.2 hraw
      have hlength : c.rest.length = raw.length + d.rest.length := by rw [hrest, List.length_append]
      have := scan_length d
      simp only [List.length_cons]
      omega
termination_by c.rest.length

/-- With enough calls the parser is given the scanned text, perhaps with more end symbols behind it. -/
theorem texts_calls (f : Fault) (k : Nat) (c : Cursor) (h : (scan c).ahead.length < k) :
    (Grammar.Likeness.identical False).Texts (scan c) (calls f k c) := by
  -- on the calls: each gives one symbol of the text, until one gives the end symbol
  induction k generalizing c with
  | zero => omega
  | succ k ih =>
    rw [scan_next] at h ⊢
    rw [calls]
    split
    · exact .nil (.error rfl)
    · rename_i s d hnext
      rw [hnext] at h
      dsimp only at h
      split
      · rename_i hs
        exact .ended rfl rfl hs
      · rename_i hs
        rw [if_neg hs] at h
        exact .cons rfl (ih d (by simpa using h))

end Scanner

namespace Grammar

open Scanner

/-- Every call of the scanner fails, gives the end symbol and goes on giving it, or takes something from the text. A
text has no more symbols than characters, and the parser makes do with the calls that give them and the one that
gives the end symbol or fails. -/
theorem script_asks (source : String) :
    (∀ c : Cursor,
      (∃ g d, next c = .error g d) ∨
      (∃ s d, next c = .ok s d ∧ s.token = .eof ∧ ∀ f k, calls f k d = ⟨List.replicate k s, .error f⟩) ∨
      ∃ s d raw, next c = .ok s d ∧ s.token ≠ .eof ∧ raw ≠ [] ∧ c.rest = raw ++ d.rest) ∧
    (Symbols.ofString source).ahead.length ≤ source.length ∧
    ∀ f k, (Symbols.ofString source).ahead.length < k → ∀ explicit external shared,
      script (calls f k (.ofString source)) explicit external shared =
        script (.ofString source) explicit external shared := by
  refine ⟨fun c => ?_, scan_length _, fun f k hk explicit external shared => ?_⟩
  · cases hnext : next c with
    | error g d => exact .inl ⟨g, d, rfl⟩
    | ok s d =>
      by_cases hs : s.token = .eof
      · exact .inr (.inl ⟨s, d, rfl, hs, calls_of_eof hnext hs⟩)
      · obtain ⟨raw, hraw, hrest⟩ := next_takes hnext hs
        exact .inr (.inr ⟨s, d, raw, rfl, hs, hraw, hrest⟩)
  · exact (Likeness.script_eq (texts_calls f k _ hk) explicit external (.refl fun _ _ => rfl)).symm

/-- A text that ends in the middle of an expression: the sixth call gives the end symbol, and a seventh call, which
would raise a fault of its own, is not made. -/
theorem script_asks_unfinished :
    (Symbols.ofString "x = (y +").ahead.length = 5 ∧
      ∀ f explicit external shared,
        script (calls f 6 (.ofString "x = (y +")) explicit external shared =
          script (.ofString "x = (y +") explicit external shared := by
  have hlength : (Symbols.ofString "x = (y +").ahead.length = 5 := by decide +kernel
  exact ⟨hlength, fun f => (script_asks "x = (y +").2.2 f 6 (by rw [hlength]; decide)⟩

end Grammar

end MacroBasic
