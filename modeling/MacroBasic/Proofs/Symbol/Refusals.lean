/-
The faults of scanning. A source is refused for a control character, for a character that begins no symbol, or for a
string that is not closed, each time with a place. A number is never refused: what the scanner takes for one is a
numeral.
-/
import MacroBasic.Proofs.Symbol.Scanning
import MacroBasic.Proofs.Symbol.Normalization
import MacroBasic.Proofs.Value.Numerals
import Mathlib.Data.List.TakeWhile

namespace MacroBasic

open Scanner

/-! ## Numerals -/

namespace Decimal

variable {digits : List Char} {first : Char}

/-- Digits, perhaps with a point and more digits behind them, are a numeral. -/
theorem readNumeral_isSome (hfirst : first.isDigit = true) (hdigits : ∀ x ∈ digits, x.isDigit = true)
    {behind : List Char}
    (hbehind : behind = [] ∨ ∃ fraction, behind = '.' :: fraction ∧ ∀ x ∈ fraction, x.isDigit = true) :
    (readNumeral (first :: digits ++ behind)).isSome = true := by
  have hall : AllDigits (first :: digits) := List.forall_mem_cons.2 ⟨hfirst, hdigits⟩
  have hmantissa : IsMantissa '.' (first :: digits ++ behind) := by
    rcases hbehind with rfl | ⟨fraction, rfl, hfraction⟩
    · rw [List.append_nil]
      exact .whole hall (List.cons_ne_nil _ _)
    · exact .split hall hfraction (by simp)
  exact readNumeral_isSome_iff.2 (.inl ⟨[], _, rfl, .none, _, [], (List.append_nil _).symm, hmantissa, .none⟩)

end Decimal

/-! ## Faults -/

/-- What is said of a number that is no numeral. -/
def Scanner.malformed : String := "Malformed number"

/-- A fault that scanning raises. -/
structure Fault.OfScan (f : Fault) : Prop where
  placed : f.position.isSome = true
  code : f.code = .invalidCharacter ∨ f.code ∈ [.unknownSymbol, .endOfSource, .endOfLine]
  message : f.message ≠ Scanner.malformed

/-- Scanning that ends with a result, or with a fault of scanning. -/
def Scanner.Fails {α : Type} (x : Scan α) : Prop := ∀ f d, x = .error f d → f.OfScan

namespace Scanner

variable {c : Cursor}

theorem ne_malformed {text : String} (ch : Char) (h : text.toList.head? = some ch) (hch : ch ≠ 'M')
    (rest more : String) : text ++ rest ++ more ≠ malformed := by
  intro heq
  have hhead : (text ++ rest ++ more).toList.head? = some ch := by
    simp only [String.toList_append, List.head?_append, h, Option.some_or]
  rw [heq] at hhead
  exact hch (Option.some.inj hhead).symm

theorem ofScan_place {code : FaultCode} {message : String}
    (hcode : code = .invalidCharacter ∨ code ∈ [.unknownSymbol, .endOfSource, .endOfLine])
    (hmessage : message ≠ malformed) (p : Position) : ((Fault.because code message).place p).OfScan :=
  ⟨rfl, hcode, hmessage⟩

theorem ofScan_next {f : Fault} (h : c.next = .error f) : f.OfScan := by
  unfold Cursor.next at h
  split at h
  · cases h
  · split at h
    · cases h
    · split at h
      · cases h
      · split at h
        · cases h
          exact ofScan_place (by decide) (ne_malformed 'I' rfl (by decide) _ _) _
        · cases h

theorem fails_takeWhile (p : Char → Bool) (c : Cursor) : Fails (takeWhile p c) := by
  intro f d h
  fun_induction takeWhile p c generalizing d with
  | case1 c g hn => cases h; exact ofScan_next hn
  | case2 | case3 | case5 => cases h
  | case4 c ch after hn _ _ g after' hr ih => cases h; exact ih _ hr

theorem fails_takeIf (p : Char → Bool) (c : Cursor) : Fails (takeIf p c) := by
  intro f d h
  unfold takeIf at h
  split at h
  · rename_i hn
    cases h
    exact ofScan_next hn
  · split at h <;> cases h
  · cases h

theorem fails_number (c : Cursor) : Fails (number c) := by
  intro f d h
  unfold number at h
  split at h
  · rename_i h₁
    cases h
    exact fails_takeWhile _ _ _ _ h₁
  · split at h
    · rename_i h₂
      cases h
      exact fails_takeIf _ _ _ _ h₂
    · cases h
    · split at h
      · rename_i h₃
        cases h
        exact fails_takeWhile _ _ _ _ h₃
      · cases h

theorem fails_string (c : Cursor) : Fails (string c) := by
  intro f d h
  rw [string_eq] at h
  split at h
  · rename_i hn
    cases h
    exact ofScan_next hn
  · cases h
    exact ofScan_place (by decide) (by decide) _
  · rename_i ch after hn
    have := Cursor.next_length hn
    split at h
    · cases h
      exact ofScan_place (by decide) (by decide) _
    · split at h
      · split at h
        · rename_i hn'
          cases h
          exact ofScan_next hn'
        · cases h
        · rename_i second behind hn'
          have := Cursor.next_length hn'
          split at h
          · split at h
            · cases h
            · rename_i hr
              cases h
              exact fails_string _ _ _ hr
          · cases h
      · split at h
        · cases h
        · rename_i hr
          cases h
          exact fails_string _ _ _ hr
termination_by c.rest.length

theorem fails_skipBlanks (c : Cursor) : Fails (skipBlanks c) := by
  intro f d h
  fun_induction skipBlanks c with
  | case1 c g hn => cases h; exact ofScan_next hn
  | case2 | case5 => cases h
  | case3 | case4 =>
    rename_i ih
    exact ih h

/-- What the scanner takes for a number is a numeral. -/
theorem readNumeral_of_number {first : Char} {d : Cursor} {run : List Char} (hfirst : first.isDigit = true)
    (h : number c = .ok run d) : (Decimal.readNumeral (first :: run)).isSome = true := by
  unfold number at h
  split at h
  · cases h
  · rename_i whole c₁ h₁
    obtain ⟨_, _, _, hwhole, _⟩ := takeWhile_reads h₁
    split at h
    · cases h
    · cases h
      simpa using Decimal.readNumeral_isSome hfirst hwhole (.inl rfl)
    · rename_i point c₂ h₂
      obtain ⟨hpoint, _⟩ := takeIf_some h₂
      obtain rfl : point = '.' := by simpa using hpoint
      split at h
      · cases h
      · rename_i fraction c₃ h₃
        cases h
        obtain ⟨_, _, _, hfraction, _⟩ := takeWhile_reads h₃
        exact Decimal.readNumeral_isSome hfirst hwhole (.inr ⟨fraction, rfl, hfraction⟩)

theorem fails_symbol (ch : Char) (c : Cursor) : Fails (symbol ch c) := by
  intro f d h
  unfold symbol at h
  dsimp only at h
  split at h
  · cases h
  · split at h
    · split at h
      · rename_i ht
        cases h
        exact fails_takeIf _ _ _ _ ht
      · cases h
    · split at h
      · split at h
        · rename_i ht
          cases h
          exact fails_takeIf _ _ _ _ ht
        · cases h
        · cases h
      · split at h
        · split at h
          · rename_i ht
            cases h
            exact fails_string _ _ _ ht
          · cases h
        · split at h
          · rename_i hdigit
            split at h
            · rename_i ht
              cases h
              exact fails_number _ _ _ ht
            · rename_i hrun
              have hnumeral := readNumeral_of_number hdigit hrun
              split at h
              · cases h
              · rename_i hnone
                rw [hnone] at hnumeral
                cases hnumeral
          · split at h
            · split at h
              · rename_i ht
                cases h
                exact fails_takeWhile _ _ _ _ ht
              · cases h
            · cases h
              exact ofScan_place (by decide) (ne_malformed 'U' rfl (by decide) _ _) _

/-- The fault that stops the scan of a text is one of scanning. -/
theorem ofScan_scan {f : Fault} (c : Cursor) (h : (scan c).ending = .error f) : f.OfScan := by
  rw [scan_eq] at h
  split at h
  · rename_i hb
    cases h
    exact fails_skipBlanks _ _ _ hb
  · cases h
  · rename_i ch after hb
    split at h
    · rename_i hs
      cases h
      exact fails_symbol _ _ _ _ hs
    · rename_i hs
      have := skipBlanks_length hb
      have := symbol_length hs
      exact ofScan_scan _ h
termination_by c.rest.length

end Scanner

end MacroBasic
