/-
Breaking a source text into symbols. Spaces and comments separate symbols; names, numbers and
operators take as many characters as they can. A scan that fails leaves the cursor behind what it had
read, so that scanning can go on from there.
-/
import MacroBasic.Decimal.Numeral
import MacroBasic.Source.Cursor
import MacroBasic.Symbol
import MacroBasic.Text.Letter
import MacroBasic.Text.Numeric

namespace MacroBasic

namespace Scanner

/-- What a part of the scan ends with: a result or a fault, and the cursor behind what was read. -/
abbrev Scan (α : Type) := EStateM.Result Fault Cursor α

/-! ## Character classes -/

/-- The character that begins a comment. -/
def commentMark : Char := '\x27'

/-- The character around a string. -/
def quote : Char := '\x22'

/-- Whether a character may begin a name. -/
def opensName (c : Char) : Bool := Text.isLetter c || c == '_' || c == '@'

/-- Whether a character may stand inside a name. -/
def continuesName (c : Char) : Bool := Text.isLetter c || Text.isNumeric c || c == '_' || c == '@'

/-! ## Runs of characters -/

/-- The longest run of characters of a class. -/
def takeWhile (p : Char → Bool) (c : Cursor) : Scan (List Char) :=
  match h : c.next with
  | .error f => .error f c
  | .ok none => .ok [] c
  | .ok (some (ch, after)) =>
    if p ch then
      have := Cursor.next_length h
      match takeWhile p after with
      | .ok run after => .ok (ch :: run) after
      | .error f after => .error f after
    else .ok [] c
termination_by c.rest.length

/-- The next character if it belongs to a class. -/
def takeIf (p : Char → Bool) (c : Cursor) : Scan (Option Char) :=
  match c.next with
  | .error f => .error f c
  | .ok (some (ch, after)) => if p ch then .ok (some ch) after else .ok none c
  | .ok none => .ok none c

/-- The rest of a number: digits, and a point with more digits if there is a point. -/
def number (c : Cursor) : Scan (List Char) :=
  match takeWhile Char.isDigit c with
  | .error f c => .error f c
  | .ok whole c =>
    match takeIf (· == '.') c with
    | .error f c => .error f c
    | .ok none c => .ok whole c
    | .ok (some point) c =>
      match takeWhile Char.isDigit c with
      | .error f c => .error f c
      | .ok fraction c => .ok (whole ++ point :: fraction) c

/-- The rest of a string up to its closing quote. Two quotes in a row stand for one. -/
def string (c : Cursor) : Scan (List Char) :=
  match h : c.next with
  | .error f => .error f c
  | .ok none =>
    .error ((Fault.because .endOfSource
      "String not closed; unexpected end of source encountered").place c.last) c
  | .ok (some (ch, after)) =>
    have := Cursor.next_length h
    if ch = '\n' then
      .error ((Fault.because .endOfLine
        "String not closed; unexpected end of line encountered").place after.last) after
    else if ch = quote then
      match h' : after.next with
      | .error f => .error f after
      | .ok none => .ok [] after
      | .ok (some (second, behind)) =>
        if second = quote then
          have := Cursor.next_length h'
          match string behind with
          | .ok run c => .ok (quote :: run) c
          | .error f c => .error f c
        else .ok [] after
    else
      match string after with
      | .ok run c => .ok (ch :: run) c
      | .error f c => .error f c
termination_by c.rest.length

/-! ## Symbols -/

/-- The next character that is neither a space nor part of a comment, and the cursor behind it. -/
def skipBlanks (c : Cursor) : Scan (Option Char) :=
  match h : c.next with
  | .error f => .error f c
  | .ok none => .ok none c
  | .ok (some (ch, after)) =>
    have := Cursor.next_length h
    have := Cursor.skipLine_length after
    if ch = commentMark then skipBlanks after.skipLine
    else if ch = ' ' then skipBlanks after
    else .ok (some ch) after
termination_by c.rest.length

/-- The operator that a character stands for when an equals sign may be joined to it. -/
def joinable? : Char → Option BinaryOperator
  | '+' => some .add
  | '-' => some .subtract
  | '*' => some .multiply
  | '/' => some .divide
  | '&' => some .concat
  | '\\' => some .divideInt
  | '%' => some .modulus
  | _ => none

/-- The token of a character that is a symbol by itself whatever follows. -/
def single? : Char → Option Token
  | '\n' | ':' => some .delimiter
  | '(' => some .openParen
  | ')' => some .closeParen
  | ',' => some .comma
  | '=' => some (.operator (.binary .equal))
  | '^' => some (.operator (.binary .power))
  | '!' => some (.operator .factorial)
  | '~' => some (.operator .not)
  | _ => none

/-- The token of an angle bracket and the character that may follow it. -/
def relation (first : Char) (second : Option Char) : BinaryOperator :=
  if first = '<' then
    match second with
    | some '=' => .lessEqual
    | some _ => .notEqual
    | none => .less
  else if second.isSome then .greaterEqual else .greater

/-- The characters that go on a relation begun by an angle bracket. -/
def continuesRelation (first second : Char) : Bool :=
  second == '=' || (first == '<' && second == '>')

/-- The symbol that begins with the character `ch`, read just before the cursor. -/
def symbol (ch : Char) (c : Cursor) : Scan Symbol :=
  let p := c.last
  match single? ch with
  | some token => .ok { token := token, text := ch.toString, position := p } c
  | none =>
  if ch = '<' || ch = '>' then
    match takeIf (continuesRelation ch) c with
    | .error f c => .error f c
    | .ok second c =>
      .ok { token := .operator (.binary (relation ch second))
            text := String.ofList (ch :: second.toList), position := p } c
  else match joinable? ch with
  | some op =>
    match takeIf (· == '=') c with
    | .error f c => .error f c
    | .ok (some _) c => .ok { token := .update op, text := ch.toString ++ "=", position := p } c
    | .ok none c => .ok { token := .operator (.binary op), text := ch.toString, position := p } c
  | none =>
  if ch = quote then
    match string c with
    | .error f c => .error f c
    | .ok run c =>
      let text := String.ofList run
      .ok { token := .string, text := text, position := p, value := some (.text text) } c
  else if ch.isDigit then
    match number c with
    | .error f c => .error f c
    | .ok run c =>
      match Decimal.readNumeral (ch :: run) with
      | some x =>
        .ok { token := .number, text := String.ofList (ch :: run), position := p
              value := some (.number x) } c
      | none => .error ((Fault.because .unknownSymbol "Malformed number").place p) c
  else if opensName ch then
    match takeWhile continuesName c with
    | .error f c => .error f c
    | .ok run c =>
      let text := String.ofList (ch :: run)
      .ok { token := (Token.ofKeyword? text).getD .name, text := text, position := p } c
  else
    .error ((Fault.because .unknownSymbol
      ("Unknown symbol starting with character '" ++ Text.showChar ch ++ "'")).place p) c

/-- The symbol for the end of the source: it stands one place behind the last character. -/
def endOfSource (c : Cursor) : Symbol where
  token := .eof
  text := ""
  position := c.last.succ

/-- The next symbol. At the end of the source every call gives the end symbol. -/
def next (c : Cursor) : Scan Symbol :=
  match skipBlanks c with
  | .error f c => .error f c
  | .ok none c => .ok (endOfSource c) c
  | .ok (some ch) c => symbol ch c

/-! ## What is left gets shorter -/

theorem takeWhile_length {p : Char → Bool} {c d : Cursor} {run : List Char}
    (h : takeWhile p c = .ok run d) : d.rest.length ≤ c.rest.length := by
  fun_induction takeWhile p c generalizing run d with
  | case1 => simp at h
  | case2 => simp only [EStateM.Result.ok.injEq] at h; exact h.2 ▸ Nat.le_refl _
  | case3 c ch after hn hp hl run' after' hr ih =>
    simp only [EStateM.Result.ok.injEq] at h
    have := ih hr
    rw [← h.2]; omega
  | case4 => simp at h
  | case5 => simp only [EStateM.Result.ok.injEq] at h; exact h.2 ▸ Nat.le_refl _

theorem takeIf_length {p : Char → Bool} {c d : Cursor} {r : Option Char}
    (h : takeIf p c = .ok r d) : d.rest.length ≤ c.rest.length := by
  unfold takeIf at h
  split at h
  · simp at h
  · rename_i hn
    have := Cursor.next_length hn
    split at h
    · simp only [EStateM.Result.ok.injEq] at h; rw [← h.2]; omega
    · simp only [EStateM.Result.ok.injEq] at h; exact h.2 ▸ Nat.le_refl _
  · simp only [EStateM.Result.ok.injEq] at h; exact h.2 ▸ Nat.le_refl _

theorem number_length {c d : Cursor} {run : List Char} (h : number c = .ok run d) :
    d.rest.length ≤ c.rest.length := by
  unfold number at h
  split at h
  · simp at h
  · rename_i h1
    have l1 := takeWhile_length h1
    split at h
    · simp at h
    · rename_i h2
      have l2 := takeIf_length h2
      simp only [EStateM.Result.ok.injEq] at h
      rw [← h.2]; omega
    · rename_i h2
      have l2 := takeIf_length h2
      split at h
      · simp at h
      · rename_i h3
        have l3 := takeWhile_length h3
        simp only [EStateM.Result.ok.injEq] at h
        rw [← h.2]; omega

theorem string_length {c d : Cursor} {run : List Char} (h : string c = .ok run d) :
    d.rest.length ≤ c.rest.length := by
  fun_induction string c generalizing run d <;> simp_all <;> omega

theorem skipBlanks_length {c d : Cursor} {ch : Char} (h : skipBlanks c = .ok (some ch) d) :
    d.rest.length < c.rest.length := by
  fun_induction skipBlanks c generalizing d <;> simp_all <;> omega

theorem symbol_length {ch : Char} {c d : Cursor} {s : Symbol} (h : symbol ch c = .ok s d) :
    d.rest.length ≤ c.rest.length := by
  unfold symbol at h
  simp only at h
  split at h
  · simp only [EStateM.Result.ok.injEq] at h; exact h.2 ▸ Nat.le_refl _
  · split at h
    · split at h
      · simp at h
      · rename_i ht
        have := takeIf_length ht
        simp only [EStateM.Result.ok.injEq] at h
        rw [← h.2]; omega
    · split at h
      · split at h
        · simp at h
        all_goals
          rename_i ht
          have := takeIf_length ht
          simp only [EStateM.Result.ok.injEq] at h
          rw [← h.2]; omega
      · split at h
        · split at h
          · simp at h
          · rename_i ht
            have := string_length ht
            simp only [EStateM.Result.ok.injEq] at h
            rw [← h.2]; omega
        · split at h
          · split at h
            · simp at h
            · rename_i ht
              have := number_length ht
              split at h
              · simp only [EStateM.Result.ok.injEq] at h
                rw [← h.2]; omega
              · simp at h
          · split at h
            · split at h
              · simp at h
              · rename_i ht
                have := takeWhile_length ht
                simp only [EStateM.Result.ok.injEq] at h
                rw [← h.2]; omega
            · simp at h

end Scanner

/-! ## Whole texts -/

/-- A scanned text: its symbols in order, and the end symbol or the fault that stopped the scan. -/
structure Symbols where
  ahead : List Symbol
  ending : Except Fault Symbol

namespace Scanner

/-- All symbols from a cursor on. -/
def scan (c : Cursor) : Symbols :=
  match h : skipBlanks c with
  | .error f _ => ⟨[], .error f⟩
  | .ok none c => ⟨[], .ok (endOfSource c)⟩
  | .ok (some ch) after =>
    match h' : symbol ch after with
    | .error f _ => ⟨[], .error f⟩
    | .ok s behind =>
      have := skipBlanks_length h
      have := symbol_length h'
      let more := scan behind
      ⟨s :: more.ahead, more.ending⟩
termination_by c.rest.length

end Scanner

/-- All symbols of a text. -/
def Symbols.ofString (s : String) : Symbols := Scanner.scan (.ofString s)

end MacroBasic
