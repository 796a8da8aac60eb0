/-
A place in a source text and the reading of one character from it. A line break of any flavour is read
as one line feed and a tab as a space; a control character cannot be read. Every step forward leaves
less of the text, which is what ends the loops of the scanner.
-/
import MacroBasic.Fault

namespace MacroBasic

/-- Whether a character is a control character. -/
def Text.isControl (c : Char) : Bool := c.toNat < 0x20 || (0x7f ≤ c.toNat && c.toNat ≤ 0x9f)

/-- Whether a character begins a line break. -/
def Text.isBreak (c : Char) : Bool := c == '\r' || c == '\n'

/-- What is left to read of a text, and where that stands. -/
structure Cursor where
  /-- The characters not yet read. -/
  rest : List Char
  /-- The line of the next character. -/
  line : Nat := 1
  /-- The column of the next character. -/
  column : Nat := 1
  /-- The number of characters read. -/
  index : Nat := 0
  /-- The place of the character read last. -/
  last : Position := .start

namespace Cursor

/-- The beginning of a text. -/
def ofString (s : String) : Cursor where
  rest := s.toList

/-- The place of the next character. -/
def here (c : Cursor) : Position := ⟨c.line, c.column, c.index⟩

/-- Whether the whole text has been read. -/
def atEnd (c : Cursor) : Bool := c.rest.isEmpty

/-- What follows a line break that begins with the character `first`: carriage return and line feed
next to each other are one break. -/
def afterBreak (first : Char) : List Char → List Char × Nat
  | [] => ([], 1)
  | second :: rest =>
    if Text.isBreak second && second != first then (rest, 2) else (second :: rest, 1)

/-- The cursor behind a line break. -/
def passBreak (c : Cursor) (first : Char) (rest : List Char) : Cursor :=
  let (rest, count) := afterBreak first rest
  { rest := rest, line := c.line + 1, column := 1, index := c.index + count, last := c.here }

/-- The cursor behind a character that is not a line break. -/
def pass (c : Cursor) (rest : List Char) : Cursor :=
  { rest := rest, line := c.line, column := c.column + 1, index := c.index + 1, last := c.here }

/-- The fault of meeting a character that cannot be read. -/
def invalid (c : Cursor) (ch : Char) : Fault :=
  let digits := (Nat.toDigits 16 ch.toNat).map Char.toUpper
  let padded := List.replicate (4 - digits.length) '0' ++ digits
  (Fault.because .invalidCharacter
    ("Invalid character U+" ++ String.ofList padded ++ " in source")).place c.here

/-- The next character and the cursor behind it, or nothing at the end. -/
def next (c : Cursor) : Except Fault (Option (Char × Cursor)) :=
  match c.rest with
  | [] => .ok none
  | ch :: rest =>
    if Text.isBreak ch then .ok (some ('\n', c.passBreak ch rest))
    else if ch = '\t' then .ok (some (' ', c.pass rest))
    else if Text.isControl ch then .error (c.invalid ch)
    else .ok (some (ch, c.pass rest))

/-- The cursor in front of the next line break, or at the end. Nothing on the way is looked at. -/
def skipLine (c : Cursor) : Cursor :=
  go c c.rest
where
  /-- Passes the characters of the rest of the line one by one. -/
  go (c : Cursor) : List Char → Cursor
    | [] => c
    | ch :: rest => if Text.isBreak ch then c else go (c.pass rest) rest

/-! ## What is left gets shorter -/

theorem afterBreak_length (first : Char) (rest : List Char) :
    (afterBreak first rest).1.length ≤ rest.length := by
  unfold afterBreak
  split
  · simp
  · split <;> simp

theorem next_length {c d : Cursor} {ch : Char} (h : c.next = .ok (some (ch, d))) :
    d.rest.length < c.rest.length := by
  unfold next at h
  split at h
  · simp at h
  · rename_i first rest hr
    have hb := afterBreak_length first rest
    rw [hr, List.length_cons]
    split at h
    · simp only [Except.ok.injEq, Option.some.injEq, Prod.mk.injEq] at h
      rw [← h.2]; simp only [passBreak]; omega
    · split at h
      · simp only [Except.ok.injEq, Option.some.injEq, Prod.mk.injEq] at h
        rw [← h.2]; simp [pass]
      · split at h
        · simp at h
        · simp only [Except.ok.injEq, Option.some.injEq, Prod.mk.injEq] at h
          rw [← h.2]; simp [pass]

theorem skipLine_go_length (c : Cursor) (rest : List Char) (h : rest.length ≤ c.rest.length) :
    (skipLine.go c rest).rest.length ≤ c.rest.length := by
  induction rest generalizing c with
  | nil => simp [skipLine.go]
  | cons ch rest ih =>
    rw [List.length_cons] at h
    unfold skipLine.go
    split
    · exact Nat.le_refl _
    · have := ih (c.pass rest) (by simp [pass])
      simp only [pass] at this ⊢
      omega

theorem skipLine_length (c : Cursor) : c.skipLine.rest.length ≤ c.rest.length :=
  skipLine_go_length c c.rest (Nat.le_refl _)

end Cursor

end MacroBasic
