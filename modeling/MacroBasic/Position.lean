/-
Places in a source text.
-/

namespace MacroBasic

/-- The place of a character or symbol in the source text. -/
structure Position where
  /-- Line number, counted from one. -/
  line : Nat
  /-- Column within the line, counted from one. -/
  column : Nat
  /-- Number of characters of the raw text before this one. -/
  index : Nat
deriving DecidableEq, Repr, Inhabited

namespace Position

/-- The place of nothing. -/
def zero : Position := ⟨0, 0, 0⟩

/-- Where a text stands before its first character is read. -/
def start : Position := ⟨1, 0, 0⟩

/-- The next place on the same line. -/
def succ (p : Position) : Position := ⟨p.line, p.column + 1, p.index + 1⟩

/-- Line and column as a fault shows them. -/
def render (p : Position) : String := s!"{p.line}:{p.column}"

end Position

end MacroBasic
