/-
Sets of characters given as tables: ascending ranges of code points that do not meet. A table is
searched from the front and the search stops at the first range that begins behind the character.
-/

namespace MacroBasic.Text

/-- Ascending ranges of code points, both ends included. -/
abbrev Ranges := List (Nat × Nat)

namespace Ranges

/-- Whether one of the ranges holds a code point. -/
def containsPoint (n : Nat) : Ranges → Bool
  | [] => false
  | (low, high) :: rest => low ≤ n && (n ≤ high || containsPoint n rest)

/-- Whether one of the ranges holds a character. -/
def contains (r : Ranges) (c : Char) : Bool := r.containsPoint c.toNat

end Ranges

end MacroBasic.Text
