/-
A source text as a stream of characters with one step of push-back. A failed reading changes nothing;
going back undoes the last reading once.
-/
import MacroBasic.Source.Cursor

namespace MacroBasic

/-- A stream of characters. -/
structure Stream where
  cursor : Cursor
  /-- Where the stream goes when the last reading is undone. -/
  undo : Option Cursor := none

namespace Stream

/-- The stream of a text. -/
def ofString (s : String) : Stream where
  cursor := .ofString s

/-- The place of the character most recently read. -/
def position (s : Stream) : Position := s.cursor.last

/-- Whether the whole text has been read. -/
def atEnd (s : Stream) : Bool := s.cursor.atEnd

/-- Reads one character; nothing at the end. -/
def next (s : Stream) : Except Fault (Option Char × Stream) :=
  match s.cursor.next with
  | .ok (some (ch, cursor)) => .ok (some ch, ⟨cursor, some s.cursor⟩)
  | .ok none => .ok (none, s)
  | .error f => .error f

/-- Undoes the last reading. -/
def back (s : Stream) : Except Fault Stream :=
  match s.undo with
  | some cursor => .ok ⟨cursor, none⟩
  | none =>
    if s.cursor.index = 0 then .error { code := .backPastStart }
    else .error ((Fault.because .backTwice "Only one character can be pushed back").place s.position)

/-- Drops everything up to, but not including, the next line break. -/
def skipLine (s : Stream) : Stream := ⟨s.cursor.skipLine, none⟩

end Stream

end MacroBasic
