/-
Scanning by reading one character too many and going back. A stream can undo one reading only, and not behind a
comment that has been skipped.
-/
import MacroBasic.Source.Stream
import MacroBasic.Symbol.Scanner

namespace MacroBasic

namespace Stream

/-! ## Scanning a stream -/

theorem next_length {s after : Stream} {ch : Char} (h : s.next = .ok (some ch, after)) :
    after.cursor.rest.length < s.cursor.rest.length := by
  unfold next at h
  split at h
  · rename_i hn
    cases h
    exact Cursor.next_length hn
  · cases h
  · cases h

/-- The next character if it is one of the given ones. -/
def follows (chars : List Char) (s : Stream) : Except Fault (Option Char × Stream) := do
  match ← s.next with
  | (some ch, after) => if chars.contains ch then return (some ch, after) else return (none, ← after.back)
  | (none, after) => return (none, after)

/-- The rest of a number, which may have one point in it. -/
def number (decimal : Bool) (s : Stream) : Except Fault (List Char × Stream) :=
  match h : s.next with
  | .error f => .error f
  | .ok (none, after) => .ok ([], after)
  | .ok (some ch, after) => do
    have := next_length h
    if ch.isDigit then
      let (run, s) ← number decimal after
      return (ch :: run, s)
    else if ch == '.' && !decimal then
      let (run, s) ← number true after
      return (ch :: run, s)
    else return ([], ← after.back)
termination_by s.cursor.rest.length

/-- The rest of a name. -/
def name (s : Stream) : Except Fault (List Char × Stream) :=
  match h : s.next with
  | .error f => .error f
  | .ok (none, after) => .ok ([], after)
  | .ok (some ch, after) => do
    have := next_length h
    if Scanner.continuesName ch then
      let (run, s) ← name after
      return (ch :: run, s)
    else return ([], ← after.back)
termination_by s.cursor.rest.length

/-- The rest of a string. -/
def string (s : Stream) : Except Fault (List Char × Stream) :=
  match h : s.next with
  | .error f => .error f
  | .ok (none, after) =>
    .error ((Fault.because .endOfSource
      "String not closed; unexpected end of source encountered").place after.position)
  | .ok (some ch, after) => do
    have := next_length h
    if ch = '\n' then
      throw ((Fault.because .endOfLine
        "String not closed; unexpected end of line encountered").place after.position)
    else if ch = Scanner.quote then
      match h' : after.next with
      | .error f => throw f
      | .ok (none, behind) => return ([], behind)
      | .ok (some second, behind) =>
        have := next_length h'
        if second = Scanner.quote then
          let (run, s) ← string behind
          return (Scanner.quote :: run, s)
        else return ([], ← behind.back)
    else
      let (run, s) ← string after
      return (ch :: run, s)
termination_by s.cursor.rest.length

/-- The next character that is neither a space nor part of a comment. -/
def skipBlanks (s : Stream) : Except Fault (Option Char × Stream) :=
  match h : s.next with
  | .error f => .error f
  | .ok (none, after) => .ok (none, after)
  | .ok (some ch, after) =>
    have := next_length h
    have := Cursor.skipLine_length after.cursor
    if ch = Scanner.commentMark then skipBlanks after.skipLine
    else if ch = ' ' then skipBlanks after
    else .ok (some ch, after)
termination_by s.cursor.rest.length
decreasing_by all_goals first | omega | (simp only [skipLine]; omega)

/-- The symbol that begins with the character `ch`, read just before. -/
def symbol (ch : Char) (s : Stream) : Except Fault (Symbol × Stream) := do
  let p := s.position
  match Scanner.single? ch with
  | some token => return ({ token := token, text := ch.toString, position := p }, s)
  | none =>
  if ch = '<' || ch = '>' then
    let (second, s) ← s.follows (if ch = '<' then ['=', '>'] else ['='])
    return ({ token := .operator (.binary (Scanner.relation ch second))
              text := String.ofList (ch :: second.toList), position := p }, s)
  else match Scanner.joinable? ch with
  | some op =>
    let (second, s) ← s.follows ['=']
    match second with
    | some _ => return ({ token := .update op, text := ch.toString ++ "=", position := p }, s)
    | none => return ({ token := .operator (.binary op), text := ch.toString, position := p }, s)
  | none =>
  if ch = Scanner.quote then
    let (run, s) ← s.string
    let text := String.ofList run
    return ({ token := .string, text := text, position := p, value := some (.text text) }, s)
  else if ch.isDigit then
    let (run, s) ← s.number false
    match Decimal.readNumeral (ch :: run) with
    | some x =>
      return ({ token := .number, text := String.ofList (ch :: run), position := p
                value := some (.number x) }, s)
    | none => throw ((Fault.because .unknownSymbol "Malformed number").place p)
  else if Scanner.opensName ch then
    let (run, s) ← s.name
    let text := String.ofList (ch :: run)
    return ({ token := (Token.ofKeyword? text).getD .name, text := text, position := p }, s)
  else
    throw ((Fault.because .unknownSymbol
      ("Unknown symbol starting with character '" ++ Text.showChar ch ++ "'")).place p)

/-- The next symbol. -/
def nextSymbol (s : Stream) : Except Fault (Symbol × Stream) := do
  match ← s.skipBlanks with
  | (none, s) => return ({ token := .eof, text := "", position := s.position.succ }, s)
  | (some ch, s) => symbol ch s

end Stream

end MacroBasic
