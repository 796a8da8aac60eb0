/-
Streams as readers of items. A text is cut into items once and for all: each is one character as it is
read, or one that cannot be read, with its place. A reader is a position in the list of items that moves
one item forward, back over the item it has just read, or up to the next line break. Whatever moves are
made one after the other, a stream answers them as the reader does and shows the same place.
-/
import MacroBasic.Proofs.Source.Normal
import MacroBasic.Source.Stream

namespace MacroBasic

open Text

/-! ## Items -/

/-- A character of a text, as it is read, or as it stands there if it cannot be read. -/
structure Item where
  reading : Except Char Char
  place : Position

/-- Whether an item is a line break. -/
def Item.isBreak (x : Item) : Bool :=
  match x.reading with
  | .ok ch => ch == '\n'
  | .error _ => false

/-- What a character that is not part of a line break is read as, if it can be read. -/
def Text.reading (c : Char) : Except Char Char :=
  if c = '\t' then .ok ' ' else if isControl c then .error c else .ok c

/-- The items of a text whose first character stands at the given place. -/
def Text.items (p : Position) : List Char → List Item
  | [] => []
  | '\r' :: '\n' :: rest | '\n' :: '\r' :: rest => ⟨.ok '\n', p⟩ :: items ⟨p.line + 1, 1, p.index + 2⟩ rest
  | '\r' :: rest | '\n' :: rest => ⟨.ok '\n', p⟩ :: items ⟨p.line + 1, 1, p.index + 1⟩ rest
  | c :: rest => ⟨reading c, p⟩ :: items p.succ rest

/-- The fault of an item that cannot be read. -/
def Item.refusal (raw : Char) (place : Position) : Fault where
  code := .invalidCharacter
  position := some place
  message :=
    let digits := (Nat.toDigits 16 raw.toNat).map Char.toUpper
    "Invalid character U+" ++ String.ofList (List.replicate (4 - digits.length) '0' ++ digits) ++ " in source"

/-! ## Moves -/

/-- What can be asked of a stream. -/
inductive Move where
  /-- Read one character. -/
  | next
  /-- Undo the last reading. -/
  | back
  /-- Go on to the end of the line. -/
  | skip

/-- A place in a list of items. -/
structure Reader where
  /-- The items before it, the nearest one first. -/
  before : List Item := []
  /-- The items behind it. -/
  ahead : List Item
  /-- Whether the nearest item before it was read, and neither undone nor skipped from since. -/
  fresh : Bool := false

namespace Reader

/-- The reader in front of a text. -/
def ofString (s : String) : Reader where
  ahead := items ⟨1, 1, 0⟩ s.toList

/-- The place of the item just before the reader. -/
def position (r : Reader) : Position := (r.before.head?.map Item.place).getD .start

/-- Whether there are no more items. -/
def atEnd (r : Reader) : Bool := r.ahead.isEmpty

/-- The answer to a move, and the reader after it. A move that fails changes nothing. -/
def move (r : Reader) : Move → Except Fault (Option Char) × Reader
  | .next =>
    match r.ahead with
    | [] => (.ok none, r)
    | x :: rest =>
      match x.reading with
      | .ok ch => (.ok (some ch), { before := x :: r.before, ahead := rest, fresh := true })
      | .error raw => (.error (Item.refusal raw x.place), r)
  | .back =>
    match r.fresh, r.before with
    | true, x :: rest => (.ok none, { before := rest, ahead := x :: r.ahead })
    | _, [] => (.error { code := .backPastStart }, r)
    | false, _ :: _ =>
      (.error ((Fault.because .backTwice "Only one character can be pushed back").place r.position), r)
  | .skip =>
    let line := r.ahead.takeWhile fun x => !x.isBreak
    (.ok none, { before := line.reverse ++ r.before, ahead := r.ahead.dropWhile fun x => !x.isBreak })

/-- The reader after some moves. -/
def after (r : Reader) (moves : List Move) : Reader := moves.foldl (fun r move => (r.move move).2) r

end Reader

namespace Stream

/-- The answer to a move, and the stream after it. -/
def move (s : Stream) : Move → Except Fault (Option Char) × Stream
  | .next =>
    match s.next with
    | .ok (ch, s) => (.ok ch, s)
    | .error f => (.error f, s)
  | .back =>
    match s.back with
    | .ok s => (.ok none, s)
    | .error f => (.error f, s)
  | .skip => (.ok none, s.skipLine)

/-- The stream after some moves. -/
def after (s : Stream) (moves : List Move) : Stream := moves.foldl (fun s move => (s.move move).2) s

end Stream

/-! ## The items at a cursor -/

theorem Text.items_of_isBreak {c : Char} (h : isBreak c = true) (p : Position) (rest : List Char) :
    items p (c :: rest) = ⟨.ok '\n', p⟩ ::
      items ⟨p.line + 1, 1, p.index + (Cursor.afterBreak c rest).2⟩ (Cursor.afterBreak c rest).1 := by
  rcases rest with _ | ⟨d, rest⟩
  · rcases isBreak_iff.1 h with rfl | rfl <;> simp [items, Cursor.afterBreak]
  · rcases isBreak_iff.1 h with rfl | rfl
    · by_cases hd : d = '\n'
      · subst hd; simp [items, Cursor.afterBreak, isBreak]
      · simp [items, Cursor.afterBreak, isBreak, hd]
    · by_cases hd : d = '\r'
      · subst hd; simp [items, Cursor.afterBreak, isBreak]
      · simp [items, Cursor.afterBreak, isBreak, hd]

theorem Text.items_of_not_isBreak {c : Char} (h : isBreak c = false) (p : Position) (rest : List Char) :
    items p (c :: rest) = ⟨reading c, p⟩ :: items p.succ rest := by
  have hr : c ≠ '\r' := by rintro rfl; simp [isBreak] at h
  have hn : c ≠ '\n' := by rintro rfl; simp [isBreak] at h
  rw [items] <;> simp_all

theorem Item.isBreak_reading {c : Char} (h : Text.isBreak c = false) (p : Position) :
    (Item.mk (Text.reading c) p).isBreak = false := by
  have hn : c ≠ '\n' := by rintro rfl; simp [Text.isBreak] at h
  unfold Item.isBreak Text.reading
  split
  · rename_i ch hch
    split at hch
    · cases hch; rfl
    · split at hch
      · cases hch
      · cases hch; simp [hn]
  · rfl

/-- A cursor stands between two lists of items. -/
structure Cursor.Between (before ahead : List Item) (c : Cursor) : Prop where
  ahead : ahead = items c.here c.rest
  last : c.last = (before.head?.map Item.place).getD .start
  index : c.index = 0 ↔ before = []

namespace Cursor.Between

variable {before ahead : List Item} {c d : Cursor}

theorem ofString (s : String) : (Cursor.ofString s).Between [] (items ⟨1, 1, 0⟩ s.toList) :=
  ⟨rfl, rfl, by simp [Cursor.ofString]⟩

theorem nil (h : c.Between before ahead) (hrest : c.rest = []) : ahead = [] := by
  rw [h.ahead, hrest, items]

/-- Passing a line break passes one item. -/
theorem passBreak {first : Char} {rest : List Char} (h : c.Between before ahead) (hrest : c.rest = first :: rest)
    (hb : Text.isBreak first = true) :
    ∃ ahead', ahead = ⟨.ok '\n', c.here⟩ :: ahead' ∧
      (c.passBreak first rest).Between (⟨.ok '\n', c.here⟩ :: before) ahead' := by
  refine ⟨items (c.passBreak first rest).here (c.passBreak first rest).rest, ?_, rfl, rfl, ?_⟩
  · rw [h.ahead, hrest, items_of_isBreak hb]
    rfl
  · obtain ⟨second, _, hcount, _⟩ := exists_afterBreak first rest
    simp [Cursor.passBreak, hcount]

/-- So does passing any other character. -/
theorem pass {first : Char} {rest : List Char} (h : c.Between before ahead) (hrest : c.rest = first :: rest)
    (hb : Text.isBreak first = false) :
    ∃ ahead', ahead = ⟨reading first, c.here⟩ :: ahead' ∧
      (c.pass rest).Between (⟨reading first, c.here⟩ :: before) ahead' := by
  refine ⟨items (c.pass rest).here rest, ?_, rfl, rfl, by simp [Cursor.pass]⟩
  rw [h.ahead, hrest, items_of_not_isBreak hb]
  rfl

/-- What reading from a cursor comes to is told by the item behind it. -/
theorem next (h : c.Between before ahead) :
    (ahead = [] ∧ c.next = .ok none) ∨
    (∃ x rest ch d, ahead = x :: rest ∧ x.reading = .ok ch ∧ c.next = .ok (some (ch, d)) ∧
      d.Between (x :: before) rest) ∨
    ∃ x rest raw, ahead = x :: rest ∧ x.reading = .error raw ∧ c.next = .error (Item.refusal raw x.place) := by
  unfold Cursor.next
  cases hrest : c.rest with
  | nil => exact .inl ⟨h.nil hrest, rfl⟩
  | cons first rest =>
    cases hb : Text.isBreak first with
    | true =>
      obtain ⟨ahead', hahead, hafter⟩ := h.passBreak hrest hb
      exact .inr (.inl ⟨_, ahead', '\n', _, hahead, rfl, by simp [hb], hafter⟩)
    | false =>
      obtain ⟨ahead', hahead, hafter⟩ := h.pass hrest hb
      by_cases ht : first = '\t'
      · refine .inr (.inl ⟨_, ahead', ' ', _, hahead, if_pos ht, ?_, hafter⟩)
        simp only [hb, if_pos ht, if_neg Bool.false_ne_true]
      · by_cases hc : isControl first = true
        · exact .inr (.inr ⟨_, ahead', first, hahead, by simp [reading, ht, hc], by simp [hb, ht, hc]; rfl⟩)
        · exact .inr (.inl ⟨_, ahead', first, _, hahead, by simp [reading, ht, hc], by simp [hb, ht, hc], hafter⟩)

theorem skipLine_go {rest : List Char} (h : c.Between before ahead) (hrest : c.rest = rest) :
    (skipLine.go c rest).Between ((ahead.takeWhile fun x => !x.isBreak).reverse ++ before)
      (ahead.dropWhile fun x => !x.isBreak) := by
  induction rest generalizing c before ahead with
  | nil =>
    obtain rfl := h.nil hrest
    exact h
  | cons first rest ih =>
    unfold skipLine.go
    cases hb : Text.isBreak first with
    | true =>
      obtain ⟨ahead', rfl, _⟩ := h.passBreak hrest hb
      simpa [Item.isBreak] using h
    | false =>
      obtain ⟨ahead', rfl, hafter⟩ := h.pass hrest hb
      have hone := Item.isBreak_reading hb c.here
      rw [List.takeWhile_cons_of_pos (by simp [hone]), List.dropWhile_cons_of_pos (by simp [hone])]
      simpa using ih hafter rfl

/-- Skipping to the end of a line passes the items up to the next line break. -/
theorem skipLine (h : c.Between before ahead) :
    c.skipLine.Between ((ahead.takeWhile fun x => !x.isBreak).reverse ++ before)
      (ahead.dropWhile fun x => !x.isBreak) :=
  h.skipLine_go rfl

end Cursor.Between

/-! ## Streams and readers -/

/-- A stream is where a reader is, and can go back to where the reader can. -/
structure Stream.Follows (r : Reader) (s : Stream) : Prop where
  cursor : s.cursor.Between r.before r.ahead
  undo : match s.undo with
    | none => r.fresh = false
    | some c => r.fresh = true ∧ ∃ x before, r.before = x :: before ∧ c.Between before (x :: r.ahead)

namespace Stream.Follows

variable {r : Reader} {s : Stream}

theorem ofString (text : String) : (Stream.ofString text).Follows (.ofString text) :=
  ⟨.ofString text, rfl⟩

theorem position (h : s.Follows r) : s.position = r.position := h.cursor.last

theorem atEnd (h : s.Follows r) : s.atEnd = r.atEnd := by
  unfold Stream.atEnd Cursor.atEnd Reader.atEnd
  cases hrest : s.cursor.rest with
  | nil => rw [h.cursor.nil hrest]; rfl
  | cons first rest =>
    cases hb : isBreak first with
    | true =>
      obtain ⟨ahead, hahead, _⟩ := h.cursor.passBreak hrest hb
      rw [hahead]; rfl
    | false =>
      obtain ⟨ahead, hahead, _⟩ := h.cursor.pass hrest hb
      rw [hahead]; rfl

theorem next (h : s.Follows r) : (s.move .next).1 = (r.move .next).1 ∧ (s.move .next).2.Follows (r.move .next).2 := by
  unfold Stream.move Stream.next Reader.move
  rcases h.cursor.next with
    ⟨hahead, hnext⟩ | ⟨x, rest, ch, d, hahead, hch, hnext, hd⟩ | ⟨x, rest, raw, hahead, hraw, hnext⟩
  · simp only [hahead, hnext]
    exact ⟨trivial, h⟩
  · simp only [hahead, hch, hnext]
    refine ⟨trivial, hd, rfl, x, r.before, rfl, ?_⟩
    rw [← hahead]
    exact h.cursor
  · simp only [hahead, hraw, hnext]
    exact ⟨trivial, h⟩

theorem back (h : s.Follows r) : (s.move .back).1 = (r.move .back).1 ∧ (s.move .back).2.Follows (r.move .back).2 := by
  have hundo := h.undo
  unfold Stream.move Stream.back Reader.move
  split at hundo
  · rename_i hnone
    simp only [hnone, hundo]
    cases hbefore : r.before with
    | nil =>
      rw [if_pos (h.cursor.index.2 hbefore)]
      exact ⟨rfl, h⟩
    | cons x before =>
      have hindex : ¬ s.cursor.index = 0 := fun hzero => by
        rw [h.cursor.index.1 hzero] at hbefore
        cases hbefore
      rw [if_neg hindex, h.position]
      exact ⟨rfl, h⟩
  · rename_i c hsome
    obtain ⟨hfresh, x, before, hbefore, hbetween⟩ := hundo
    simp only [hsome, hfresh, hbefore]
    exact ⟨trivial, hbetween, rfl⟩

/-- A move is answered as by the reader, and leads to where it leads the reader. -/
theorem move (h : s.Follows r) : ∀ m, (s.move m).1 = (r.move m).1 ∧ (s.move m).2.Follows (r.move m).2
  | .next => h.next
  | .back => h.back
  | .skip => ⟨rfl, h.cursor.skipLine, rfl⟩

theorem after (h : s.Follows r) (moves : List Move) : (s.after moves).Follows (r.after moves) := by
  induction moves generalizing s r with
  | nil => exact h
  | cons m moves ih => exact ih (h.move m).2

end Stream.Follows

/-- A stream is a reader of the items of its text. After any moves it shows the place of the item just before
the reader, has come to the end if there are no more items, and gives the reader's answer to any further move:
the item behind the reader is read, or it is refused, or there is none; the last reading is undone if nothing
has been undone or skipped since, and otherwise nothing changes; the rest of a line is passed over whatever
its characters are. -/
theorem Stream.reads_items (text : String) (moves : List Move) :
    let s := (Stream.ofString text).after moves
    let r := (Reader.ofString text).after moves
    s.position = r.position ∧ s.atEnd = r.atEnd ∧ ∀ m, (s.move m).1 = (r.move m).1 := by
  have h := (Stream.Follows.ofString text).after moves
  exact ⟨h.position, h.atEnd, fun m => (h.move m).1⟩

end MacroBasic
