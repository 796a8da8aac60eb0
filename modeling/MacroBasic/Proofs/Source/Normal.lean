/-
The normal form of a text, in which every line break is one line feed and every tab a space. What a
cursor reads is the normal form, character by character, and the place it shows is found by counting in
the normal form of what stands before it.
-/
import MacroBasic.Source.Cursor

namespace MacroBasic

namespace Text

/-! ## The normal form -/

/-- A text with each line break written as one line feed and each tab as a space. Carriage return and
line feed next to each other are one break; breaks are paired from the left. -/
def normal : List Char → List Char
  | [] => []
  | '\r' :: '\n' :: rest => '\n' :: normal rest
  | '\n' :: '\r' :: rest => '\n' :: normal rest
  | '\r' :: rest => '\n' :: normal rest
  | '\t' :: rest => ' ' :: normal rest
  | c :: rest => c :: normal rest

/-- What a character that is not part of a line break is read as. -/
def shown (c : Char) : Char := if c = '\t' then ' ' else c

theorem isBreak_iff {c : Char} : isBreak c = true ↔ c = '\r' ∨ c = '\n' := by
  simp [isBreak]

theorem shown_ne_lineFeed {c : Char} (h : isBreak c = false) : shown c ≠ '\n' := by
  unfold shown
  split
  · decide
  · rintro rfl; simp [isBreak] at h

@[simp] theorem normal_nil : normal [] = [] := by rw [normal]

theorem normal_of_isBreak {c : Char} (h : isBreak c = true) (rest : List Char) :
    normal (c :: rest) = '\n' :: normal (Cursor.afterBreak c rest).1 := by
  rcases isBreak_iff.1 h with rfl | rfl <;> rcases rest with _ | ⟨d, rest⟩
  · simp [normal, Cursor.afterBreak]
  · by_cases hd : d = '\n'
    · subst hd; simp [normal, Cursor.afterBreak, isBreak]
    · have ha : Cursor.afterBreak '\r' (d :: rest) = (d :: rest, 1) := by
        simp [Cursor.afterBreak, isBreak, hd]
      rw [ha, normal.eq_4]
      rintro rest' ⟨rfl, _⟩; exact hd rfl
  · simp [normal, Cursor.afterBreak]
  · by_cases hd : d = '\r'
    · subst hd; simp [normal, Cursor.afterBreak, isBreak]
    · have ha : Cursor.afterBreak '\n' (d :: rest) = (d :: rest, 1) := by
        simp [Cursor.afterBreak, isBreak, hd]
      rw [ha, normal.eq_6] <;> simp
      exact fun h => absurd h hd

theorem normal_of_not_isBreak {c : Char} (h : isBreak c = false) (rest : List Char) :
    normal (c :: rest) = shown c :: normal rest := by
  have hr : c ≠ '\r' := by rintro rfl; simp [isBreak] at h
  have hn : c ≠ '\n' := by rintro rfl; simp [isBreak] at h
  by_cases ht : c = '\t'
  · subst ht; simp [normal, shown]
  · rw [normal.eq_6, shown, if_neg ht] <;> simp_all

/-- The first character of a normal form is that of any beginning of the text. -/
theorem head?_normal {ahead rest : List Char} (h : ahead <+: rest) (hne : ahead ≠ []) :
    (normal ahead).head? = (normal rest).head? := by
  obtain ⟨c, more, rfl⟩ := List.exists_cons_of_ne_nil hne
  obtain ⟨tail, rfl⟩ := h
  cases hb : isBreak c with
  | true => rw [List.cons_append, normal_of_isBreak hb, normal_of_isBreak hb]; rfl
  | false => rw [List.cons_append, normal_of_not_isBreak hb, normal_of_not_isBreak hb]; rfl

theorem normal_ne_nil {text : List Char} (h : text ≠ []) : normal text ≠ [] := by
  obtain ⟨c, rest, rfl⟩ := List.exists_cons_of_ne_nil h
  cases hb : isBreak c with
  | true => simp [normal_of_isBreak hb]
  | false => simp [normal_of_not_isBreak hb]

end Text

open Text

/-! ## Places -/

/-- The place behind a text: lines are counted by its breaks, columns by the characters behind the last
of them. -/
def Position.behind (before : List Char) : Position where
  line := 1 + (normal before).count '\n'
  column := 1 + ((normal before).reverse.takeWhile (· != '\n')).length
  index := before.length

namespace Position

variable {before raw : List Char}

theorem behind_append_break (h : normal (before ++ raw) = normal before ++ ['\n']) :
    behind (before ++ raw) = ⟨(behind before).line + 1, 1, before.length + raw.length⟩ := by
  simp [behind, h]; omega

theorem behind_append_char {ch : Char} (hch : ch ≠ '\n') (h : normal (before ++ raw) = normal before ++ [ch]) :
    behind (before ++ raw) =
      ⟨(behind before).line, (behind before).column + 1, before.length + raw.length⟩ := by
  simp [behind, h, hch]; omega

end Position

/-! ## Reading -/

namespace Cursor

/-- A cursor that stands behind the text `before`, and not inside a line break. -/
structure Stands (before : List Char) (c : Cursor) : Prop where
  here : c.here = .behind before
  whole : ∀ ahead, ahead <+: c.rest → normal (before ++ ahead) = normal before ++ normal ahead

theorem ofString_stands (s : String) : (Cursor.ofString s).Stands [] :=
  ⟨rfl, fun _ _ => rfl⟩

/-- The characters `raw` lie between two cursors, neither of which stands inside a line break. -/
structure Reads (c : Cursor) (raw : List Char) (d : Cursor) : Prop where
  rest : c.rest = raw ++ d.rest
  whole : ∀ ahead, ahead <+: d.rest → normal (raw ++ ahead) = normal raw ++ normal ahead
  stands : ∀ before, c.Stands before → d.Stands (before ++ raw)

namespace Reads

variable {c d e : Cursor} {raw raw' : List Char}

theorem refl (c : Cursor) : c.Reads [] c where
  rest := rfl
  whole _ _ := rfl
  stands before h := by rwa [List.append_nil]

theorem trans (h : c.Reads raw d) (h' : d.Reads raw' e) : c.Reads (raw ++ raw') e where
  rest := by rw [h.rest, h'.rest, List.append_assoc]
  whole ahead ha := by
    have hd : ∀ {x}, x <+: e.rest → raw' ++ x <+: d.rest := fun hx => by
      rw [h'.rest]; exact (List.prefix_append_right_inj raw').2 hx
    have hboth : normal (raw ++ raw') = normal raw ++ normal raw' := by
      simpa using h.whole (raw' ++ []) (hd List.nil_prefix)
    rw [List.append_assoc, h.whole _ (hd ha), h'.whole ahead ha, hboth, List.append_assoc]
  stands before hb := by
    rw [← List.append_assoc]; exact h'.stands _ (h.stands _ hb)

theorem normal_append (h : c.Reads raw d) (h' : d.Reads raw' e) :
    normal (raw ++ raw') = normal raw ++ normal raw' :=
  h.whole raw' ⟨e.rest, h'.rest.symm⟩

end Reads

/-- What moving over the characters `raw`, which are read as one, does to the invariant. -/
theorem Stands.append {c d : Cursor} {before raw : List Char} {ch : Char} (h : c.Stands before)
    (hrest : c.rest = raw ++ d.rest) (hraw : ∀ ahead, ahead <+: d.rest → normal (raw ++ ahead) = ch :: normal ahead)
    (hhere : d.here = if ch = '\n' then ⟨c.line + 1, 1, c.index + raw.length⟩
      else ⟨c.line, c.column + 1, c.index + raw.length⟩) : d.Stands (before ++ raw) := by
  have hall : ∀ ahead, ahead <+: d.rest →
      normal (before ++ (raw ++ ahead)) = normal before ++ ch :: normal ahead := fun ahead ha => by
    rw [h.whole _ (by rw [hrest]; exact (List.prefix_append_right_inj raw).2 ha), hraw ahead ha]
  have hone : normal (before ++ raw) = normal before ++ [ch] := by
    simpa using hall [] List.nil_prefix
  have hc := h.here
  constructor
  · simp only [Cursor.here, Position.mk.injEq, Position.behind] at hc
    rw [hhere]
    split
    · rename_i hch
      rw [Position.behind_append_break (hch ▸ hone), hc.1, hc.2.2]; rfl
    · rename_i hch
      rw [Position.behind_append_char hch hone, hc.1, hc.2.1, hc.2.2]; rfl
  · intro ahead ha
    rw [List.append_assoc, hall ahead ha, hone]; simp

/-- The second character of a line break, if it has one: it is part of the break whatever follows. -/
theorem exists_afterBreak (first : Char) (rest : List Char) :
    ∃ second, rest = second ++ (afterBreak first rest).1 ∧ (afterBreak first rest).2 = second.length + 1 ∧
      ∀ ahead, ahead <+: (afterBreak first rest).1 → (afterBreak first (second ++ ahead)).1 = ahead := by
  rcases rest with _ | ⟨second, rest⟩
  · refine ⟨[], rfl, rfl, fun ahead ha => ?_⟩
    rw [List.prefix_nil.1 ha]; rfl
  · by_cases hp : (isBreak second && second != first) = true
    · have ha : ∀ more, afterBreak first (second :: more) = (more, 2) := fun more => by
        rw [afterBreak, if_pos hp]
      rw [ha]
      exact ⟨[second], rfl, rfl, fun ahead _ => by rw [List.singleton_append, ha]⟩
    · have ha : ∀ more, afterBreak first (second :: more) = (second :: more, 1) := fun more => by
        rw [afterBreak, if_neg hp]
      rw [ha]
      refine ⟨[], rfl, rfl, fun ahead hahead => ?_⟩
      rcases ahead with _ | ⟨x, more⟩
      · rfl
      · obtain ⟨rfl, _⟩ := List.cons_prefix_cons.1 hahead
        rw [List.nil_append, ha]

theorem passBreak_reads {c : Cursor} {first : Char} {rest : List Char} (hrest : c.rest = first :: rest)
    (hb : isBreak first = true) :
    ∃ raw, c.Reads raw (c.passBreak first rest) ∧ normal raw = ['\n'] := by
  obtain ⟨second, hs, hcount, hahead⟩ := exists_afterBreak first rest
  have hraw : ∀ ahead, ahead <+: (afterBreak first rest).1 →
      normal (first :: second ++ ahead) = '\n' :: normal ahead := fun ahead ha => by
    rw [List.cons_append, normal_of_isBreak hb, hahead ahead ha]
  have hone : normal (first :: second) = ['\n'] := by simpa using hraw [] List.nil_prefix
  have hall : c.rest = first :: second ++ (c.passBreak first rest).rest := by
    rw [hrest]; exact congrArg (first :: ·) hs
  refine ⟨first :: second, ⟨hall, fun ahead ha => ?_, fun before h => h.append hall hraw ?_⟩, hone⟩
  · rw [hraw ahead ha, hone]; rfl
  · simp [here, passBreak, hcount]

theorem pass_reads {c : Cursor} {first : Char} {rest : List Char} (hrest : c.rest = first :: rest)
    (hb : isBreak first = false) : c.Reads [first] (c.pass rest) := by
  have hraw : ∀ ahead, normal ([first] ++ ahead) = shown first :: normal ahead := fun ahead => by
    rw [List.singleton_append, normal_of_not_isBreak hb]
  refine ⟨hrest, fun ahead _ => ?_, fun before h => h.append hrest (fun ahead _ => hraw ahead) ?_⟩
  · rw [hraw, normal_of_not_isBreak hb, normal_nil]; rfl
  · rw [if_neg (shown_ne_lineFeed hb)]; rfl

/-- A step of the cursor reads one character of the normal form. -/
theorem next_reads {c d : Cursor} {ch : Char} (h : c.next = .ok (some (ch, d))) :
    ∃ raw, c.Reads raw d ∧ normal raw = [ch] ∧ d.last = c.here := by
  unfold next at h
  split at h
  · cases h
  · rename_i first rest hrest
    split at h
    · rename_i hb
      cases h
      obtain ⟨raw, hreads, hraw⟩ := passBreak_reads hrest hb
      exact ⟨raw, hreads, hraw, rfl⟩
    · rename_i hb
      have hb : isBreak first = false := by simpa using hb
      have hch : ch = shown first ∧ d = c.pass rest := by
        split at h
        · rename_i ht
          cases h; exact ⟨by rw [shown, if_pos ht], rfl⟩
        · rename_i ht
          split at h
          · cases h
          · cases h; exact ⟨by rw [shown, if_neg ht], rfl⟩
      obtain ⟨rfl, rfl⟩ := hch
      exact ⟨[first], pass_reads hrest hb, by rw [normal_of_not_isBreak hb, normal_nil], rfl⟩

theorem rest_of_next_none {c : Cursor} (h : c.next = .ok none) : c.rest = [] := by
  unfold next at h
  split at h
  · assumption
  · split at h
    · cases h
    · split at h
      · cases h
      · split at h <;> cases h

theorem head?_of_next {c d : Cursor} {ch : Char} (h : c.next = .ok (some (ch, d))) :
    (normal c.rest).head? = some ch := by
  obtain ⟨raw, hreads, hraw, _⟩ := next_reads h
  rw [hreads.rest, hreads.whole _ List.prefix_rfl, hraw]; rfl

theorem skipLine_go_reads {rest : List Char} {c : Cursor} (h : c.rest = rest) :
    ∃ raw, c.Reads raw (skipLine.go c rest) ∧ (∀ ch ∈ raw, isBreak ch = false) ∧
      ∀ ch ∈ (skipLine.go c rest).rest.head?, isBreak ch = true := by
  induction rest generalizing c with
  | nil => exact ⟨[], .refl c, by simp, by simp [skipLine.go, h]⟩
  | cons first rest ih =>
    unfold skipLine.go
    cases hb : isBreak first with
    | true => exact ⟨[], .refl c, by simp, by simp [h, hb]⟩
    | false =>
      obtain ⟨raw, hreads, hraw, hend⟩ := ih (c := c.pass rest) rfl
      refine ⟨first :: raw, (pass_reads h hb).trans hreads, ?_, hend⟩
      intro ch hch
      rcases List.mem_cons.1 hch with rfl | hch
      · exact hb
      · exact hraw ch hch

/-- Skipping to the end of a line passes characters that are no breaks, up to a break or the end. -/
theorem skipLine_reads (c : Cursor) :
    ∃ raw, c.Reads raw c.skipLine ∧ (∀ ch ∈ raw, isBreak ch = false) ∧
      ∀ ch ∈ c.skipLine.rest.head?, isBreak ch = true :=
  skipLine_go_reads rfl

end Cursor

end MacroBasic
