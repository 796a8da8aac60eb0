/-
The lexemes of the language, told without the scanner: which characters make up a symbol of each class,
and what it means that a text consists of the symbols of a list. Lexemes are described in the normal form
of the text, where a line break is one character.
-/
import MacroBasic.Proofs.Source.Normal
import MacroBasic.Symbol.Scanner

namespace MacroBasic

open Text

/-! ## Lexemes -/

/-- The symbols that are written with fixed characters. -/
def Scanner.marks : List (List Char × Token) :=
  [(['\n'], .delimiter), ([':'], .delimiter), (['('], .openParen), ([')'], .closeParen), ([','], .comma),
   (['!'], .operator .factorial), (['~'], .operator .not), (['^'], .operator (.binary .power)),
   (['='], .operator (.binary .equal)), (['<'], .operator (.binary .less)),
   (['<', '='], .operator (.binary .lessEqual)), (['<', '>'], .operator (.binary .notEqual)),
   (['>'], .operator (.binary .greater)), (['>', '='], .operator (.binary .greaterEqual)),
   (['+'], .operator (.binary .add)), (['+', '='], .update .add),
   (['-'], .operator (.binary .subtract)), (['-', '='], .update .subtract),
   (['*'], .operator (.binary .multiply)), (['*', '='], .update .multiply),
   (['/'], .operator (.binary .divide)), (['/', '='], .update .divide),
   (['&'], .operator (.binary .concat)), (['&', '='], .update .concat),
   (['\\'], .operator (.binary .divideInt)), (['\\', '='], .update .divideInt),
   (['%'], .operator (.binary .modulus)), (['%', '='], .update .modulus)]

/-- The inside of a string as it is written: each quote twice. -/
def Scanner.doubled (content : List Char) : List Char :=
  content.flatMap fun c => if c = quote then [quote, quote] else [c]

open Scanner

/-- The characters of a normal form that are a symbol of the given class. -/
inductive Token.Spells : Token → List Char → Prop
  | mark {t : Token} {w : List Char} : (w, t) ∈ marks → Spells t w
  | whole {digits : List Char} : digits ≠ [] → (∀ c ∈ digits, c.isDigit = true) → Spells .number digits
  | decimal {digits fraction : List Char} : digits ≠ [] → (∀ c ∈ digits, c.isDigit = true) →
      (∀ c ∈ fraction, c.isDigit = true) → Spells .number (digits ++ '.' :: fraction)
  | word {c : Char} {run : List Char} : opensName c = true → (∀ x ∈ run, continuesName x = true) →
      Spells ((Token.ofKeyword? (String.ofList (c :: run))).getD .name) (c :: run)
  | string {content : List Char} : '\n' ∉ content → Spells .string (quote :: doubled content ++ [quote])

/-- The normal form of what a symbol is written as: its text, which for a string stands in quotes and
has its own quotes doubled. -/
def Symbol.spelling (s : Symbol) : List Char :=
  if s.token = .string then quote :: doubled s.text.toList ++ [quote] else s.text.toList

/-- No longer beginning of the text is a symbol of any class. -/
def Scanner.Longest (slice rest : List Char) : Prop :=
  ∀ longer, longer <+: slice ++ rest → slice.length < longer.length → ∀ t : Token, ¬ t.Spells (normal longer)

/-! ## Gaps -/

/-- Spaces, tabs and comments in front of the characters `after`. A comment goes on up to the next line
break or the end of the text. -/
inductive Scanner.Gap : List Char → List Char → Prop
  | nil {after : List Char} : Gap [] after
  | blank {c : Char} {gap after : List Char} : c = ' ' ∨ c = '\t' → Gap gap after → Gap (c :: gap) after
  | comment {body gap after : List Char} : (∀ c ∈ body, isBreak c = false) →
      (∀ c ∈ (gap ++ after).head?, isBreak c = true) → Gap gap after → Gap (commentMark :: body ++ gap) after

/-! ## Scanned texts -/

/-- The text at the end, behind the text `before`, consists of the given symbols and the gaps around
them. -/
inductive Scanner.Scanned : List Char → List Symbol → List Char → Prop
  | done {before gap : List Char} : Gap gap [] → Scanned before [] gap
  | symbol {before gap slice rest : List Char} {s : Symbol} {more : List Symbol} :
      Gap gap (slice ++ rest) → s.position = .behind (before ++ gap) → normal slice = s.spelling →
      s.token.Spells s.spelling → Longest slice rest → Scanned (before ++ gap ++ slice) more rest →
      Scanned before (s :: more) (gap ++ slice ++ rest)

/-- The symbols that come up when one is asked for after the other, until the end of the source. -/
inductive Scanner.Gives : Cursor → List Symbol → Prop
  | done {c d : Cursor} {s : Symbol} : next c = .ok s d → s.token = .eof → Gives c []
  | more {c d : Cursor} {s : Symbol} {ss : List Symbol} : next c = .ok s d → s.token ≠ .eof → Gives d ss →
      Gives c (s :: ss)

/-! ## No symbol begins like one of another class -/

namespace Scanner

/-- Whether two characters are a mark together. -/
def joins (a b : Char) : Bool :=
  (a == '<' || a == '>') && continuesRelation a b || (joinable? a).isSome && b == '='

theorem marks_first : ∀ m ∈ marks, ∀ c ∈ m.1.head?, c ≠ quote ∧ c.isDigit = false ∧ opensName c = false := by
  have hall : ∀ m ∈ marks, m.1.head?.all (fun c => c ≠ quote ∧ c.isDigit = false ∧ opensName c = false) = true := by
    decide
  intro m hm c hc
  exact of_decide_eq_true ((Option.all_eq_true ..).1 (hall m hm) c hc)

theorem marks_length : ∀ m ∈ marks, m.1 ≠ [] ∧ m.1.length ≤ 2 := by decide

theorem marks_joins : ∀ m ∈ marks, ∀ a ∈ m.1.head?, ∀ b ∈ m.1[1]?, joins a b = true := by
  have hall : ∀ m ∈ marks, m.1.head?.all (fun a => m.1[1]?.all (joins a)) = true := by decide
  intro m hm a ha b hb
  exact (Option.all_eq_true ..).1 ((Option.all_eq_true ..).1 (hall m hm) a ha) b hb

theorem opensName_of_isDigit {c : Char} (h : c.isDigit = true) : opensName c = false := by
  have hn : c.toNat < 0x40 := by
    simp [Char.isDigit, UInt32.le_iff_toNat_le] at h
    omega
  have hletter : isLetter c = false := by
    rw [isLetter, letters, Ranges.contains, Ranges.containsPoint, decide_eq_false (by omega)]; rfl
  rw [opensName, hletter]
  have h1 : c ≠ '_' := by rintro rfl; exact absurd hn (by decide)
  have h2 : c ≠ '@' := by rintro rfl; exact absurd hn (by decide)
  simp [h1, h2]

end Scanner

/-- What the characters of a symbol are, by the class of the first of them. -/
theorem Token.Spells.cases {t : Token} {c : Char} {n : List Char} (h : t.Spells (c :: n)) :
    (c :: n, t) ∈ marks ∨
      (c.isDigit = true ∧ (∀ x ∈ c :: n, x.isDigit = true ∨ x = '.') ∧ (c :: n).count '.' ≤ 1) ∨
      (opensName c = true ∧ ∀ x ∈ n, continuesName x = true) ∨
      (c = quote ∧ ∃ content, n = doubled content ++ [quote]) := by
  generalize hw : c :: n = w at h
  have hpoint : ∀ {digits : List Char}, (∀ x ∈ digits, x.isDigit = true) → digits.count '.' = 0 := fun hd =>
    List.count_eq_zero.2 fun hm => absurd (hd _ hm) (by decide)
  cases h with
  | mark h => exact .inl h
  | whole _ h =>
    subst hw
    exact .inr (.inl ⟨h c List.mem_cons_self, fun x hx => .inl (h x hx), by rw [hpoint h]; omega⟩)
  | decimal hne h hf =>
    obtain ⟨d, ds, rfl⟩ := List.exists_cons_of_ne_nil hne
    rw [List.cons_append, List.cons.injEq] at hw
    obtain ⟨rfl, rfl⟩ := hw
    refine .inr (.inl ⟨h c List.mem_cons_self, fun x hx => ?_, ?_⟩)
    · simp only [List.mem_append, List.mem_cons] at hx
      grind
    · refine Nat.le_of_eq ?_
      rw [List.count_append, List.count_cons_self, hpoint h, hpoint hf]
  | word h hr =>
    cases hw
    exact .inr (.inr (.inl ⟨h, hr⟩))
  | string h =>
    cases hw
    exact .inr (.inr (.inr ⟨rfl, _, rfl⟩))

/-! ## Symbols that cannot go on -/

namespace Scanner

/-- No symbol consists of the given characters and then others that begin with `x`. -/
def EndsAt (n : List Char) (x : Char) : Prop := ∀ (more : List Char) (t : Token), ¬ t.Spells (n ++ x :: more)

variable {a b c x : Char} {n : List Char}

theorem endsAt_mark {t : Token} (h : ([a], t) ∈ marks) (hx : joins a x = false) : EndsAt [a] x := by
  intro more t' hs
  obtain ⟨hq, hd, ho⟩ := marks_first _ h a rfl
  rcases Token.Spells.cases hs with hm | ⟨hd', _⟩ | ⟨ho', _⟩ | ⟨hq', _⟩
  · rw [marks_joins _ hm a rfl x rfl] at hx; cases hx
  · rw [hd] at hd'; cases hd'
  · rw [ho] at ho'; cases ho'
  · exact hq hq'

theorem endsAt_mark_pair {t : Token} (h : ([a, b], t) ∈ marks) : EndsAt [a, b] x := by
  intro more t' hs
  obtain ⟨hq, hd, ho⟩ := marks_first _ h a rfl
  rcases Token.Spells.cases hs with hm | ⟨hd', _⟩ | ⟨ho', _⟩ | ⟨hq', _⟩
  · have := (marks_length _ hm).2
    simp only [List.append_eq, List.cons_append, List.nil_append, List.length_cons] at this
    omega
  · rw [hd] at hd'; cases hd'
  · rw [ho] at ho'; cases ho'
  · exact hq hq'

theorem not_mark_of_isDigit {t : Token} (h : c.isDigit = true) : (c :: n, t) ∉ marks := fun hm => by
  rw [(marks_first _ hm c rfl).2.1] at h; cases h

theorem not_quote_of_isDigit (h : c.isDigit = true) : c ≠ quote := by
  rintro rfl; exact absurd h (by decide)

theorem endsAt_number (h : c.isDigit = true) (hx : x.isDigit = false) (hpoint : x = '.' → '.' ∈ c :: n) :
    EndsAt (c :: n) x := by
  intro more t hs
  rcases Token.Spells.cases hs with hm | ⟨_, hall, hcount⟩ | ⟨ho, _⟩ | ⟨hq, _⟩
  · exact not_mark_of_isDigit h hm
  · rcases hall x (by simp) with hd | rfl
    · rw [hx] at hd; cases hd
    · have h1 : 0 < (c :: n).count '.' := List.count_pos_iff.2 (hpoint rfl)
      rw [List.append_eq, ← List.cons_append, List.count_append, List.count_cons_self] at hcount
      omega
  · rw [opensName_of_isDigit h] at ho; cases ho
  · exact not_quote_of_isDigit h hq

theorem endsAt_word (h : opensName c = true) (hx : continuesName x = false) : EndsAt (c :: n) x := by
  intro more t hs
  rcases Token.Spells.cases hs with hm | ⟨hd, _⟩ | ⟨_, hall⟩ | ⟨rfl, _⟩
  · rw [(marks_first _ hm c rfl).2.2] at h; cases h
  · rw [opensName_of_isDigit hd] at h; cases h
  · rw [hall x (by simp)] at hx; cases hx
  · exact absurd h (by decide)

@[simp] theorem doubled_nil : doubled [] = [] := rfl

@[simp] theorem doubled_cons_quote (n : List Char) : doubled (quote :: n) = quote :: quote :: doubled n := rfl

@[simp] theorem doubled_cons (hc : c ≠ quote) (n : List Char) : doubled (c :: n) = c :: doubled n := by
  simp [doubled, hc]

/-- A quote behind doubled text that does not end the text is doubled itself. -/
theorem eq_quote_of_doubled {n m more : List Char} (h : doubled n ++ quote :: x :: more = doubled m ++ [quote]) :
    x = quote := by
  induction n generalizing m with
  | nil =>
    rcases m with _ | ⟨d, m⟩
    · simp at h
    · by_cases hd : d = quote
      · subst hd; simp at h; exact h.1
      · simp [hd] at h; exact absurd h.1.symm hd
  | cons c n ih =>
    rcases m with _ | ⟨d, m⟩
    · have := congrArg List.length h
      by_cases hc : c = quote <;> simp [hc] at this
    · by_cases hc : c = quote <;> by_cases hd : d = quote
      · subst hc hd; simp at h; exact ih h
      · subst hc; simp [hd] at h; exact absurd h.1.symm hd
      · subst hd; simp [hc] at h
      · simp [hc, hd] at h; exact ih h.2

theorem endsAt_string (hx : x ≠ quote) : EndsAt (quote :: doubled n ++ [quote]) x := by
  intro more t hs
  rw [List.cons_append, List.cons_append, List.append_assoc] at hs
  rcases Token.Spells.cases hs with hm | ⟨hd, _⟩ | ⟨ho, _⟩ | ⟨_, m, hm⟩
  · exact (marks_first _ hm quote rfl).1 rfl
  · exact absurd hd (by decide)
  · exact absurd ho (by decide)
  · exact hx (eq_quote_of_doubled (by simpa using hm))

/-- What was read between two cursors and cannot go on is the longest symbol there. -/
theorem longest_of_reads {c d : Cursor} {raw : List Char} (h : c.Reads raw d)
    (hend : ∀ x ∈ (normal d.rest).head?, EndsAt (normal raw) x) : Longest raw d.rest := by
  rintro longer ⟨tail, hlonger⟩ hlen t hs
  obtain ⟨ahead, rfl⟩ : raw <+: longer :=
    List.prefix_of_prefix_length_le ⟨d.rest, rfl⟩ ⟨tail, hlonger⟩ (Nat.le_of_lt hlen)
  have hpre : ahead <+: d.rest := ⟨tail, by simpa using hlonger⟩
  have hne : ahead ≠ [] := by rintro rfl; simp at hlen
  obtain ⟨x, more, hx⟩ := List.exists_cons_of_ne_nil (normal_ne_nil hne)
  rw [h.whole ahead hpre, hx] at hs
  refine hend x ?_ more t hs
  rw [← head?_normal hpre hne, hx]; rfl

end Scanner

end MacroBasic
