/-
The text of a script as it is laid out. A sentence is a statement as it is written, with the blocks in it, and a
paragraph is what a block is made of. Behind every header of a block, behind every `ELSE` and behind every sentence
there is a delimiter, and every block has its closing words. What the parser reads as a header or as closing words
goes up to the next delimiter, unless a parenthesis behind a variable stops it.
-/
import MacroBasic.Proofs.Grammar.Inline
import MacroBasic.Proofs.Grammar.Troubles

namespace MacroBasic.Grammar

/-! ## Marks -/

/-- The class of the symbols with a mark. -/
def Mark.token : Mark → Token
  | .plain t => t
  | .number _ => .number
  | .text _ => .string
  | .name _ => .name

@[simp] theorem token_mark (sym : Symbol) : (mark sym).token = sym.token := by
  unfold mark
  split <;> simp_all [Mark.token]

/-- What stands behind a header or a sentence: a line break or a colon. -/
def Mark.delimiter : Mark := .plain .delimiter

/-- The words that may end a block. -/
def closingWords : List Word := [.elseWord, .endWord, .endFunction, .endIf, .endSub, .loop, .next]

/-- Whether a symbol of the given class stands neither behind a statement nor at the end of a block. -/
def isInner : Token → Bool
  | .delimiter | .eof => false
  | .word w => !closingWords.contains w
  | _ => true

theorem not_ends_of_isInner {stops : List Word} (hstops : stops ⊆ closingWords) {t : Token} (ht : isInner t = true) :
    endsStatement stops t = false ∧ endsBlock stops t = false ∧ t ≠ .delimiter := by
  cases t with
  | word w =>
    have hw : stops.contains w = false := by
      rw [List.contains_eq_any_beq, List.any_eq_false]
      intro w' hw' hsame
      rw [beq_iff_eq.1 hsame] at ht
      simp [isInner, hstops hw'] at ht
    exact ⟨hw, hw, nofun⟩
  | delimiter | eof => cases ht
  | _ => exact ⟨rfl, rfl, nofun⟩

/-! ## Sentences -/

/-- The condition of a loop as it is written. -/
structure Condition where
  isUntil : Bool
  phrase : Phrase

mutual

/-- A statement as it is written. -/
inductive Sentence where
  /-- A statement without a block in it, right or wrong. -/
  | simple (marks : List Mark)
  /-- The definition of a function or sub. The closing words may be joined into one. -/
  | routine (isFunction : Bool) (n : String) (parameters : Option (List String)) (body : Paragraph) (joined : Bool)
  | branch (c : Phrase) (yes : Paragraph) (joined : Bool)
  | branchElse (c : Phrase) (yes no : Paragraph) (joined : Bool)
  /-- A loop that counts. Its counter may be repeated behind the closing word. -/
  | countLoop (n : String) (start limit : Phrase) (step : Option Phrase) (body : Paragraph) (again : Bool)
  | guardLoop (head : Option Condition) (body : Paragraph) (tail : Option Condition)

/-- Sentences one after the other. -/
inductive Paragraph where
  | nil
  | cons (first : Sentence) (rest : Paragraph)

end

/-! ## Spelling -/

/-- A condition behind its word, if there is one. -/
def renderCondition : Option Condition → List Mark
  | none => []
  | some c => .word (if c.isUntil then .untilWord else .whileWord) :: c.phrase.render

/-- A step behind its word, if there is one. -/
def renderStep : Option Phrase → List Mark
  | none => []
  | some p => .word .step :: p.render

/-- Names that each follow a comma. -/
def renderMoreNames : List String → List Mark
  | [] => []
  | n :: rest => .comma :: .name n :: renderMoreNames rest

/-- Names with commas between them. -/
def renderNames : List String → List Mark
  | [] => []
  | n :: rest => .name n :: renderMoreNames rest

/-- Parameters in parentheses, if there are any. -/
def renderParameters : Option (List String) → List Mark
  | none => []
  | some names => .openParen :: renderNames names ++ [.closeParen]

/-- The word that begins the definition of a routine. -/
def routineWord (isFunction : Bool) : Word := if isFunction then .function else .sub

/-- The words that end a routine. -/
def routineClosing (isFunction joined : Bool) : List Mark :=
  if joined then [.word (if isFunction then .endFunction else .endSub)]
  else [.word .endWord, .word (routineWord isFunction)]

/-- The words that end an `IF`. -/
def ifClosing (joined : Bool) : List Mark := if joined then [.word .endIf] else [.word .endWord, .word .ifWord]

/-- The words that end a `FOR`. -/
def forClosing (n : String) (again : Bool) : List Mark := .word .next :: if again then [.name n] else []

mutual

/-- The marks of a sentence in order. -/
def Sentence.render : Sentence → List Mark
  | .simple marks => marks
  | .routine isFunction n parameters body joined =>
    .word (routineWord isFunction) :: .name n :: (renderParameters parameters ++
      .delimiter :: (body.render ++ routineClosing isFunction joined))
  | .branch c yes joined =>
    .word .ifWord :: (c.render ++ .word .thenWord :: .delimiter :: (yes.render ++ ifClosing joined))
  | .branchElse c yes no joined =>
    .word .ifWord :: (c.render ++ .word .thenWord :: .delimiter :: (yes.render ++
      .word .elseWord :: .delimiter :: (no.render ++ ifClosing joined)))
  | .countLoop n start limit step body again =>
    .word .forWord :: .name n :: .operator .equal :: (start.render ++ .word .to :: (limit.render ++
      (renderStep step ++ .delimiter :: (body.render ++ forClosing n again))))
  | .guardLoop head body tail =>
    .word .doWord :: (renderCondition head ++ .delimiter :: (body.render ++ .word .loop :: renderCondition tail))

/-- The marks of a paragraph in order. -/
def Paragraph.render : Paragraph → List Mark
  | .nil => []
  | .cons first rest => first.render ++ .delimiter :: rest.render

end

/-- A condition has a phrase of the grammar. -/
def ConditionWellFormed (c : Option Condition) : Prop := ∀ x ∈ c, x.phrase.WellFormed

/-- Marks of a statement without a block in it: the first one begins no other statement, and none stands behind a
statement or closes a block. -/
structure Simple (marks : List Mark) : Prop where
  first : ∃ m more, marks = m :: more ∧ (lead m.token).isSimple = true
  inner : ∀ m ∈ marks, isInner m.token = true

mutual

/-- A sentence of which the headers and closing words are made of phrases of the grammar. -/
def Sentence.WellFormed : Sentence → Prop
  | .simple marks => Simple marks
  | .routine _ _ _ body _ => body.WellFormed
  | .branch c yes _ => c.WellFormed ∧ yes.WellFormed
  | .branchElse c yes no _ => c.WellFormed ∧ yes.WellFormed ∧ no.WellFormed
  | .countLoop _ start limit step body _ =>
    start.WellFormed ∧ limit.WellFormed ∧ (∀ p ∈ step, p.WellFormed) ∧ body.WellFormed
  | .guardLoop head body tail => ConditionWellFormed head ∧ body.WellFormed ∧ ConditionWellFormed tail

def Paragraph.WellFormed : Paragraph → Prop
  | .nil => True
  | .cons first rest => first.WellFormed ∧ rest.WellFormed

end

/-- A sentence begins with a symbol that is no delimiter and ends no block. -/
theorem Sentence.starts (t : Sentence) (h : t.WellFormed) :
    ∃ m ms, t.render = m :: ms ∧ isInner m.token = true := by
  cases t with
  | simple marks =>
    obtain ⟨⟨m, more, rfl, _⟩, hinner⟩ := h
    exact ⟨m, more, rfl, hinner m List.mem_cons_self⟩
  | routine isFunction => exact ⟨_, _, rfl, by cases isFunction <;> rfl⟩
  | branch | branchElse | countLoop | guardLoop => exact ⟨_, _, rfl, rfl⟩

/-! ## Headers -/

/-- The symbols stand at an opening parenthesis. -/
def AtParen (r : List Symbol) : Prop := ∃ o v, r = o :: v ∧ o.token = .openParen

/-- What a reader leaves: exactly the given symbols, or it has been stopped by a parenthesis. -/
def Leaves (tail r : List Symbol) : Prop := r = tail ∨ AtParen r

section Headers

variable {env : Context} {u tail : List Symbol} {d : Symbol}

theorem stops_of_mark {sym : Symbol} {m : Mark} (h : mark sym = m) (hm : m.tightness? = none) (k : Nat)
    (rest : List Symbol) : Stops k (sym :: rest) := stops_of_none (by rw [h, hm])

theorem stops_of_delimiter (hd : d.token = .delimiter) (k : Nat) (rest : List Symbol) : Stops k (d :: rest) :=
  stops_of_token hd rfl (by decide)

/-- An expression that is read from a phrase goes up to the end of it. -/
theorem expression_leaves {p : Phrase} (hp : p.WellFormed) (hu : u.map mark = p.render) (hstop : ∀ k, Stops k tail)
    (ha : env.arrive tail = .ok ()) {q : Parsed Expr (u ++ tail).length} (h : expression env (u ++ tail) = .ok q) :
    Leaves tail q.rest := by
  obtain ⟨e, r, _⟩ := q
  have hq : Parsed.plain (expression env (u ++ tail)) = .ok (e, r) := by rw [h]; rfl
  cases htrouble : p.trouble? env with
  | none =>
    obtain ⟨_, he⟩ := p.meaning_of_untroubled hp htrouble
    rw [expression_accepts ⟨p, hp, Nat.zero_le _, hu, he⟩ (hstop 0) ha] at hq
    cases hq
    exact .inl rfl
  | some t =>
    have hstumbles : Stumbles (Parsed.plain (expression env (u ++ tail))) tail t :=
      p.stumbles hp htrouble (Nat.zero_le _) hu (hstop 7) ha
    rw [hq] at hstumbles
    cases t with
    | refused code =>
      obtain ⟨f, hf, _⟩ := hstumbles
      cases hf
    | cut =>
      obtain ⟨_, o, v, ho, hx⟩ := hstumbles
      cases hx
      exact .inr ⟨o, v ++ tail, rfl, ho⟩

/-- A required symbol that stands behind what has been read. -/
theorem require_leaves {t : Token} {sym : Symbol} {r : List Symbol} {f : Fault} (h : Leaves (sym :: tail) r)
    {q : Parsed Symbol r.length} (hq : env.require t r f = .ok q) (ht : t ≠ .openParen := by decide) :
    q.rest = tail := by
  obtain ⟨x, rest, _⟩ := q
  have hplain : Parsed.plain (env.require t r f) = .ok (x, rest) := by rw [hq]; rfl
  obtain ⟨rfl, hx, _⟩ := require_ok hplain
  rcases h with h | ⟨o, v, h, ho⟩
  · cases h
    rfl
  · cases h
    exact absurd (hx.symm.trans ho) ht

theorem forStep_leaves {step : Option Phrase} (hstep : ∀ p ∈ step, p.WellFormed) (hu : u.map mark = renderStep step)
    (hd : d.token = .delimiter) {q : Passed (Option Expr) (u ++ d :: tail).length}
    (h : forStep env (u ++ d :: tail) = .ok q) : Leaves (d :: tail) q.rest := by
  cases step with
  | none =>
    obtain rfl := List.map_eq_nil_iff.1 hu
    simp only [List.nil_append, forStep, hd, reduceCtorEq, ↓reduceIte] at h
    cases h
    exact .inl rfl
  | some p =>
    obtain ⟨sym, u, rfl, hsym, hu⟩ := map_mark_cons hu
    simp only [List.cons_append, forStep, token_of_mark hsym, ↓reduceIte] at h
    obtain ⟨_, _, h⟩ := bind_eq_ok.1 h
    obtain ⟨e, he, h⟩ := bind_eq_ok.1 h
    cases h
    have hleaves := expression_leaves (hstep p rfl) hu (fun k => stops_of_delimiter hd k tail) (arrive_cons _ _) he
    exact hleaves

theorem loopGuard_leaves {c : Option Condition} (hc : ConditionWellFormed c) (hu : u.map mark = renderCondition c)
    (hd : d.token = .delimiter) {q : Passed (Option Guard) (u ++ d :: tail).length}
    (h : loopGuard env (u ++ d :: tail) = .ok q) : Leaves (d :: tail) q.rest := by
  cases c with
  | none =>
    obtain rfl := List.map_eq_nil_iff.1 hu
    simp only [List.nil_append, loopGuard, hd, reduceCtorEq, decide_false, Bool.or_self, Bool.false_eq_true,
      ↓reduceIte] at h
    cases h
    exact .inl rfl
  | some c =>
    obtain ⟨sym, u, rfl, hsym, hu⟩ := map_mark_cons hu
    have hword : (decide (sym.token = .word .whileWord) || decide (sym.token = .word .untilWord)) = true := by
      rw [token_of_mark hsym]
      cases c.isUntil <;> rfl
    simp only [List.cons_append, loopGuard, hword, ↓reduceIte] at h
    obtain ⟨_, _, h⟩ := bind_eq_ok.1 h
    obtain ⟨e, he, h⟩ := bind_eq_ok.1 h
    cases h
    have hleaves := expression_leaves (hc c rfl) hu (fun k => stops_of_delimiter hd k tail) (arrive_cons _ _) he
    exact hleaves

theorem forHead_leaves {n : String} {start limit : Phrase} {step : Option Phrase} (hstart : start.WellFormed)
    (hlimit : limit.WellFormed) (hstep : ∀ p ∈ step, p.WellFormed)
    (hu : u.map mark = .name n :: .operator .equal :: (start.render ++ .word .to :: (limit.render ++ renderStep step)))
    (hd : d.token = .delimiter)
    {q : Passed ((String × Expr × Expr × Option Expr) × Scopes) (u ++ d :: tail).length}
    (h : forHead env (u ++ d :: tail) = .ok q) : Leaves (d :: tail) q.rest ∧ q.value.1.1 = n := by
  obtain ⟨counter, u, rfl, hcounter, hu⟩ := map_mark_cons hu
  obtain ⟨sign, u, rfl, hsign, hu⟩ := map_mark_cons hu
  obtain ⟨us, u, rfl, hus, hu⟩ := map_mark_append hu
  obtain ⟨sep, u, rfl, hsep, hu⟩ := map_mark_cons hu
  obtain ⟨ul, ut, rfl, hul, hut⟩ := map_mark_append hu
  obtain ⟨hname, htext⟩ := mark_eq_name hcounter
  have hshape : counter :: sign :: (us ++ sep :: (ul ++ ut)) ++ d :: tail =
      counter :: sign :: (us ++ sep :: (ul ++ (ut ++ d :: tail))) := by simp
  revert q
  rw [hshape]
  intro q h
  have hbehind : ∀ k, Stops k (ut ++ d :: tail) := by
    intro k
    cases step with
    | none =>
      obtain rfl := List.map_eq_nil_iff.1 hut
      exact stops_of_delimiter hd k tail
    | some p =>
      obtain ⟨sym, ut, rfl, hsym, _⟩ := map_mark_cons hut
      exact stops_of_mark hsym rfl k _
  simp only [forHead, hname, ↓reduceIte] at h
  obtain ⟨names, _, h⟩ := bind_eq_ok.1 h
  obtain ⟨_, _, h⟩ := bind_eq_ok.1 h
  obtain ⟨⟨_, r₁, l₁⟩, h₁, h⟩ := bind_eq_ok.1 h
  obtain ⟨⟨_, r₂, l₂⟩, h₂, h⟩ := bind_eq_ok.1 h
  obtain ⟨⟨_, r₃, l₃⟩, h₃, h⟩ := bind_eq_ok.1 h
  obtain ⟨⟨_, r₄, l₄⟩, h₄, h⟩ := bind_eq_ok.1 h
  obtain ⟨⟨_, r₅, l₅⟩, h₅, h⟩ := bind_eq_ok.1 h
  cases h
  obtain rfl : r₁ = us ++ sep :: (ul ++ (ut ++ d :: tail)) := require_leaves (.inl rfl) h₁
  have hleaves := expression_leaves hstart hus (fun k => stops_of_mark hsep rfl k _) (arrive_cons _ _) h₂
  obtain rfl : r₃ = ul ++ (ut ++ d :: tail) := require_leaves hleaves h₃
  refine ⟨?_, htext⟩
  rcases expression_leaves hlimit hul hbehind (arrive_append (arrive_cons _ _) _) h₄ with rfl | ⟨o, v, rfl, ho⟩
  · exact forStep_leaves hstep hut hd h₅
  · -- the limit has been cut, and behind it there is no step
    simp only [forStep, ho, reduceCtorEq, ↓reduceIte] at h₅
    cases h₅
    exact .inr ⟨o, v, rfl, ho⟩

end Headers

/-! ## Parameters -/

section Parameters

variable {env : Context} {tail : List Symbol} {d : Symbol}

mutual

theorem parameterNames_leaves (hd : d.token ≠ .comma) : (names : List String) → names ≠ [] → ∀ {before : List String}
    {u : List Symbol} {q : Passed (List String) (u ++ d :: tail).length}, u.map mark = renderNames names →
    parameterNames env before (u ++ d :: tail) = .ok q → q.rest = d :: tail
  | [], hne, _, _, _, _, _ => absurd rfl hne
  | n :: names, _, before, u, q, hu, h => by
    obtain ⟨sym, u, rfl, hsym, hu⟩ := map_mark_cons hu
    simp only [List.cons_append, parameterNames, (mark_eq_name hsym).1, ↓reduceIte] at h
    split at h
    · cases h
    · obtain ⟨_, _, h⟩ := bind_eq_ok.1 h
      obtain ⟨p, hp, h⟩ := bind_eq_ok.1 h
      cases h
      have hrest := moreParameters_leaves hd names hu hp
      exact hrest

theorem moreParameters_leaves (hd : d.token ≠ .comma) : (names : List String) → ∀ {before : List String}
    {u : List Symbol} {q : Passed (List String) (u ++ d :: tail).length}, u.map mark = renderMoreNames names →
    moreParameters env before (u ++ d :: tail) = .ok q → q.rest = d :: tail
  | [], before, u, q, hu, h => by
    obtain rfl := List.map_eq_nil_iff.1 hu
    simp only [List.nil_append, moreParameters, hd, ↓reduceIte] at h
    cases h
    rfl
  | n :: names, before, u, q, hu, h => by
    obtain ⟨comma, u, rfl, hcomma, hu⟩ := map_mark_cons hu
    simp only [List.cons_append, moreParameters, token_of_mark hcomma, ↓reduceIte] at h
    obtain ⟨_, _, h⟩ := bind_eq_ok.1 h
    obtain ⟨p, hp, h⟩ := bind_eq_ok.1 h
    cases h
    have hrest := parameterNames_leaves hd (n :: names) (by simp) hu hp
    exact hrest

end

theorem parameterList_leaves {parameters : Option (List String)} {u : List Symbol}
    (hu : u.map mark = renderParameters parameters) (hd : d.token = .delimiter)
    {q : Passed (List String) (u ++ d :: tail).length} (h : parameterList env (u ++ d :: tail) = .ok q) :
    q.rest = d :: tail := by
  cases parameters with
  | none =>
    obtain rfl := List.map_eq_nil_iff.1 hu
    simp only [List.nil_append, parameterList, hd, reduceCtorEq, ↓reduceIte] at h
    cases h
    rfl
  | some names =>
    obtain ⟨o, inner, c, rfl, ho, hc, hinner⟩ := map_mark_closed hu
    have hshape : o :: inner ++ [c] ++ d :: tail = o :: (inner ++ c :: d :: tail) := by simp
    revert q
    rw [hshape]
    intro q h
    simp only [parameterList, ho, ↓reduceIte] at h
    obtain ⟨_, _, h⟩ := bind_eq_ok.1 h
    obtain ⟨⟨found, r₁, l₁⟩, h₁, h⟩ := bind_eq_ok.1 h
    obtain ⟨⟨_, r₂, l₂⟩, h₂, h⟩ := bind_eq_ok.1 h
    cases h
    obtain rfl : r₁ = c :: d :: tail := by
      split at h₁
      · rename_i hclose
        cases h₁
        cases names with
        | nil =>
          obtain rfl := List.map_eq_nil_iff.1 hinner
          rfl
        | cons n names =>
          obtain ⟨sym, inner, rfl, hsym, _⟩ := map_mark_cons hinner
          have hname : sym.token = .closeParen := hclose
          rw [(mark_eq_name hsym).1] at hname
          cases hname
      · rename_i hclose
        refine parameterNames_leaves (by rw [hc]; decide) names ?_ hinner h₁
        rintro rfl
        obtain rfl := List.map_eq_nil_iff.1 hinner
        exact hclose hc
    exact require_leaves (.inl rfl) h₂

theorem routineHead_leaves {n : String} {parameters : Option (List String)} {u : List Symbol}
    (hu : u.map mark = .name n :: renderParameters parameters) (hd : d.token = .delimiter)
    {q : Passed (String × List String) (u ++ d :: tail).length} (h : routineHead env (u ++ d :: tail) = .ok q) :
    q.rest = d :: tail := by
  obtain ⟨name, u, rfl, hname, hu⟩ := map_mark_cons hu
  simp only [List.cons_append, routineHead, (mark_eq_name hname).1, ↓reduceIte] at h
  split at h
  · cases h
  · obtain ⟨_, _, h⟩ := bind_eq_ok.1 h
    obtain ⟨p, hp, h⟩ := bind_eq_ok.1 h
    cases h
    have hrest := parameterList_leaves hu hd hp
    exact hrest

end Parameters

end MacroBasic.Grammar
