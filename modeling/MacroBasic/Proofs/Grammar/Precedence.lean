/-
The parser of expressions is exact: it reads the phrases of the grammar and nothing else, each in the one
way the grammar gives it, and what it makes of a phrase has the code of the phrase.
-/
import MacroBasic.Proofs.Grammar.Code
import MacroBasic.Proofs.Grammar.Uniqueness

namespace MacroBasic.Grammar

/-! ## Code that moves -/

theorem shift_shift (a n : Nat) (i : Instruction) : shift a (shift n i) = shift (a + n) i := by
  cases i <;> simp only [shift]
  all_goals rw [Nat.add_assoc, Nat.add_comm n a]

@[simp] theorem length_link (c d : List Instruction) : (link c d).length = c.length + d.length := by
  simp [link]

theorem map_shift_link (a : Nat) (c d : List Instruction) :
    (link c d).map (shift a) = c.map (shift a) ++ d.map (shift (a + c.length)) := by
  simp [link, Function.comp_def, shift_shift]

theorem map_shift_values (a : Nat) (vs : List Value) :
    (vs.map Instruction.pushValue).map (shift a) = vs.map .pushValue := by
  induction vs with
  | nil => rfl
  | cons v vs ih => rw [List.map_cons, List.map_cons, ih]; rfl

theorem map_shift_bindParameters (a : Nat) (parameters : List String) :
    (bindParameters parameters).map (shift a) = bindParameters parameters := by
  unfold bindParameters
  induction parameters.reverse with
  | nil => rfl
  | cons p ps ih => rw [List.flatMap_cons, List.map_append, ih]; rfl

theorem map_shift_enter (a : Nat) (r : Routine) : r.enter.map (shift a) = r.enter := by
  rw [Routine.enter, List.map_append, map_shift_bindParameters]; rfl

/-! ## Code of meanings -/

/-- The length of relocatable code is the size of the expression that has this code. -/
theorem size_eq_of_code {e : Expr} {c : List Instruction} (h : ∀ a, e.code a = c.map (shift a)) :
    e.size = c.length := by
  have := congrArg List.length (h 0)
  simpa using this

mutual

/-- The code of what a phrase means is the code of the phrase, moved to where it begins. -/
theorem Phrase.code_meaning (env : Context) : (p : Phrase) → ∀ {e : Expr}, p.meaning? env = some e →
    ∀ a, e.code a = (p.polish env).map (shift a)
  | .number v, e, h, a => by cases h; rfl
  | .text v, e, h, a => by cases h; rfl
  | .word w, e, h, a => by
    rw [Phrase.meaning?, Option.map_eq_some_iff] at h
    obtain ⟨v, hv, rfl⟩ := h
    rw [Phrase.polish, hv]
    rfl
  | .name n, e, h, a => by
    rw [Phrase.meaning?, Context.name?] at h
    rw [Phrase.polish]
    split at h
    · rename_i hr
      cases h
      rw [if_pos hr]; rfl
    · rename_i hr
      obtain ⟨r, hf, h⟩ := Option.bind_eq_some_iff.1 h
      obtain ⟨hl, rfl⟩ := call?_some h
      have hnone : r.parameters = [] := List.length_eq_zero_iff.1 hl.symm
      rw [if_neg hr, hf, Expr.code, Routine.enter, hnone, function?_name hf]
      rfl
  | .apply n arguments, e, h, a => by
    rw [Phrase.meaning?] at h
    obtain ⟨r, hf, h⟩ := Option.bind_eq_some_iff.1 h
    obtain ⟨es, hes, h⟩ := Option.bind_eq_some_iff.1 h
    obtain ⟨hl, rfl⟩ := call?_some h
    have hcode := code_meanings env arguments hes
    rw [Phrase.polish, hf, Expr.code]
    simp only [map_shift_link, List.map_append, map_shift_enter, hcode, function?_name hf]
    simp [shift]
  | .group e, _, h, a => e.code_meaning env h a
  | .signed s e, _, h, a => by
    rw [Phrase.meaning?, Option.map_eq_some_iff] at h
    obtain ⟨inner, hi, rfl⟩ := h
    have hcode := e.code_meaning env hi
    rw [Phrase.polish, map_shift_link, ← hcode]
    cases s <;> simp [signed, Sign.operator?, Expr.code, shift]
  | .factorial e, _, h, a => by
    rw [Phrase.meaning?, Option.map_eq_some_iff] at h
    obtain ⟨inner, hi, rfl⟩ := h
    rw [Phrase.polish, map_shift_link, ← e.code_meaning env hi, Expr.code]
    rfl
  | .binary op l r, _, h, a => by
    rw [Phrase.meaning?] at h
    obtain ⟨el, hl, h⟩ := Option.bind_eq_some_iff.1 h
    obtain ⟨er, hr, h⟩ := Option.bind_eq_some_iff.1 h
    cases h
    have hcl := l.code_meaning env hl
    have hcr := r.code_meaning env hr
    rw [Phrase.polish, map_shift_link, map_shift_link, ← hcl, ← hcr, Expr.code, size_eq_of_code hcl]
    rfl
  | .conjunction first rest, _, h, a => by
    rw [Phrase.meaning?] at h
    obtain ⟨ef, hf, h⟩ := Option.bind_eq_some_iff.1 h
    obtain ⟨es, hes, h⟩ := Option.bind_eq_some_iff.1 h
    cases h
    have hcf := first.code_meaning env hf
    rw [Phrase.polish, map_shift_link, ← hcf, code_conjunction, size_eq_of_code hcf,
      code_conjuncts env rest hes]
  | .function w e, _, h, a => by
    rw [Phrase.meaning?] at h
    obtain ⟨op, hop, h⟩ := Option.bind_eq_some_iff.1 h
    obtain ⟨inner, hi, h⟩ := Option.bind_eq_some_iff.1 h
    cases h
    rw [Phrase.polish, map_shift_link, ← e.code_meaning env hi, hop, Expr.code]
    rfl
  | .choice c x y, _, h, a => by
    rw [Phrase.meaning?] at h
    obtain ⟨ec, hc, h⟩ := Option.bind_eq_some_iff.1 h
    obtain ⟨ex, hx, h⟩ := Option.bind_eq_some_iff.1 h
    obtain ⟨ey, hy, h⟩ := Option.bind_eq_some_iff.1 h
    cases h
    have hcc := c.code_meaning env hc
    have hcx := x.code_meaning env hx
    have hcy := y.code_meaning env hy
    have sc := size_eq_of_code hcc
    have sx := size_eq_of_code hcx
    have sy := size_eq_of_code hcy
    -- the same places, counted from the beginning of the choice and from the places of the branches
    have hskip : ey.size + 1 + (a + (ec.size + 1 + ex.size)) = a + ec.size + ex.size + 2 + ey.size := by
      show (_ : Nat) = _; omega
    have hno : ex.size + 2 + (a + ec.size) = a + ec.size + ex.size + 2 := by show (_ : Nat) = _; omega
    have hyes : a + (ec.size + 1 + ex.size + 1) = a + ec.size + ex.size + 2 := by show (_ : Nat) = _; omega
    simp only [Phrase.polish, map_shift_link, length_link, List.length_singleton, List.map_singleton, shift,
      Expr.code, ← sc, ← sx, ← sy]
    rw [← hcc, ← hcx, ← hcy, hskip, hno, hyes, Nat.add_assoc a ec.size 1]
    simp
  | .dialog d gaps, _, h, a => by
    rw [Phrase.meaning?, Option.map_eq_some_iff] at h
    obtain ⟨found, hf, rfl⟩ := h
    rw [Phrase.polish, map_shift_link, ← code_slots env gaps hf, Expr.code]
    cases d <;> rfl

theorem code_meanings (env : Context) : (ps : List Phrase) → ∀ {es : List Expr}, meanings? env ps = some es →
    ∀ a, codeOfAll a es = (polishAll env ps).map (shift a)
  | [], es, h, a => by cases h; rfl
  | p :: ps, es, h, a => by
    rw [meanings?] at h
    obtain ⟨e, he, h⟩ := Option.bind_eq_some_iff.1 h
    obtain ⟨more, hmore, h⟩ := Option.bind_eq_some_iff.1 h
    cases h
    have hc := p.code_meaning env he
    rw [polishAll, map_shift_link, ← hc, ← code_meanings env ps hmore, codeOfAll, size_eq_of_code hc]

theorem code_conjuncts (env : Context) : (ps : List Phrase) → ∀ {es : List Expr}, meanings? env ps = some es →
    ∀ a, codeOfConjuncts a es = (polishRest env ps).map (shift a)
  | [], es, h, a => by
    cases h
    have h₁ : a + 0 + 3 = 3 + a := by rw [Nat.add_zero, Nat.add_comm]
    have h₂ : 3 + a + 1 = 4 + a := by rw [Nat.add_assoc, Nat.add_comm a, ← Nat.add_assoc]
    simp only [codeOfConjuncts, codeOfRest, sizeOfRest, polishRest, List.map_cons, List.map_nil, shift, h₁, h₂]
    rfl
  | p :: ps, es, h, a => by
    rw [meanings?] at h
    obtain ⟨e, he, h⟩ := Option.bind_eq_some_iff.1 h
    obtain ⟨more, hmore, h⟩ := Option.bind_eq_some_iff.1 h
    cases h
    have hc := p.code_meaning env he
    have hr := code_conjuncts env ps hmore
    have hlen : sizeOfRest more + 4 = (polishRest env ps).length := by
      have := congrArg List.length (hr 0)
      rwa [length_codeOfConjuncts, List.length_map] at this
    rw [codeOfConjuncts_cons, polishRest, map_shift_link, map_shift_link, ← hc, ← hr, size_eq_of_code hc]
    simp only [length_link, List.map_singleton, shift, List.singleton_append, List.length_singleton,
      Nat.add_assoc, hlen]
    rw [Nat.add_comm a, Nat.add_assoc]

theorem code_slots (env : Context) : (gaps : List Gap) → ∀ {found : List Slot}, slotsOf? env gaps = some found →
    ∀ {defaults : List Value} {a : Address},
      codeOfSlots a defaults found = (polishGaps env defaults gaps).map (shift a)
  | [], found, h, defaults, a => by
    cases h
    rw [codeOfSlots, polishGaps, map_shift_values]
  | g :: gaps, found, h, defaults, a => by
    rw [slotsOf?] at h
    obtain ⟨slot, hs, h⟩ := Option.bind_eq_some_iff.1 h
    obtain ⟨more, hmore, h⟩ := Option.bind_eq_some_iff.1 h
    cases h
    have hc := g.code_slot env hs defaults.head?
    have hlen : slot.size defaults.isEmpty = (g.polish env defaults.head?).length := by
      have := congrArg List.length (hc 0)
      rw [Slot.length_code, List.length_map] at this
      rw [← this]
      cases defaults <;> rfl
    rw [polishGaps, map_shift_link, ← hc, ← code_slots env gaps hmore, codeOfSlots, hlen]

theorem Gap.code_slot (env : Context) : (g : Gap) → ∀ {slot : Slot}, g.slot? env = some slot →
    ∀ (standard : Option Value) (a : Address), slot.code a standard = (g.polish env standard).map (shift a)
  | .omitted, slot, h, standard, a => by cases h; cases standard <;> rfl
  | .given e, slot, h, standard, a => by
    rw [Gap.slot?, Option.map_eq_some_iff] at h
    obtain ⟨inner, hi, rfl⟩ := h
    rw [Gap.polish, map_shift_link, ← e.code_meaning env hi, Slot.code]
    cases standard <;> rfl

end

/-! ## The parser is exact -/

/-- What the parser of expressions passes is the spelling of exactly one phrase of the grammar, the
expression it gives is what the phrase means, and the code of the expression is the code of the phrase
moved to the place where it begins. Conversely a phrase is parsed if its names are visible and of the
right kind, its calls have the right number of arguments, and the symbol behind it cannot go on with it. -/
theorem expression_exact (env : Context) :
    (∀ (s : List Symbol) (parsed : Parsed Expr s.length), expression env s = .ok parsed →
      ∃ used, s = used ++ parsed.rest ∧ ∃ p : Phrase, p.WellFormed ∧ p.render = used.map mark ∧
        (∀ q : Phrase, q.WellFormed → q.render = used.map mark → q = p) ∧
        p.meaning? env = some parsed.value ∧ ∀ a, parsed.value.code a = (p.polish env).map (shift a)) ∧
    ∀ (p : Phrase) (e : Expr) (used rest : List Symbol), p.WellFormed → p.meaning? env = some e →
      used.map mark = p.render → env.arrive rest = .ok () → (mark (env.current rest)).tightness? = none →
      ∃ parsed, expression env (used ++ rest) = .ok parsed ∧ parsed.value = e ∧ parsed.rest = rest := by
  constructor
  · intro s parsed h
    have hplain : Parsed.plain (expression env s) = .ok (parsed.value, parsed.rest) := by rw [h]; rfl
    obtain ⟨used, hs, p, hw, _, hr, hm⟩ := expression_reads hplain
    refine ⟨used, hs, p, hw, hr.symm, ?_, hm, p.code_meaning env hm⟩
    intro q hq hqr
    exact Phrase.eq_of_render hq hw (hqr.trans hr)
  · intro p e used rest hw hm hr ha hnext
    have hstop : Stops 0 rest := by
      cases rest with
      | nil => intro sym hs; cases hs
      | cons sym rest => exact stops_of_none hnext
    have hplain := expression_accepts ⟨p, hw, Nat.zero_le _, hr, hm⟩ hstop ha
    obtain ⟨_, hok⟩ := Parsed.of_plain_ok hplain
    exact ⟨_, hok, rfl, rfl⟩

/-- `X - F(Y) AND TRUE` where `F` is a function of one parameter that begins at address 3. -/
theorem expression_exact_conjunction :
    let symbol (t : Token) (text : String) : Symbol := { token := t, text := text, position := .zero }
    let env : Context :=
      { names := Scopes.empty.allocate (.routine "F" .function 3 ["N"]), explicit := false, external := false
        ending := .ok (symbol .eof "") }
    let s := [symbol .name "X", symbol (.operator (.binary .subtract)) "-", symbol .name "F",
      symbol .openParen "(", symbol .name "Y", symbol .closeParen ")", symbol (.operator (.binary .and)) "AND",
      symbol (.word .trueWord) "TRUE"]
    ∃ parsed, expression env s = .ok parsed ∧ parsed.rest = [] ∧
      parsed.value.code 20 =
        [.pushVariable "X", .pushScope, .pushVariable "Y", .allocVar "N", .assign "N", .call 3, .popScope,
         .pushVariable "F", .binary .subtract, .jumpFalse 34, .pushValue (.boolean true), .jumpFalse 34,
         .pushValue (.boolean true), .jump 35, .pushValue (.boolean false)] := by
  intro symbol env s
  let p : Phrase := .conjunction (.binary .subtract (.name "X") (.apply "F" [.name "Y"])) [.word .trueWord]
  have hw : p.WellFormed := by
    simp [p, Phrase.WellFormed, WellFormedAll, Phrase.tightness, tightness, wordValue?]
  have hr : s.map mark = p.render := rfl
  obtain ⟨parsed, hok, _, hrest⟩ := (expression_exact env).2 p _ s [] hw rfl hr rfl rfl
  obtain ⟨used, hs, q, _, _, hunique, _, hcode⟩ := (expression_exact env).1 _ parsed hok
  rw [hrest, List.append_nil, List.append_nil] at hs
  have hpq : p = q := hunique p hw (by rw [← hs, hr])
  refine ⟨parsed, hok, hrest, ?_⟩
  rw [hcode, ← hpq]
  rfl

end MacroBasic.Grammar
