/-
What the parser of expressions accepts: symbols that spell a phrase of the grammar with a meaning, when a
symbol follows that cannot go on with it. A level of the parser reads one operand of the next tighter
level and then goes on as long as it finds its own operators; so a phrase of that level may be read up to
any point where no tighter operator follows, and what is left to do there is to go on from its meaning.
-/
import MacroBasic.Proofs.Grammar.Soundness

namespace MacroBasic.Grammar

/-- The symbols ahead do not begin with one that binds as tightly as `k`. -/
def Stops (k : Nat) (rest : List Symbol) : Prop :=
  ∀ sym ∈ rest.head?, ∀ t ∈ (mark sym).tightness?, t < k

/-- A part of the parser passes the symbols `used` and gives `a`, if what comes behind them stops it. -/
def Accepts {α : Type} (env : Context) (k : Nat) (x : List Symbol → Except Fault (α × List Symbol))
    (used : List Symbol) (a : α) : Prop :=
  ∀ rest, Stops k rest → env.arrive rest = .ok () → x (used ++ rest) = .ok (a, rest)

/-! ## Symbols of a mark -/

theorem token_of_mark {sym : Symbol} {t : Token} (h : mark sym = .plain t) : sym.token = t := by
  unfold mark at h
  split at h
  all_goals first | cases h; rfl | cases h

theorem mark_eq_name {sym : Symbol} {n : String} (h : mark sym = .name n) :
    sym.token = .name ∧ sym.text = n := by
  unfold mark at h
  split at h
  all_goals first | (cases h; exact ⟨‹_›, rfl⟩) | cases h

theorem opening_of_number {sym : Symbol} {v : Value} (h : mark sym = .number v) : opening sym = .value v := by
  unfold mark at h
  unfold opening
  split at h
  all_goals first | (cases h; rw [‹sym.token = _›]) | cases h

theorem opening_of_text {sym : Symbol} {v : Value} (h : mark sym = .text v) : opening sym = .value v := by
  unfold mark at h
  unfold opening
  split at h
  all_goals first | (cases h; rw [‹sym.token = _›]) | cases h

theorem opening_of_sign {sym : Symbol} {s : Sign} (h : sym.token = s.token) :
    opening sym = .sign s.operator? := by
  unfold opening; rw [h]; cases s <;> rfl

theorem wordOpening_of_value {w : Word} {v : Value} (h : wordValue? w = some v) : wordOpening w = .value v := by
  cases w <;> cases h <;> rfl

theorem wordOpening_of_function {w : Word} {op : UnaryOperator} (h : wordFunction? w = some op) :
    wordOpening w = .function w.spelling op := by
  cases w <;> cases h <;> rfl

theorem wordOpening_dialogWord (d : Dialog) : wordOpening (dialogWord d) = .dialog d := by cases d <;> rfl

/-- Symbols whose marks are split are split in the same way. -/
theorem map_mark_cons {used : List Symbol} {m : Mark} {ms : List Mark} (h : used.map mark = m :: ms) :
    ∃ sym u, used = sym :: u ∧ mark sym = m ∧ u.map mark = ms := by
  obtain ⟨sym, u, rfl, hm, hu⟩ := List.map_eq_cons_iff.1 h
  exact ⟨sym, u, rfl, hm, hu⟩

theorem map_mark_append {used : List Symbol} {ms ms' : List Mark} (h : used.map mark = ms ++ ms') :
    ∃ u u', used = u ++ u' ∧ u.map mark = ms ∧ u'.map mark = ms' := by
  obtain ⟨u, u', rfl, hu, hu'⟩ := List.map_eq_append_iff.1 h
  exact ⟨u, u', rfl, hu, hu'⟩

theorem map_mark_closed {used : List Symbol} {ms : List Mark}
    (h : used.map mark = .openParen :: ms ++ [Mark.closeParen]) :
    ∃ o inner c, used = o :: inner ++ [c] ∧ o.token = .openParen ∧ c.token = .closeParen ∧
      inner.map mark = ms := by
  obtain ⟨o, u, rfl, ho, hu⟩ := map_mark_cons h
  obtain ⟨inner, cs, rfl, hi, hc⟩ := map_mark_append hu
  obtain ⟨c, cs', rfl, hc, hn⟩ := map_mark_cons hc
  rw [List.map_eq_nil_iff] at hn
  rw [hn]
  exact ⟨o, inner, c, rfl, token_of_mark ho, token_of_mark hc, hi⟩

theorem map_mark_choice {used : List Symbol} {c x y : List Mark}
    (h : used.map mark = .word .iif :: .openParen :: c ++ .comma :: x ++ .comma :: y ++ [Mark.closeParen]) :
    ∃ sym o u₁ m₁ u₂ m₂ u₃ cl, used = sym :: o :: u₁ ++ m₁ :: u₂ ++ m₂ :: u₃ ++ [cl] ∧
      sym.token = .word .iif ∧ o.token = .openParen ∧ m₁.token = .comma ∧ m₂.token = .comma ∧
      cl.token = .closeParen ∧ u₁.map mark = c ∧ u₂.map mark = x ∧ u₃.map mark = y := by
  obtain ⟨w₃, v₃, rfl, hw₃, hv₃⟩ := map_mark_append h
  obtain ⟨cl, none, rfl, hcl, hnone⟩ := map_mark_cons hv₃
  obtain ⟨w₂, v₂, rfl, hw₂, hv₂⟩ := map_mark_append hw₃
  obtain ⟨m₂, u₃, rfl, hm₂, hu₃⟩ := map_mark_cons hv₂
  obtain ⟨w₁, v₁, rfl, hw₁, hv₁⟩ := map_mark_append hw₂
  obtain ⟨m₁, u₂, rfl, hm₁, hu₂⟩ := map_mark_cons hv₁
  obtain ⟨sym, v₀, rfl, hs, hv₀⟩ := map_mark_cons hw₁
  obtain ⟨o, u₁, rfl, ho, hu₁⟩ := map_mark_cons hv₀
  rw [List.map_eq_nil_iff.1 hnone]
  exact ⟨sym, o, u₁, m₁, u₂, m₂, u₃, cl, rfl, token_of_mark hs, token_of_mark ho, token_of_mark hm₁,
    token_of_mark hm₂, token_of_mark hcl, hu₁, hu₂, hu₃⟩

/-! ## What follows a phrase -/

section Following

variable {env : Context} {k : Nat} {rest : List Symbol}

theorem Stops.mono {j : Nat} (h : Stops k rest) (hj : k ≤ j) : Stops j rest := by
  intro sym hs t ht
  exact Nat.lt_of_lt_of_le (h sym hs t ht) hj

/-- A symbol that binds nothing stops every part of the parser. -/
theorem stops_of_none {sym : Symbol} (h : (mark sym).tightness? = none) : Stops k (sym :: rest) := by
  intro sym' hs t ht
  cases hs
  rw [h] at ht
  cases ht

theorem stops_of_token {sym : Symbol} {t : Token} (h : sym.token = t) (ht : (Mark.plain t).tightness? = none)
    (hn : t ≠ .number ∧ t ≠ .string ∧ t ≠ .name) : Stops k (sym :: rest) :=
  stops_of_none (by rw [mark_plain h hn]; exact ht)

theorem stops_closeParen {sym : Symbol} (h : sym.token = .closeParen) : Stops k (sym :: rest) :=
  stops_of_token h rfl (by simp)

theorem stops_comma {sym : Symbol} (h : sym.token = .comma) : Stops k (sym :: rest) :=
  stops_of_token h rfl (by simp)

/-- An operator stops the parser where tighter ones are looked for. -/
theorem stops_operator {sym : Symbol} {op : BinaryOperator} (h : sym.token = .operator (.binary op))
    (hk : tightness op < k) : Stops k (sym :: rest) := by
  intro sym' hs t ht
  cases hs
  rw [mark_operator h] at ht
  cases ht
  exact hk

theorem stops_factorial {sym : Symbol} (h : sym.token = .operator .factorial) : Stops 7 (sym :: rest) := by
  intro sym' hs t ht
  cases hs
  rw [mark_plain h (by simp)] at ht
  cases ht
  decide

theorem arrive_append (h : env.arrive rest = .ok ()) (used : List Symbol) :
    env.arrive (used ++ rest) = .ok () := by
  cases used with
  | nil => exact h
  | cons sym u => exact arrive_cons _ _

end Following

/-! ## Parts of phrases -/

section Parts

variable {env : Context} {k : Nat} {used : List Symbol} {e : Expr}

/-- Symbols at a level with operators of two operands spell an operand of that level or two joined by an
operator of it. -/
theorem Reads.split (h : Reads env k used e) (hk : k < 6) (hand : k ≠ 1) :
    Reads env (k + 1) used e ∨ ∃ op done sym u l r, used = done ++ sym :: u ∧
      sym.token = .operator (.binary op) ∧ tightness op = k ∧ Reads env k done l ∧ Reads env (k + 1) u r ∧
      e = .binary op l r := by
  obtain ⟨p, hw, ht, hr, hm⟩ := h
  by_cases hlt : k < p.tightness
  · exact .inl ⟨p, hw, hlt, hr, hm⟩
  · have heq : p.tightness = k := by omega
    cases p with
    | binary op l r =>
      obtain ⟨_, hl, hlk, hr', hrk⟩ := hw
      rw [Phrase.render] at hr
      obtain ⟨done, u, rfl, hdone, hu⟩ := map_mark_append hr
      obtain ⟨sym, u, rfl, hs, hu⟩ := map_mark_cons hu
      rw [Phrase.meaning?] at hm
      obtain ⟨el, hel, hm⟩ := Option.bind_eq_some_iff.1 hm
      obtain ⟨er, her, hm⟩ := Option.bind_eq_some_iff.1 hm
      cases hm
      have hop : tightness op = k := heq
      exact .inr ⟨op, done, sym, u, el, er, rfl, token_of_mark hs, hop, ⟨l, hl, by omega, hdone, hel⟩,
        ⟨r, hr', by omega, hu, her⟩, rfl⟩
    | conjunction first rest => exact absurd heq.symm hand
    | _ => simp only [Phrase.tightness] at heq; omega

theorem Reads.split_factorial (h : Reads env 6 used e) :
    Reads env 7 used e ∨ ∃ done sym inner, used = done ++ [sym] ∧ sym.token = .operator .factorial ∧
      Reads env 6 done inner ∧ e = .unary .factorial inner := by
  obtain ⟨p, hw, ht, hr, hm⟩ := h
  by_cases hlt : 6 < p.tightness
  · exact .inl ⟨p, hw, hlt, hr, hm⟩
  · have heq : p.tightness = 6 := by omega
    cases p with
    | factorial q =>
      rw [Phrase.render] at hr
      obtain ⟨done, u, rfl, hdone, hu⟩ := map_mark_append hr
      obtain ⟨sym, u, rfl, hs, hu⟩ := map_mark_cons hu
      rw [List.map_eq_nil_iff] at hu
      rw [Phrase.meaning?, Option.map_eq_some_iff] at hm
      obtain ⟨inner, hi, rfl⟩ := hm
      rw [hu]
      exact .inr ⟨done, sym, inner, rfl, token_of_mark hs, ⟨q, hw.1, hw.2, hdone, hi⟩, rfl⟩
    | binary op l r => cases op <;> cases heq
    | _ => simp [Phrase.tightness] at heq

theorem Reads.split_conjunction (h : Reads env 1 used e) :
    ∃ u first rest es, used = u ++ rest ∧ Reads env 2 u first ∧
      ReadsEach env 2 (.operator .and) rest es ∧ e = joined first es := by
  obtain ⟨p, hw, ht, hr, hm⟩ := h
  by_cases hlt : 1 < p.tightness
  · exact ⟨used, e, [], [], (List.append_nil _).symm, ⟨p, hw, hlt, hr, hm⟩, ⟨[], trivial, rfl, rfl⟩, rfl⟩
  · have heq : p.tightness = 1 := by omega
    cases p with
    | conjunction first rest =>
      obtain ⟨hf, hfk, hne, hrest⟩ := hw
      rw [Phrase.render] at hr
      obtain ⟨u, us, rfl, hu, hus⟩ := map_mark_append hr
      rw [Phrase.meaning?] at hm
      obtain ⟨ef, hef, hm⟩ := Option.bind_eq_some_iff.1 hm
      obtain ⟨es, hes, hm⟩ := Option.bind_eq_some_iff.1 hm
      cases hm
      refine ⟨u, ef, us, es, rfl, ⟨first, hf, hfk, hu, hef⟩, ⟨rest, hrest, hus, hes⟩, ?_⟩
      cases es with
      | nil =>
        cases rest with
        | nil => exact absurd rfl hne
        | cons q qs =>
          rw [meanings?] at hes
          obtain ⟨_, _, hes⟩ := Option.bind_eq_some_iff.1 hes
          obtain ⟨_, _, hes⟩ := Option.bind_eq_some_iff.1 hes
          cases hes
      | cons _ _ => rfl
    | binary op l r =>
      obtain ⟨hop, _⟩ := hw
      cases op <;> first | exact absurd rfl hop | cases heq
    | _ => simp [Phrase.tightness] at heq

theorem ReadsEach.split {m : Mark} {es : List Expr} (h : ReadsEach env k m used es) :
    (used = [] ∧ es = []) ∨ ∃ sym u rest e more, used = sym :: (u ++ rest) ∧ mark sym = m ∧
      Reads env k u e ∧ ReadsEach env k m rest more ∧ es = e :: more := by
  obtain ⟨ps, hw, hr, hm⟩ := h
  cases ps with
  | nil =>
    cases hm
    exact .inl ⟨by simpa [renderEach] using hr, rfl⟩
  | cons p ps =>
    obtain ⟨hp, hpk, hps⟩ := hw
    rw [renderEach] at hr
    obtain ⟨sym, u, rfl, hs, hu⟩ := map_mark_cons hr
    obtain ⟨u, rest, rfl, hu, hrest⟩ := map_mark_append hu
    rw [meanings?] at hm
    obtain ⟨e, he, hm⟩ := Option.bind_eq_some_iff.1 hm
    obtain ⟨more, hmore, hm⟩ := Option.bind_eq_some_iff.1 hm
    cases hm
    exact .inr ⟨sym, u, rest, e, more, rfl, hs, ⟨p, hp, hpk, hu, he⟩, ⟨ps, hps, hrest, hmore⟩, rfl⟩

/-- Further phrases behind commas stop the one before them, and so does the closing parenthesis. -/
theorem ReadsEach.stops {es : List Expr} {c : Symbol} {rest : List Symbol} (h : ReadsEach env k .comma used es)
    (hc : c.token = .closeParen) : Stops 0 (used ++ c :: rest) := by
  rcases h.split with ⟨rfl, _⟩ | ⟨comma, _, _, _, _, rfl, hcomma, _⟩
  · exact stops_closeParen hc
  · exact stops_comma (token_of_mark hcomma)

theorem ReadsEach.stops_and {es : List Expr} {rest : List Symbol} (h : ReadsEach env k (.operator .and) used es)
    (hstop : Stops 1 rest) : Stops 2 (used ++ rest) := by
  rcases h.split with ⟨rfl, _⟩ | ⟨sym, _, _, _, _, rfl, hs, _⟩
  · exact hstop.mono (by decide)
  · exact stops_operator (token_of_mark hs) (by decide)

theorem ReadsList.split {es : List Expr} (h : ReadsList env used es) :
    (used = [] ∧ es = []) ∨ ∃ u rest e more, used = u ++ rest ∧ Reads env 0 u e ∧
      ReadsEach env 0 .comma rest more ∧ es = e :: more := by
  obtain ⟨ps, hw, hr, hm⟩ := h
  cases ps with
  | nil =>
    cases hm
    exact .inl ⟨by simpa [renderList] using hr, rfl⟩
  | cons p ps =>
    obtain ⟨hp, hpk, hps⟩ := hw
    rw [renderList] at hr
    obtain ⟨u, rest, rfl, hu, hrest⟩ := map_mark_append hr
    rw [meanings?] at hm
    obtain ⟨e, he, hm⟩ := Option.bind_eq_some_iff.1 hm
    obtain ⟨more, hmore, hm⟩ := Option.bind_eq_some_iff.1 hm
    cases hm
    exact .inr ⟨u, rest, e, more, rfl, ⟨p, hp, hpk, hu, he⟩, ⟨ps, hps, hrest, hmore⟩, rfl⟩

theorem ReadsGaps.split {d : Dialog} {count : Nat} {found : List Slot} (h : ReadsGaps env d count used found) :
    count < d.most ∧
      ((∃ u rest e more, used = u ++ rest ∧ Reads env 0 u e ∧ ReadsMoreGaps env d (count + 1) rest more ∧
        found = .given e :: more) ∨
      ∃ more, ReadsMoreGaps env d (count + 1) used more ∧ found = .omitted :: more) := by
  obtain ⟨g, gaps, hl, ⟨hg, hw⟩, hr, hm⟩ := h
  refine ⟨by omega, ?_⟩
  rw [renderGaps] at hr
  rw [slotsOf?] at hm
  obtain ⟨slot, hslot, hm⟩ := Option.bind_eq_some_iff.1 hm
  obtain ⟨more, hmore, hm⟩ := Option.bind_eq_some_iff.1 hm
  cases hm
  cases g with
  | omitted =>
    cases hslot
    exact .inr ⟨more, ⟨gaps, by omega, hw, hr, hmore⟩, rfl⟩
  | given p =>
    rw [Gap.slot?, Option.map_eq_some_iff] at hslot
    obtain ⟨e, he, rfl⟩ := hslot
    obtain ⟨u, rest, rfl, hu, hrest⟩ := map_mark_append hr
    exact .inl ⟨u, rest, e, more, rfl, ⟨p, hg, Nat.zero_le _, hu, he⟩, ⟨gaps, by omega, hw, hrest, hmore⟩, rfl⟩

theorem ReadsMoreGaps.split {d : Dialog} {count : Nat} {found : List Slot}
    (h : ReadsMoreGaps env d count used found) :
    (used = [] ∧ found = []) ∨
      ∃ sym u, used = sym :: u ∧ sym.token = .comma ∧ ReadsGaps env d count u found := by
  obtain ⟨gaps, hl, hw, hr, hm⟩ := h
  cases gaps with
  | nil =>
    cases hm
    exact .inl ⟨by simpa [renderMoreGaps] using hr, rfl⟩
  | cons g gaps =>
    rw [renderMoreGaps] at hr
    obtain ⟨sym, u, rfl, hs, hu⟩ := map_mark_cons hr
    rw [List.length_cons] at hl
    exact .inr ⟨sym, u, rfl, token_of_mark hs, g, gaps, by omega, hw, hu, hm⟩

end Parts

/-! ## How phrases begin -/

/-- Whether a phrase may begin with a mark. -/
def Mark.startsExpression : Mark → Bool
  | .plain t => t.startsExpression
  | _ => true

theorem starts_of_mark {sym : Symbol} (h : (mark sym).startsExpression = true) :
    sym.token.startsExpression = true := by
  unfold mark at h
  split at h
  all_goals first | (rw [‹sym.token = _›]; rfl) | exact h

theorem wordValue?_starts {w : Word} (h : (wordValue? w).isSome) :
    (Token.word w).startsExpression = true := by
  cases w <;> first | rfl | cases h

theorem wordFunction?_starts {w : Word} (h : (wordFunction? w).isSome) :
    (Token.word w).startsExpression = true := by
  cases w <;> first | rfl | cases h

/-- A phrase begins with a mark that an expression may begin with. -/
theorem Phrase.render_starts : (p : Phrase) → p.WellFormed →
    ∃ m ms, p.render = m :: ms ∧ m.startsExpression = true
  | .number v, _ => ⟨.number v, [], rfl, rfl⟩
  | .text v, _ => ⟨.text v, [], rfl, rfl⟩
  | .name n, _ => ⟨.name n, [], rfl, rfl⟩
  | .word w, h => ⟨.word w, [], rfl, wordValue?_starts h⟩
  | .apply n _, _ => ⟨.name n, _, rfl, rfl⟩
  | .group _, _ => ⟨.openParen, _, rfl, rfl⟩
  | .signed s e, _ => ⟨.plain s.token, e.render, rfl, by cases s <;> rfl⟩
  | .function w _, h => ⟨.word w, _, rfl, wordFunction?_starts h.1⟩
  | .choice _ _ _, _ => ⟨.word .iif, _, rfl, rfl⟩
  | .dialog d _, _ => ⟨.word (dialogWord d), _, rfl, by cases d <;> rfl⟩
  | .factorial e, h => by
    obtain ⟨m, ms, hr, hm⟩ := e.render_starts h.1
    exact ⟨m, ms ++ [.factorial], by rw [Phrase.render, hr]; rfl, hm⟩
  | .binary op l r, h => by
    obtain ⟨m, ms, hr, hm⟩ := l.render_starts h.2.1
    exact ⟨m, ms ++ .operator op :: r.render, by rw [Phrase.render, hr]; rfl, hm⟩
  | .conjunction first rest, h => by
    obtain ⟨m, ms, hr, hm⟩ := first.render_starts h.1
    exact ⟨m, ms ++ renderEach (.operator .and) rest, by rw [Phrase.render, hr]; rfl, hm⟩

theorem Reads.starts {env : Context} {k : Nat} {used : List Symbol} {e : Expr} (h : Reads env k used e) :
    ∃ sym u, used = sym :: u ∧ sym.token.startsExpression = true := by
  obtain ⟨p, hw, _, hr, _⟩ := h
  obtain ⟨m, ms, hpr, hm⟩ := p.render_starts hw
  rw [hpr] at hr
  obtain ⟨sym, u, rfl, hs, _⟩ := map_mark_cons hr
  exact ⟨sym, u, rfl, starts_of_mark (by rw [hs]; exact hm)⟩

/-! ## Levels -/

/-- What the parser reads where operators of tightness `k` are looked for. -/
def readAt (env : Context) : Nat → List Symbol → Except Fault (Expr × List Symbol)
  | 0, s => Parsed.plain (expression env s)
  | 1, s => Parsed.plain (conjunction env s)
  | 2, s => Parsed.plain (chain env .relation s)
  | 3, s => Parsed.plain (chain env .sum s)
  | 4, s => Parsed.plain (chain env .product s)
  | 5, s => Parsed.plain (chain env .power s)
  | 6, s => Parsed.plain (factorial env s)
  | _, s => Parsed.plain (operand env s)

/-- How the parser goes on behind an operand of the operators of tightness `k`. -/
def goOnAt (env : Context) : Nat → Expr → List Symbol → Except Fault (Expr × List Symbol)
  | 0, e, s => Passed.plain (alternatives env e s)
  | 2, e, s => Passed.plain (chainRest env .relation e s)
  | 3, e, s => Passed.plain (chainRest env .sum e s)
  | 4, e, s => Passed.plain (chainRest env .product e s)
  | 5, e, s => Passed.plain (chainRest env .power e s)
  | 6, e, s => Passed.plain (factorials env e s)
  | _, e, s => .ok (e, s)

section Levels

variable (env : Context)

theorem readAt_level (l : Level) (s : List Symbol) :
    readAt env l.tightness s = Parsed.plain (chain env l s) := by cases l <;> rfl

theorem goOnAt_level (l : Level) (e : Expr) (s : List Symbol) :
    goOnAt env l.tightness e s = Passed.plain (chainRest env l e s) := by cases l <;> rfl

theorem plain_chainOperand (l : Level) (s : List Symbol) :
    Parsed.plain (chainOperand env l s) = readAt env (l.tightness + 1) s := by
  cases h : l.tighter? with
  | some m => rw [chainOperand_of_some env h, ← Level.tightness_tighter h, readAt_level]
  | none => rw [chainOperand_of_none env h, Level.tightness_tightest h]; rfl

theorem exists_level {k : Nat} (h₂ : 2 ≤ k) (h₅ : k ≤ 5) : ∃ l : Level, k = l.tightness := by
  have : k = 2 ∨ k = 3 ∨ k = 4 ∨ k = 5 := by omega
  rcases this with rfl | rfl | rfl | rfl
  · exact ⟨.relation, rfl⟩
  · exact ⟨.sum, rfl⟩
  · exact ⟨.product, rfl⟩
  · exact ⟨.power, rfl⟩

/-- A level reads an operand of the next tighter one and goes on from there. -/
theorem readAt_eq {k : Nat} (hk : k ≤ 6) (hand : k ≠ 1) (s : List Symbol) :
    readAt env k s = readAt env (k + 1) s >>= fun x => goOnAt env k x.1 x.2 := by
  have : k = 0 ∨ k = 6 ∨ (2 ≤ k ∧ k ≤ 5) := by omega
  rcases this with rfl | rfl | ⟨h₂, h₅⟩
  · exact plain_expression env s
  · exact plain_factorial env s
  · obtain ⟨l, rfl⟩ := exists_level h₂ h₅
    rw [readAt_level, plain_chain, plain_chainOperand]
    simp only [goOnAt_level]

theorem Level.accepts_iff (l : Level) (op : BinaryOperator) :
    l.accepts op = true ↔ Grammar.tightness op = l.tightness := by
  cases l <;> cases op <;> simp [Level.accepts, Grammar.tightness, Level.tightness]

theorem Level.operator?_of {l : Level} {sym : Symbol} {op : BinaryOperator}
    (h : sym.token = .operator (.binary op)) (hl : Grammar.tightness op = l.tightness) :
    l.operator? sym = some op := by
  unfold Level.operator?
  rw [h]
  exact if_pos ((l.accepts_iff op).2 hl)

theorem eq_or_of_tightness {op : BinaryOperator} (h : tightness op = 0) : op = .or := by
  cases op <;> first | rfl | cases h

/-- Behind an operator of its own a level reads another operand and goes on. -/
theorem goOnAt_operator {k : Nat} {sym : Symbol} {op : BinaryOperator}
    (hs : sym.token = .operator (.binary op)) (hop : op ≠ .and) (hk : tightness op = k) (left : Expr)
    (rest : List Symbol) :
    goOnAt env k left (sym :: rest) = (do
      env.arrive rest
      let (right, r) ← readAt env (k + 1) rest
      goOnAt env k (.binary op left right) r) := by
  have hcases : k = 0 ∨ (2 ≤ k ∧ k ≤ 5) := by
    rw [← hk]; cases op <;> first | exact absurd rfl hop | simp [tightness]
  rcases hcases with rfl | ⟨h₂, h₅⟩
  · cases eq_or_of_tightness hk
    show Passed.plain (alternatives env left (sym :: rest)) = _
    rw [plain_alternatives_cons, if_pos hs]; rfl
  · obtain ⟨l, rfl⟩ := exists_level h₂ h₅
    rw [goOnAt_level, plain_chainRest_cons, Level.operator?_of hs hk]
    simp only [goOnAt_level, plain_chainOperand]

/-- A level ends where no operator of its own follows. -/
theorem goOnAt_stop {k : Nat} {rest : List Symbol} (h : Stops k rest) (e : Expr) :
    goOnAt env k e rest = .ok (e, rest) := by
  have hcases : k = 0 ∨ k = 6 ∨ (2 ≤ k ∧ k ≤ 5) ∨ k = 1 ∨ 7 ≤ k := by omega
  rcases hcases with rfl | rfl | ⟨h₂, h₅⟩ | rfl | h₇
  · show Passed.plain (alternatives env e rest) = _
    cases rest with
    | nil => exact plain_alternatives_nil env e
    | cons sym rest =>
      rw [plain_alternatives_cons, if_neg]
      intro hs
      exact absurd (h sym rfl _ (by rw [mark_operator hs]; rfl)) (Nat.not_lt_zero _)
  · show Passed.plain (factorials env e rest) = _
    cases rest with
    | nil => exact plain_factorials_nil env e
    | cons sym rest =>
      rw [plain_factorials_cons, if_neg]
      intro hs
      exact absurd (h sym rfl 6 (by rw [mark_plain hs (by simp)]; rfl)) (Nat.lt_irrefl _)
  · obtain ⟨l, rfl⟩ := exists_level h₂ h₅
    rw [goOnAt_level]
    cases rest with
    | nil => exact plain_chainRest_nil env l e
    | cons sym rest =>
      rw [plain_chainRest_cons]
      cases ho : l.operator? sym with
      | none => rfl
      | some op =>
        obtain ⟨hs, hop⟩ := Level.operator?_eq_some ho
        have := h sym rfl (tightness op) (by rw [mark_operator hs]; rfl)
        omega
  · rfl
  · match k, h₇ with
    | k + 7, _ => rfl

end Levels

/-! ## The parser -/

/-- All levels of the parser accept fewer than `n` symbols that spell a phrase, and go on from its meaning
where only operators of their own may follow. -/
structure AcceptsBelow (env : Context) (n : Nat) : Prop where
  accepts : ∀ k used e, k ≤ 7 → used.length < n → Reads env k used e → Accepts env k (readAt env k) used e
  reaches : ∀ k used e rest, k ≤ 6 → k ≠ 1 → used.length < n → Reads env k used e → Stops (k + 1) rest →
    env.arrive rest = .ok () → readAt env k (used ++ rest) = goOnAt env k e rest

/-- A visible function is of the kind of a function and can be called. -/
theorem function?_some {env : Context} {n : String} {r : Routine} (h : env.function? n = some r) :
    (env.names.get? n).map Binding.kind = some .function ∧
      ∀ sym : Symbol, sym.text = n → routineOf env sym = .ok r := by
  unfold Context.function? at h
  cases hb : env.names.get? n with
  | none => rw [hb] at h; cases h
  | some b =>
    rw [hb] at h
    simp only at h
    split at h
    · rename_i hk
      obtain ⟨entry, ha, rfl⟩ := Option.map_eq_some_iff.1 h
      refine ⟨by rw [Option.map_some, hk], ?_⟩
      rintro sym rfl
      unfold routineOf
      rw [hb]
      simp only [Binding.isRoutine, hk, beq_self_eq_true, Bool.true_or, if_true, ha]
    · cases h

theorem call?_some {r : Routine} {es : List Expr} {e : Expr} (h : call? r es = some e) :
    es.length = r.parameters.length ∧ e = .call r es := by
  unfold call? at h
  split at h
  · rename_i hl
    cases h
    exact ⟨hl, rfl⟩
  · cases h

theorem operand_accepts_value {env : Context} {sym : Symbol} {v : Value} {rest : List Symbol}
    (h : opening sym = .value v) (ha : env.arrive rest = .ok ()) :
    Parsed.plain (operand env ([sym] ++ rest)) = .ok (.literal v, rest) := by
  rw [List.singleton_append, plain_operand_value env h, ha]
  rfl

section Step

variable {env : Context} {n : Nat} (ih : AcceptsBelow env n)

include ih

theorem expression_accepts_below {used : List Symbol} {e : Expr} {rest : List Symbol} (hl : used.length < n)
    (h : Reads env 0 used e) (hs : Stops 0 rest) (ha : env.arrive rest = .ok ()) :
    Parsed.plain (expression env (used ++ rest)) = .ok (e, rest) :=
  ih.accepts 0 used e (by decide) hl h rest hs ha

/-- What stands in parentheses is read up to the closing one. -/
theorem expression_accepts_closed {used : List Symbol} {e : Expr} {c : Symbol} (hl : used.length < n)
    (h : Reads env 0 used e) (hc : c.token = .closeParen) (rest : List Symbol) :
    Parsed.plain (expression env (used ++ c :: rest)) = .ok (e, c :: rest) :=
  expression_accepts_below ih hl h (stops_closeParen hc) (arrive_cons _ _)

theorem moreArguments_accepts {es : List Expr} {used : List Symbol} {c : Symbol} (hl : used.length ≤ n)
    (h : ReadsEach env 0 .comma used es) (hc : c.token = .closeParen) (rest : List Symbol) :
    Passed.plain (moreArguments env (used ++ c :: rest)) = .ok (es, c :: rest) := by
  induction es generalizing used with
  | nil =>
    rcases h.split with ⟨rfl, _⟩ | ⟨_, _, _, _, _, _, _, _, _, he⟩
    · rw [List.nil_append, plain_moreArguments_cons, if_neg (by rw [hc]; decide)]
    · cases he
  | cons e es ihe =>
    rcases h.split with ⟨_, he⟩ | ⟨sym, u, more, e', es', rfl, hm, he, hmore, heq⟩
    · cases he
    · cases heq
      simp only [List.length_cons, List.length_append] at hl
      rw [List.cons_append, List.append_assoc, plain_moreArguments_cons, if_pos (token_of_mark hm),
        plain_arguments, expression_accepts_below ih (by omega) he (hmore.stops hc) (arrive_append (arrive_cons _ _) _),
        arrive_append (arrive_append (arrive_cons _ _) _)]
      simp only [bind, Except.bind]
      rw [ihe (by omega) hmore]
      rfl

theorem arguments_accepts {es : List Expr} {used : List Symbol} {c : Symbol} (hl : used.length < n)
    (h : ReadsList env used es) (hne : es ≠ []) (hc : c.token = .closeParen) (rest : List Symbol) :
    Parsed.plain (arguments env (used ++ c :: rest)) = .ok (es, c :: rest) := by
  rcases h.split with ⟨_, he⟩ | ⟨u, more, e, es', rfl, he, hmore, rfl⟩
  · exact absurd he hne
  · rw [List.length_append] at hl
    rw [List.append_assoc, plain_arguments,
      expression_accepts_below ih (by omega) he (hmore.stops hc) (arrive_append (arrive_cons _ _) _)]
    simp only [bind, Except.bind]
    rw [moreArguments_accepts ih (by omega) hmore hc]
    rfl

theorem callArguments_accepts {es : List Expr} {o : Symbol} {used : List Symbol} {c : Symbol}
    (hl : used.length < n) (h : ReadsList env used es) (ho : o.token = .openParen) (hc : c.token = .closeParen)
    {rest : List Symbol} (ha : env.arrive rest = .ok ()) :
    Passed.plain (callArguments env true (o :: used ++ c :: rest)) = .ok (es, rest) := by
  rw [List.cons_append, plain_callArguments_cons, if_pos ho, arrive_append (arrive_cons _ _)]
  simp only [bind, Except.bind]
  rcases h.split with ⟨rfl, rfl⟩ | ⟨u, more, e, es', rfl, he, hmore, rfl⟩
  · have hclose : env.token ([] ++ c :: rest) = .closeParen := hc
    rw [if_pos hclose]
    show (Parsed.plain (env.require _ _ _) >>= _) = _
    rw [List.nil_append, plain_require_of hc ha]
    rfl
  · obtain ⟨sym, u', rfl, hs⟩ := he.starts
    have hclose : env.token (sym :: u' ++ more ++ c :: rest) ≠ .closeParen := by
      intro ht
      rw [show sym.token = .closeParen from ht] at hs
      cases hs
    rw [if_neg hclose, arguments_accepts ih hl h (by simp) hc]
    show (Parsed.plain (env.require _ _ _) >>= _) = _
    rw [plain_require_of hc ha]
    rfl

theorem slots_accepts {d : Dialog} {found : List Slot} {count : Nat} {used : List Symbol} {c : Symbol}
    (hl : used.length < n) (h : ReadsGaps env d count used found) (hc : c.token = .closeParen)
    (rest : List Symbol) :
    Passed.plain (slots env d count (used ++ c :: rest)) = .ok (found, c :: rest) := by
  induction found generalizing count used with
  | nil =>
    obtain ⟨_, ⟨_, _, _, _, _, _, _, he⟩ | ⟨_, _, he⟩⟩ := h.split
    · cases he
    · cases he
  | cons slot found ihf =>
    -- the further parameters: none, or a comma and parameters of which there are fewer
    have hmore : ∀ u, u.length < n → ReadsMoreGaps env d (count + 1) u found →
        Passed.plain (moreSlots env d (count + 1) (u ++ c :: rest)) = .ok (found, c :: rest) := by
      intro u hu hg
      rcases hg.split with ⟨rfl, rfl⟩ | ⟨comma, u', rfl, hcomma, hg⟩
      · rw [List.nil_append, plain_moreSlots_cons, if_neg (by rw [hc]; decide)]
      · rw [List.length_cons] at hu
        rw [List.cons_append, plain_moreSlots_cons, if_pos hcomma, arrive_append (arrive_cons _ _)]
        exact ihf (by omega) hg
    have hstarts : ∀ u, ReadsMoreGaps env d (count + 1) u found →
        (env.token (u ++ c :: rest)).startsExpression = false ∧ Stops 0 (u ++ c :: rest) := by
      intro u hg
      rcases hg.split with ⟨rfl, _⟩ | ⟨comma, u', rfl, hcomma, _⟩
      · exact ⟨by show c.token.startsExpression = false; rw [hc]; rfl, stops_closeParen hc⟩
      · exact ⟨by show comma.token.startsExpression = false; rw [hcomma]; rfl, stops_comma hcomma⟩
    obtain ⟨hlt, ⟨u, more, e, found', rfl, he, hg, heq⟩ | ⟨found', hg, heq⟩⟩ := h.split
    · cases heq
      rw [List.length_append] at hl
      obtain ⟨sym, u', hu', hs⟩ := he.starts
      have hyes : (env.token (u ++ (more ++ c :: rest))).startsExpression = true := by rw [hu']; exact hs
      rw [List.append_assoc, plain_slots, if_neg (Nat.ne_of_lt hlt), if_pos hyes,
        expression_accepts_below ih (by omega) he (hstarts more hg).2 (arrive_append (arrive_cons _ _) _)]
      simp only [bind, Except.bind]
      rw [hmore more (by omega) hg]
      rfl
    · cases heq
      rw [plain_slots, if_neg (Nat.ne_of_lt hlt), if_neg (by rw [(hstarts used hg).1]; decide),
        hmore used hl hg]
      rfl

theorem dialogSlots_accepts {d : Dialog} {found : List Slot} {used rest : List Symbol}
    (hl : used.length ≤ n) (h : ReadsDialog env d used found) (ha : env.arrive rest = .ok ()) :
    Passed.plain (dialogSlots env d false (used ++ rest)) = .ok (found, rest) := by
  obtain ⟨o, inner, c, rfl, ho, hc, gaps, hlen, hlone, hw, hm, hg⟩ := h
  simp only [List.length_append, List.length_cons] at hl
  rw [List.append_assoc, List.singleton_append, List.cons_append, plain_dialogSlots_cons, if_pos ho,
    arrive_append (arrive_cons _ _)]
  simp only [bind, Except.bind]
  cases gaps with
  | nil =>
    cases hg
    have hinner : inner = [] := by simpa [renderGaps] using hm
    rw [hinner, if_pos (show env.token ([] ++ c :: rest) = .closeParen from hc)]
    show (Parsed.plain (env.require _ _ _) >>= _) = _
    rw [List.nil_append, plain_require_of hc ha]
    rfl
  | cons g gaps =>
    have hgaps : ReadsGaps env d 0 inner found :=
      ⟨g, gaps, by rw [List.length_cons] at hlen; omega, hw, hm, hg⟩
    -- what follows the opening parenthesis is an expression or a comma
    have hclose : env.token (inner ++ c :: rest) ≠ .closeParen := by
      obtain ⟨_, ⟨u, more, e, found', rfl, he, _⟩ | ⟨found', hmore, _⟩⟩ := hgaps.split
      · obtain ⟨sym, u', rfl, hs⟩ := he.starts
        intro ht
        rw [show sym.token = .closeParen from ht] at hs
        cases hs
      · rcases hmore.split with ⟨rfl, _⟩ | ⟨comma, u', rfl, hcomma, _⟩
        · obtain ⟨_, ⟨u, more, e, found'', hu, he, _⟩ | _⟩ := hgaps.split
          · obtain ⟨sym, u', rfl, _⟩ := he.starts
            cases hu
          · cases g with
            | given p =>
              obtain ⟨m, ms, hp, _⟩ := p.render_starts hw.1
              rw [renderGaps, Gap.render, hp] at hm
              cases hm
            | omitted =>
              cases gaps with
              | nil => exact absurd rfl hlone
              | cons _ _ => cases hm
        · intro ht
          rw [show comma.token = .closeParen from ht] at hcomma
          cases hcomma
    rw [if_neg hclose, slots_accepts ih (by omega) hgaps hc]
    show (Parsed.plain (env.require _ _ _) >>= _) = _
    rw [plain_require_of hc ha]
    rfl

theorem operand_accepts {used : List Symbol} {e : Expr} (hl : used.length ≤ n) (h : Reads env 7 used e) :
    Accepts env 7 (readAt env 7) used e := by
  intro rest hstop ha
  show Parsed.plain (operand env (used ++ rest)) = _
  obtain ⟨p, hw, ht, hr, hm⟩ := h
  -- the first symbol of the phrase alone decides which way the parser goes
  cases p with
  | number v =>
    cases hm
    obtain ⟨sym, u, rfl, hs, hu⟩ := map_mark_cons hr
    rw [List.map_eq_nil_iff.1 hu]
    exact operand_accepts_value (opening_of_number hs) ha
  | text v =>
    cases hm
    obtain ⟨sym, u, rfl, hs, hu⟩ := map_mark_cons hr
    rw [List.map_eq_nil_iff.1 hu]
    exact operand_accepts_value (opening_of_text hs) ha
  | word w =>
    rw [Phrase.meaning?, Option.map_eq_some_iff] at hm
    obtain ⟨v, hv, rfl⟩ := hm
    obtain ⟨sym, u, rfl, hs, hu⟩ := map_mark_cons hr
    have ho : opening sym = .value v := by
      rw [opening_word (token_of_mark hs), wordOpening_of_value hv]
    rw [List.map_eq_nil_iff.1 hu]
    exact operand_accepts_value ho ha
  | name m =>
    obtain ⟨sym, u, rfl, hs, hu⟩ := map_mark_cons hr
    obtain ⟨hname, htext⟩ := mark_eq_name hs
    have ho : opening sym = .name := by unfold opening; rw [hname]
    rw [List.map_eq_nil_iff.1 hu, List.cons_append, List.nil_append]
    rw [Phrase.meaning?, Context.name?] at hm
    split at hm
    -- a name that can be read is a variable, any other one has to be a function without arguments
    · rename_i hread
      cases hm
      rw [plain_operand_readable env ho (by rw [htext]; exact hread), ha, htext]
      rfl
    · obtain ⟨r, hf, hm⟩ := Option.bind_eq_some_iff.1 hm
      obtain ⟨hlen, rfl⟩ := call?_some hm
      obtain ⟨hk, hro⟩ := function?_some hf
      rw [plain_operand_function_name env ho (by rw [htext]; exact hk), ha, plain_call, hro sym htext]
      have hargs : Passed.plain (callArguments env true rest) = .ok ([], rest) := by
        cases rest with
        | nil => exact plain_callArguments_nil env true
        | cons next rest =>
          rw [plain_callArguments_cons, if_neg, if_neg (by simp)]
          intro hopen
          exact absurd (hstop next rfl 7 (by rw [mark_plain hopen (by simp)]; rfl)) (Nat.lt_irrefl _)
      simp only [bind, Except.bind]
      rw [hargs]
      simp only [if_pos hlen]
      rfl
  | apply m arguments =>
    rw [Phrase.render] at hr
    obtain ⟨sym, u, rfl, hs, hu⟩ := map_mark_cons hr
    obtain ⟨o, inner, c, rfl, hopen, hclose, hinner⟩ := map_mark_closed hu
    obtain ⟨hname, htext⟩ := mark_eq_name hs
    have ho : opening sym = .name := by unfold opening; rw [hname]
    rw [Phrase.meaning?] at hm
    obtain ⟨r, hf, hm⟩ := Option.bind_eq_some_iff.1 hm
    obtain ⟨es, hes, hm⟩ := Option.bind_eq_some_iff.1 hm
    obtain ⟨hlen, rfl⟩ := call?_some hm
    obtain ⟨hk, hro⟩ := function?_some hf
    simp only [List.length_append, List.length_cons] at hl
    rw [List.cons_append, plain_operand_function_name env ho (by rw [htext]; exact hk),
      arrive_append ha, plain_call, hro sym htext, List.append_assoc, List.singleton_append]
    simp only [bind, Except.bind]
    rw [callArguments_accepts ih (by omega) ⟨arguments, hw, hinner, hes⟩ hopen hclose ha]
    simp only [if_pos hlen]
    rfl
  | group q =>
    rw [Phrase.render] at hr
    obtain ⟨o, inner, c, rfl, hopen, hclose, hinner⟩ := map_mark_closed hr
    have ho : opening o = .group := by unfold opening; rw [hopen]
    simp only [List.length_append, List.length_cons] at hl
    rw [List.append_assoc, List.cons_append, List.singleton_append, plain_operand_group env ho,
      arrive_append (arrive_cons _ _),
      expression_accepts_closed ih (by omega) ⟨q, hw, Nat.zero_le _, hinner, hm⟩ hclose]
    show (Parsed.plain (env.require _ _ _) >>= _) = _
    rw [plain_require_of hclose ha]
    rfl
  | signed s q =>
    rw [Phrase.render] at hr
    obtain ⟨sym, u, rfl, hs, hu⟩ := map_mark_cons hr
    rw [Phrase.meaning?, Option.map_eq_some_iff] at hm
    obtain ⟨inner, hi, rfl⟩ := hm
    rw [List.length_cons] at hl
    have hread := ih.accepts 7 u inner (Nat.le_refl _) hl ⟨q, hw.1, hw.2, hu, hi⟩ rest hstop ha
    rw [List.cons_append, plain_operand_sign env (opening_of_sign (token_of_mark hs)), arrive_append ha,
      show Parsed.plain (operand env (u ++ rest)) = _ from hread]
    rfl
  | function w q =>
    rw [Phrase.render] at hr
    obtain ⟨sym, u, rfl, hs, hu⟩ := map_mark_cons hr
    obtain ⟨o, inner, c, rfl, hopen, hclose, hinner⟩ := map_mark_closed hu
    rw [Phrase.meaning?] at hm
    obtain ⟨op, hop, hm⟩ := Option.bind_eq_some_iff.1 hm
    obtain ⟨e', he', hm⟩ := Option.bind_eq_some_iff.1 hm
    cases hm
    have ho : opening sym = .function w.spelling op := by
      rw [opening_word (token_of_mark hs), wordOpening_of_function hop]
    simp only [List.length_append, List.length_cons] at hl
    rw [List.cons_append, plain_operand_function env ho, arrive_append ha, List.append_assoc,
      List.singleton_append, List.cons_append, plain_require_of hopen (arrive_append (arrive_cons _ _) _)]
    simp only [bind, Except.bind]
    rw [expression_accepts_closed ih (by omega) ⟨q, hw.2, Nat.zero_le _, hinner, he'⟩ hclose]
    show (Parsed.plain (env.require _ _ _) >>= _) = _
    rw [plain_require_of hclose ha]
    rfl
  | choice c x y =>
    rw [Phrase.render] at hr
    obtain ⟨sym, o, u₁, m₁, u₂, m₂, u₃, cl, rfl, hs, hopen, hm₁, hm₂, hclose, hu₁, hu₂, hu₃⟩ := map_mark_choice hr
    rw [Phrase.meaning?] at hm
    obtain ⟨e₁, he₁, hm⟩ := Option.bind_eq_some_iff.1 hm
    obtain ⟨e₂, he₂, hm⟩ := Option.bind_eq_some_iff.1 hm
    obtain ⟨e₃, he₃, hm⟩ := Option.bind_eq_some_iff.1 hm
    cases hm
    obtain ⟨hw₁, hw₂, hw₃⟩ := hw
    have ho : opening sym = .choice := by rw [opening_word hs]; rfl
    simp only [List.length_append, List.length_cons] at hl
    have hsplit : sym :: o :: u₁ ++ m₁ :: u₂ ++ m₂ :: u₃ ++ [cl] ++ rest =
        sym :: o :: (u₁ ++ m₁ :: (u₂ ++ m₂ :: (u₃ ++ cl :: rest))) := by simp
    rw [hsplit, plain_operand_choice env ho, arrive_cons, plain_require_of hopen (arrive_append (arrive_cons _ _) _)]
    simp only [bind, Except.bind]
    rw [expression_accepts_below ih (by omega) ⟨c, hw₁, Nat.zero_le _, hu₁, he₁⟩ (stops_comma hm₁)
      (arrive_cons _ _)]
    simp only
    rw [plain_require_of hm₁ (arrive_append (arrive_cons _ _) _)]
    simp only
    rw [expression_accepts_below ih (by omega) ⟨x, hw₂, Nat.zero_le _, hu₂, he₂⟩ (stops_comma hm₂)
      (arrive_cons _ _)]
    simp only
    rw [plain_require_of hm₂ (arrive_append (arrive_cons _ _) _)]
    simp only
    rw [expression_accepts_closed ih (by omega) ⟨y, hw₃, Nat.zero_le _, hu₃, he₃⟩ hclose]
    show (Parsed.plain (env.require _ _ _) >>= _) = _
    rw [plain_require_of hclose ha]
    rfl
  | dialog d gaps =>
    rw [Phrase.render] at hr
    obtain ⟨sym, u, rfl, hs, hu⟩ := map_mark_cons hr
    obtain ⟨o, inner, c, rfl, hopen, hclose, hinner⟩ := map_mark_closed hu
    rw [Phrase.meaning?, Option.map_eq_some_iff] at hm
    obtain ⟨found, hfound, rfl⟩ := hm
    have ho : opening sym = .dialog d := by
      rw [opening_word (token_of_mark hs), wordOpening_dialogWord]
    rw [List.length_cons] at hl
    obtain ⟨hlen, hlone, hw⟩ := hw
    rw [List.cons_append, plain_operand_dialog env ho, arrive_append ha,
      dialogSlots_accepts ih (Nat.le_of_succ_le hl)
        ⟨o, inner, c, rfl, hopen, hclose, gaps, hlen, hlone, hw, hinner, hfound⟩ ha]
    rfl
  -- the phrases that are left bind less tightly than an operand
  | factorial q => simp [Phrase.tightness] at ht
  | binary op l r => cases op <;> simp [Phrase.tightness, tightness] at ht
  | conjunction first more => simp [Phrase.tightness] at ht

theorem reaches_operators {k : Nat} (hk : k < 6) (hand : k ≠ 1)
    (tighter : ∀ used e, used.length ≤ n → Reads env (k + 1) used e →
      Accepts env (k + 1) (readAt env (k + 1)) used e)
    {used rest : List Symbol} {e : Expr} (hl : used.length ≤ n) (h : Reads env k used e)
    (hstop : Stops (k + 1) rest) (ha : env.arrive rest = .ok ()) :
    readAt env k (used ++ rest) = goOnAt env k e rest := by
  rcases h.split hk hand with h' | ⟨op, done, sym, u, l, r, rfl, hs, hop, hleft, hright, rfl⟩
  · rw [readAt_eq env (Nat.le_of_lt hk) hand, tighter used e hl h' rest hstop ha]
    rfl
  · simp only [List.length_append, List.length_cons] at hl
    have hne : op ≠ .and := by rintro rfl; exact hand hop.symm
    rw [List.append_assoc, List.cons_append,
      ih.reaches k done l _ (Nat.le_of_lt hk) hand (by omega) hleft (stops_operator hs (by omega))
        (arrive_cons _ _),
      goOnAt_operator env hs hne hop, arrive_append ha]
    simp only [bind, Except.bind]
    rw [tighter u r (by omega) hright rest hstop ha]

theorem reaches_factorial {used rest : List Symbol} {e : Expr} (hl : used.length ≤ n) (h : Reads env 6 used e)
    (hstop : Stops 7 rest) (ha : env.arrive rest = .ok ()) :
    readAt env 6 (used ++ rest) = goOnAt env 6 e rest := by
  rcases h.split_factorial with h' | ⟨done, sym, inner, rfl, hs, hinner, rfl⟩
  · rw [readAt_eq env (Nat.le_refl _) (by decide), operand_accepts ih hl h' rest hstop ha]
    rfl
  · simp only [List.length_append, List.length_cons] at hl
    rw [List.append_assoc, List.singleton_append,
      ih.reaches 6 done inner _ (Nat.le_refl _) (by decide) (by omega) hinner (stops_factorial hs)
        (arrive_cons _ _)]
    show Passed.plain (factorials env inner (sym :: rest)) = Passed.plain (factorials env _ rest)
    rw [plain_factorials_cons, if_pos hs, ha]
    rfl

theorem conjuncts_accepts {es : List Expr} {used rest : List Symbol} (hl : used.length ≤ n)
    (h : ReadsEach env 2 (.operator .and) used es) (hstop : Stops 1 rest) (ha : env.arrive rest = .ok ()) :
    Passed.plain (conjuncts env (used ++ rest)) = .ok (es, rest) := by
  induction es generalizing used with
  | nil =>
    rcases h.split with ⟨rfl, _⟩ | ⟨_, _, _, _, _, _, _, _, _, he⟩
    · cases rest with
      | nil => exact plain_conjuncts_nil env
      | cons sym rest =>
        rw [List.nil_append, plain_conjuncts_cons, if_neg]
        intro hs
        exact absurd (hstop sym rfl 1 (by rw [mark_operator hs]; rfl)) (Nat.lt_irrefl _)
    · cases he
  | cons e es ihe =>
    rcases h.split with ⟨_, he⟩ | ⟨sym, u, more, e', es', rfl, hm, he, hmore, heq⟩
    · cases he
    · cases heq
      simp only [List.length_cons, List.length_append] at hl
      have hread := ih.accepts 2 u e (by decide) (by omega) he (more ++ rest) (hmore.stops_and hstop) (arrive_append ha _)
      rw [List.cons_append, List.append_assoc, plain_conjuncts_cons, if_pos (token_of_mark hm),
        arrive_append (arrive_append ha _), show Parsed.plain (chain env .relation (u ++ (more ++ rest))) = _ from hread]
      simp only [bind, Except.bind]
      rw [ihe (by omega) hmore]
      rfl

theorem conjunction_accepts
    (tighter : ∀ used e, used.length ≤ n → Reads env 2 used e → Accepts env 2 (readAt env 2) used e)
    {used : List Symbol} {e : Expr} (hl : used.length ≤ n) (h : Reads env 1 used e) :
    Accepts env 1 (readAt env 1) used e := by
  intro rest hstop ha
  obtain ⟨u, first, more, es, rfl, hfirst, hmore, rfl⟩ := h.split_conjunction
  rw [List.length_append] at hl
  have hread := tighter u first (by omega) hfirst (more ++ rest) (hmore.stops_and hstop) (arrive_append ha _)
  show Parsed.plain (conjunction env (u ++ more ++ rest)) = _
  rw [List.append_assoc, plain_conjunction,
    show Parsed.plain (chain env .relation (u ++ (more ++ rest))) = _ from hread]
  simp only [bind, Except.bind]
  rw [conjuncts_accepts ih (by omega) hmore hstop ha]
  rfl

/-- From the tightest level up, all levels accept what their operands are accepted for. -/
theorem readAt_accepts {k : Nat} (hk : k ≤ 7) {used : List Symbol} {e : Expr} (hl : used.length ≤ n)
    (h : Reads env k used e) : Accepts env k (readAt env k) used e := by
  induction hd : 7 - k generalizing k used e with
  | zero =>
    have : k = 7 := by omega
    subst this
    exact operand_accepts ih hl h
  | succ d ihd =>
    have tighter : ∀ used e, used.length ≤ n → Reads env (k + 1) used e →
        Accepts env (k + 1) (readAt env (k + 1)) used e := fun used e hl h => ihd (by omega) hl h (by omega)
    by_cases hand : k = 1
    · subst hand
      exact conjunction_accepts ih tighter hl h
    · intro rest hstop ha
      have hreach : readAt env k (used ++ rest) = goOnAt env k e rest := by
        by_cases h6 : k = 6
        · subst h6
          exact reaches_factorial ih hl h (hstop.mono (by decide)) ha
        · exact reaches_operators ih (by omega) hand tighter hl h (hstop.mono (Nat.le_succ k)) ha
      rw [hreach, goOnAt_stop env hstop]

end Step

theorem acceptsBelow (env : Context) (n : Nat) : AcceptsBelow env n := by
  induction n with
  | zero => constructor <;> intros <;> omega
  | succ n ih =>
    refine ⟨fun k used e hk hl h => readAt_accepts ih hk (Nat.le_of_lt_succ hl) h, ?_⟩
    intro k used e rest hk hand hl h hstop ha
    by_cases h6 : k = 6
    · subst h6
      exact reaches_factorial ih (Nat.le_of_lt_succ hl) h hstop ha
    · exact reaches_operators ih (by omega) hand
        (fun used e hl h => readAt_accepts ih (by omega) hl h) (Nat.le_of_lt_succ hl) h hstop ha

/-- Symbols that spell a phrase with a meaning are parsed to it when what follows binds nothing. -/
theorem expression_accepts {env : Context} {used rest : List Symbol} {e : Expr} (h : Reads env 0 used e)
    (hstop : Stops 0 rest) (ha : env.arrive rest = .ok ()) :
    Parsed.plain (expression env (used ++ rest)) = .ok (e, rest) :=
  (acceptsBelow env (used.length + 1)).accepts 0 used e (by decide) (Nat.lt_succ_self _) h rest hstop ha

end MacroBasic.Grammar
