/-
What the parser does with a phrase of the grammar that has no meaning. Names decide it: one that is not declared,
one of the wrong kind, a call with the wrong number of arguments. The first such name in the text is what the parse
ends with, and the code of the fault can be told from the phrase. There is one kind that raises no fault by itself:
behind a name that is read as a variable the parser looks for no parenthesis, so the phrase is cut in front of it,
and whoever comes next finds a symbol that does not fit.
-/
import MacroBasic.Proofs.Grammar.Completeness

namespace MacroBasic.Grammar

/-! ## Troubles -/

/-- What is wrong with a phrase where its names are visible. -/
inductive Trouble where
  /-- Reading ends in front of the parenthesis behind a name that cannot be called. -/
  | cut
  /-- Reading ends with a fault of the given code. -/
  | refused (code : FaultCode)
deriving DecidableEq

/-- The trouble of what stands in front of a required symbol, whose absence has the given code. -/
def Trouble.within (code : FaultCode) : Trouble → Trouble
  | .cut => .refused code
  | .refused c => .refused c

/-- The code of the fault of reading a name in an expression, if it cannot be read in any way. -/
def Context.refusal? (env : Context) (n : String) : Option FaultCode :=
  match env.names.get? n with
  | some b =>
    match b.kind with
    | .sub => some .subInExpression
    | .function => if b.address.isNone then some .internal else none
    | _ => none
  | none => if env.explicit then some .unknownIdentifier else none

/-- The trouble of a call with the wrong number of arguments. -/
def miscount? (r : Routine) (found : Nat) : Option Trouble :=
  if found = r.parameters.length then none else some (.refused .wrongNumberOfParameters)

mutual

/-- The first trouble in a phrase, from left to right. -/
def Phrase.trouble? (env : Context) : Phrase → Option Trouble
  | .number _ | .text _ | .word _ => none
  | .name n =>
    match env.refusal? n with
    | some c => some (.refused c)
    | none => (env.function? n).bind (miscount? · 0)
  | .apply n arguments =>
    match env.refusal? n, env.function? n with
    | some c, _ => some (.refused c)
    | none, none => some .cut
    | none, some r =>
      ((troubleAmong? env arguments).map (.within .missingClosingParenthesis)).or (miscount? r arguments.length)
  | .group e | .function _ e => (e.trouble? env).map (.within .missingClosingParenthesis)
  | .signed _ e | .factorial e => e.trouble? env
  | .binary _ l r => (l.trouble? env).or (r.trouble? env)
  | .conjunction first rest => (first.trouble? env).or (troubleAmong? env rest)
  | .choice c x y =>
    (((c.trouble? env).or (x.trouble? env)).map (.within .missingComma)).or
      ((y.trouble? env).map (.within .missingClosingParenthesis))
  | .dialog _ gaps => (troubleIn? env gaps).map (.within .missingClosingParenthesis)

/-- The first trouble in phrases. -/
def troubleAmong? (env : Context) : List Phrase → Option Trouble
  | [] => none
  | p :: rest => (p.trouble? env).or (troubleAmong? env rest)

/-- The first trouble in the parameters of a dialog. -/
def troubleIn? (env : Context) : List Gap → Option Trouble
  | [] => none
  | g :: rest => (g.trouble? env).or (troubleIn? env rest)

def Gap.trouble? (env : Context) : Gap → Option Trouble
  | .omitted => none
  | .given e => e.trouble? env

end

/-! ## Names -/

section Names

variable {env : Context} {n : String}

/-- A name that is refused by nothing and is no function is read as a variable or a constant. -/
theorem readable_of_refusal (h : env.refusal? n = none) (hf : env.function? n = none) : env.readable n = true := by
  unfold Context.refusal? at h
  unfold Context.function? at hf
  unfold Context.readable
  cases hb : env.names.get? n with
  | none =>
    rw [hb] at h
    cases hx : env.explicit with
    | false => rfl
    | true => rw [hx] at h; cases h
  | some b =>
    rw [hb] at h hf
    simp only [Option.map_some] at h hf ⊢
    match hk : b.kind with
    | .constant | .variable => rfl
    | .sub => rw [hk] at h; cases h
    | .function =>
      rw [hk] at h hf
      cases ha : b.address with
      | none => rw [ha] at h; cases h
      | some a => rw [ha] at hf; cases hf

theorem not_readable_of_function {r : Routine} (hf : env.function? n = some r) : env.readable n = false := by
  have hk := (function?_some hf).1
  unfold Context.readable
  rw [hk]

/-- A name that is refused stops the parse with that code. -/
theorem operand_refused {c : FaultCode} (h : env.refusal? n = some c) {sym : Symbol} {rest : List Symbol}
    (hs : mark sym = .name n) (ha : env.arrive rest = .ok ()) :
    ∃ f, Parsed.plain (operand env (sym :: rest)) = .error f ∧ f.code = c := by
  obtain ⟨hname, rfl⟩ := mark_eq_name hs
  have ho : opening sym = .name := by unfold opening; rw [hname]
  unfold Context.refusal? at h
  cases hb : env.names.get? sym.text with
  | none =>
    rw [hb] at h
    cases hx : env.explicit with
    | false => rw [hx] at h; cases h
    | true =>
      rw [hx] at h
      cases h
      rw [operand, ho, hb, hx]
      exact ⟨_, rfl, rfl⟩
  | some b =>
    rw [hb] at h
    simp only at h
    -- Constants and variables are read, so what is refused here is a routine.
    match hk : b.kind with
    | .constant | .variable => rw [hk] at h; cases h
    | .sub =>
      rw [hk] at h
      cases h
      rw [operand, ho, hb]
      simp only [Option.map_some, hk]
      exact ⟨_, rfl, rfl⟩
    | .function =>
      rw [hk] at h
      simp only at h
      split at h
      · rename_i hnone
        cases h
        rw [plain_operand_function_name env ho (by rw [hb, Option.map_some, hk]), ha, plain_call]
        unfold routineOf
        rw [hb]
        simp only [Binding.isRoutine, hk, beq_self_eq_true, Bool.true_or, if_true, Option.isNone_iff_eq_none.1 hnone]
        exact ⟨_, rfl, rfl⟩
      · cases h

end Names

/-! ## Phrases without trouble -/

theorem call?_of_miscount {r : Routine} {es : List Expr} {found : Nat} (h : miscount? r found = none)
    (hl : es.length = found) : call? r es = some (.call r es) := by
  unfold miscount? at h
  split at h
  · rename_i hn
    exact if_pos (hl.trans hn)
  · cases h

theorem length_meanings {env : Context} {ps : List Phrase} {es : List Expr} (h : meanings? env ps = some es) :
    es.length = ps.length := by
  induction ps generalizing es with
  | nil =>
    cases h
    rfl
  | cons p ps ih =>
    rw [meanings?] at h
    obtain ⟨e, _, h⟩ := Option.bind_eq_some_iff.1 h
    obtain ⟨es, hes, h⟩ := Option.bind_eq_some_iff.1 h
    cases h
    rw [List.length_cons, List.length_cons, ih hes]

mutual

/-- A phrase without trouble has a meaning. -/
theorem Phrase.meaning_of_untroubled {env : Context} : (p : Phrase) → p.WellFormed → p.trouble? env = none →
    ∃ e, p.meaning? env = some e
  | .number v, _, _ => ⟨.literal v, rfl⟩
  | .text v, _, _ => ⟨.literal v, rfl⟩
  | .word w, hw, _ => by
    obtain ⟨v, hv⟩ := Option.isSome_iff_exists.1 hw
    exact ⟨.literal v, by rw [Phrase.meaning?, hv]; rfl⟩
  | .name n, _, h => by
    rw [Phrase.trouble?] at h
    rw [Phrase.meaning?, Context.name?]
    -- A name that is not refused is a variable, or a function that takes no arguments.
    cases hr : env.refusal? n with
    | some c => rw [hr] at h; cases h
    | none =>
      rw [hr] at h
      cases hf : env.function? n with
      | none => exact ⟨_, if_pos (readable_of_refusal hr hf)⟩
      | some r =>
        rw [hf] at h
        rw [if_neg (by rw [not_readable_of_function hf]; decide)]
        exact ⟨_, call?_of_miscount h rfl⟩
  | .apply n arguments, hw, h => by
    rw [Phrase.trouble?] at h
    cases hr : env.refusal? n with
    | some c => rw [hr] at h; cases h
    | none =>
      rw [hr] at h
      cases hf : env.function? n with
      | none => rw [hf] at h; cases h
      | some r =>
        rw [hf] at h
        obtain ⟨hargs, hcount⟩ := Option.or_eq_none_iff.1 h
        obtain ⟨es, hes⟩ := meanings_of_untroubled arguments hw (Option.map_eq_none_iff.1 hargs)
        refine ⟨.call r es, ?_⟩
        rw [Phrase.meaning?, hf, hes]
        exact call?_of_miscount hcount (length_meanings hes)
  | .group e, hw, h => by
    obtain ⟨x, hx⟩ := e.meaning_of_untroubled hw (Option.map_eq_none_iff.1 h)
    exact ⟨x, by rw [Phrase.meaning?, hx]⟩
  | .signed s e, hw, h => by
    obtain ⟨x, hx⟩ := e.meaning_of_untroubled hw.1 h
    exact ⟨_, by rw [Phrase.meaning?, hx]; rfl⟩
  | .factorial e, hw, h => by
    obtain ⟨x, hx⟩ := e.meaning_of_untroubled hw.1 h
    exact ⟨_, by rw [Phrase.meaning?, hx]; rfl⟩
  | .binary op l r, hw, h => by
    obtain ⟨_, hl, _, hr, _⟩ := hw
    obtain ⟨hnl, hnr⟩ := Option.or_eq_none_iff.1 h
    obtain ⟨x, hx⟩ := l.meaning_of_untroubled hl hnl
    obtain ⟨y, hy⟩ := r.meaning_of_untroubled hr hnr
    exact ⟨_, by rw [Phrase.meaning?, hx, hy]; rfl⟩
  | .conjunction first rest, hw, h => by
    obtain ⟨hf, _, _, hrest⟩ := hw
    obtain ⟨hnf, hnr⟩ := Option.or_eq_none_iff.1 h
    obtain ⟨x, hx⟩ := first.meaning_of_untroubled hf hnf
    obtain ⟨es, hes⟩ := meanings_of_untroubled rest hrest hnr
    exact ⟨_, by rw [Phrase.meaning?, hx, hes]; rfl⟩
  | .function w e, hw, h => by
    obtain ⟨op, hop⟩ := Option.isSome_iff_exists.1 hw.1
    obtain ⟨x, hx⟩ := e.meaning_of_untroubled hw.2 (Option.map_eq_none_iff.1 h)
    exact ⟨_, by rw [Phrase.meaning?, hop, hx]; rfl⟩
  | .choice c x y, hw, h => by
    obtain ⟨hc, hx, hy⟩ := hw
    obtain ⟨hcx, hny⟩ := Option.or_eq_none_iff.1 h
    obtain ⟨hnc, hnx⟩ := Option.or_eq_none_iff.1 (Option.map_eq_none_iff.1 hcx)
    obtain ⟨ec, hec⟩ := c.meaning_of_untroubled hc hnc
    obtain ⟨ex, hex⟩ := x.meaning_of_untroubled hx hnx
    obtain ⟨ey, hey⟩ := y.meaning_of_untroubled hy (Option.map_eq_none_iff.1 hny)
    exact ⟨_, by rw [Phrase.meaning?, hec, hex, hey]; rfl⟩
  | .dialog d gaps, hw, h => by
    obtain ⟨found, hf⟩ := slots_of_untroubled gaps hw.2.2 (Option.map_eq_none_iff.1 h)
    exact ⟨_, by rw [Phrase.meaning?, hf]; rfl⟩

theorem meanings_of_untroubled {env : Context} {k : Nat} : (ps : List Phrase) → WellFormedAll k ps →
    troubleAmong? env ps = none → ∃ es, meanings? env ps = some es
  | [], _, _ => ⟨[], rfl⟩
  | p :: ps, hw, h => by
    obtain ⟨hp, _, hps⟩ := hw
    obtain ⟨hnp, hnps⟩ := Option.or_eq_none_iff.1 h
    obtain ⟨e, he⟩ := p.meaning_of_untroubled hp hnp
    obtain ⟨es, hes⟩ := meanings_of_untroubled ps hps hnps
    exact ⟨e :: es, by rw [meanings?, he, hes]; rfl⟩

theorem slots_of_untroubled {env : Context} : (gaps : List Gap) → WellFormedGaps gaps →
    troubleIn? env gaps = none → ∃ found, slotsOf? env gaps = some found
  | [], _, _ => ⟨[], rfl⟩
  | g :: gaps, hw, h => by
    obtain ⟨hng, hngs⟩ := Option.or_eq_none_iff.1 h
    obtain ⟨slot, hs⟩ := g.slot_of_untroubled hw.1 hng
    obtain ⟨found, hf⟩ := slots_of_untroubled gaps hw.2 hngs
    exact ⟨slot :: found, by rw [slotsOf?, hs, hf]; rfl⟩

theorem Gap.slot_of_untroubled {env : Context} : (g : Gap) → g.WellFormed → g.trouble? env = none →
    ∃ slot, g.slot? env = some slot
  | .omitted, _, _ => ⟨.omitted, rfl⟩
  | .given e, hw, h => by
    obtain ⟨x, hx⟩ := e.meaning_of_untroubled hw h
    exact ⟨.given x, by rw [Gap.slot?, hx]; rfl⟩

end

/-! ## Readers in trouble -/

/-- A reader ends in trouble in front of the symbols `rest`: with a fault, or at a parenthesis before them. -/
def Stumbles {α : Type} (x : Except Fault (α × List Symbol)) (rest : List Symbol) : Trouble → Prop
  | .refused c => ∃ f, x = .error f ∧ f.code = c
  | .cut => ∃ a o v, o.token = .openParen ∧ x = .ok (a, o :: v ++ rest)

namespace Stumbles

variable {α β : Type} {x : Except Fault (α × List Symbol)} {k : α × List Symbol → Except Fault (β × List Symbol)}
  {rest : List Symbol} {t : Trouble}

/-- Trouble before more symbols is trouble before the last of them. -/
theorem earlier {u : List Symbol} (h : Stumbles x (u ++ rest) t) : Stumbles x rest t := by
  cases t with
  | refused c => exact h
  | cut =>
    obtain ⟨a, o, v, ho, hx⟩ := h
    exact ⟨a, o, v ++ u, ho, by rw [hx, List.cons_append, List.cons_append, List.append_assoc]⟩

theorem earlier_cons {sym : Symbol} (h : Stumbles x (sym :: rest) t) : Stumbles x rest t :=
  earlier (u := [sym]) h

/-- What comes next reads nothing in front of a parenthesis, so it is in the same trouble. -/
theorem through (h : Stumbles x rest t)
    (hk : ∀ a o v, o.token = .openParen → ∃ b, k (a, o :: v) = .ok (b, o :: v)) : Stumbles (x >>= k) rest t := by
  cases t with
  | refused c =>
    obtain ⟨f, rfl, hc⟩ := h
    exact ⟨f, rfl, hc⟩
  | cut =>
    obtain ⟨a, o, v, ho, rfl⟩ := h
    obtain ⟨b, hb⟩ := hk a o (v ++ rest) ho
    exact ⟨b, o, v, ho, hb⟩

/-- What comes next requires another symbol than a parenthesis. -/
theorem within {c : FaultCode} {rest' : List Symbol} (h : Stumbles x rest t)
    (hk : ∀ a o v, o.token = .openParen → ∃ f, k (a, o :: v) = .error f ∧ f.code = c) :
    Stumbles (x >>= k) rest' (t.within c) := by
  cases t with
  | refused c =>
    obtain ⟨f, rfl, hc⟩ := h
    exact ⟨f, rfl, hc⟩
  | cut =>
    obtain ⟨a, o, v, ho, rfl⟩ := h
    exact hk a o (v ++ rest) ho

/-- A required symbol that is not found is a fault, whatever comes next. -/
theorem onward {c : FaultCode} {rest' : List Symbol} (h : Stumbles x rest (t.within c)) :
    Stumbles (x >>= k) rest' (t.within c) := by
  cases t <;> (obtain ⟨f, rfl, hc⟩ := h; exact ⟨f, rfl, hc⟩)

end Stumbles

section Parentheses

variable (env : Context) {o : Symbol} (v : List Symbol) (ho : o.token = .openParen)

include ho

/-- No level goes on at a parenthesis. -/
theorem goOnAt_paren {k : Nat} (hk : k ≤ 6) (e : Expr) : goOnAt env k e (o :: v) = .ok (e, o :: v) := by
  have hcases : k = 0 ∨ k = 6 ∨ (2 ≤ k ∧ k ≤ 5) ∨ k = 1 := by omega
  rcases hcases with rfl | rfl | ⟨h₂, h₅⟩ | rfl
  · show Passed.plain (alternatives env e (o :: v)) = _
    rw [plain_alternatives_cons, if_neg (by rw [ho]; decide)]
  · show Passed.plain (factorials env e (o :: v)) = _
    rw [plain_factorials_cons, if_neg (by rw [ho]; decide)]
  · obtain ⟨l, rfl⟩ := exists_level h₂ h₅
    have hop : l.operator? o = none := by unfold Level.operator?; rw [ho]
    rw [goOnAt_level, plain_chainRest_cons, hop]
  · rfl

theorem conjuncts_paren : Passed.plain (conjuncts env (o :: v)) = .ok ([], o :: v) := by
  rw [plain_conjuncts_cons, if_neg (by rw [ho]; decide)]

theorem moreArguments_paren : Passed.plain (moreArguments env (o :: v)) = .ok ([], o :: v) := by
  rw [plain_moreArguments_cons, if_neg (by rw [ho]; decide)]

theorem moreSlots_paren (d : Dialog) (count : Nat) :
    Passed.plain (moreSlots env d count (o :: v)) = .ok ([], o :: v) := by
  rw [plain_moreSlots_cons, if_neg (by rw [ho]; decide)]

theorem require_paren {t : Token} (ht : t ≠ .openParen) (f : Fault) :
    Parsed.plain (env.require t (o :: v) f) = .error f := by
  rw [plain_require_cons, if_neg (by rw [ho]; exact ht.symm)]

end Parentheses

/-! ## Levels in trouble -/

section Levels

variable {env : Context} {rest : List Symbol} {t : Trouble}

theorem readAt_and (env : Context) (s : List Symbol) :
    readAt env 1 s = readAt env 2 s >>= fun x => Passed.plain (conjuncts env x.2) >>= fun y =>
      pure (joined x.1 y.1, y.2) := plain_conjunction env s

/-- A level is in the trouble of the tighter ones. -/
theorem readAt_stumbles {j k : Nat} (hjk : k ≤ j) (hj : j ≤ 7) {s : List Symbol}
    (h : Stumbles (readAt env j s) rest t) : Stumbles (readAt env k s) rest t := by
  induction hd : j - k generalizing k with
  | zero =>
    obtain rfl : k = j := by omega
    exact h
  | succ d ih =>
    have hnext := ih (k := k + 1) (by omega) (by omega)
    -- The level of `AND` alone reads what follows by itself; the other ones go on from an expression.
    by_cases hand : k = 1
    · subst hand
      rw [readAt_and]
      refine hnext.through fun a o v ho => ⟨joined a [], ?_⟩
      dsimp only
      rw [conjuncts_paren env v ho]
      rfl
    · rw [readAt_eq env (by omega) hand]
      exact hnext.through fun a o v ho => ⟨a, goOnAt_paren env v ho (by omega) a⟩

end Levels

/-! ## Operands in trouble -/

section Operands

variable {α : Type} {env : Context} {rest : List Symbol} {t : Trouble}

theorem bind_of_ok {β : Type} {x : Except Fault β} {b : β} (h : x = .ok b) (k : β → Except Fault α) :
    (x >>= k) = k b := by
  rw [h]; rfl

theorem bind_arrive (ha : env.arrive rest = .ok ()) (k : Unit → Except Fault α) : (env.arrive rest >>= k) = k () :=
  bind_of_ok ha k

theorem bind_require {u : Token} {sym : Symbol} {f : Fault} (hs : sym.token = u) (ha : env.arrive rest = .ok ())
    (k : Symbol × List Symbol → Except Fault α) :
    (Parsed.plain (env.require u (sym :: rest) f) >>= k) = k (sym, rest) :=
  bind_of_ok (plain_require_of hs ha) k

/-- What requires a closing parenthesis does not find it in front of an opening one. -/
theorem requireClose_paren {β : Type} {o : Symbol} (ho : o.token = .openParen) (v : List Symbol) (place : String)
    (k : Symbol × List Symbol → Except Fault β) :
    ∃ f, (Parsed.plain (env.requireClose (o :: v) place) >>= k) = .error f ∧ f.code = .missingClosingParenthesis := by
  rw [Context.requireClose, require_paren env v ho (by decide)]
  exact ⟨_, rfl, rfl⟩

theorem requireComma_paren {β : Type} {o : Symbol} (ho : o.token = .openParen) (v : List Symbol) (place : String)
    (k : Symbol × List Symbol → Except Fault β) :
    ∃ f, (Parsed.plain (env.require .comma (o :: v) (env.missingComma (o :: v) place)) >>= k) = .error f ∧
      f.code = .missingComma := by
  rw [require_paren env v ho (by decide)]
  exact ⟨_, rfl, rfl⟩

/-- Behind the name of a function in an expression there are no arguments where no parenthesis follows. -/
theorem callArguments_none (env : Context) (hstop : Stops 7 rest) :
    Passed.plain (callArguments env true rest) = .ok ([], rest) := by
  cases rest with
  | nil => exact plain_callArguments_nil env true
  | cons next rest =>
    rw [plain_callArguments_cons, if_neg, if_neg (by simp)]
    intro hopen
    exact absurd (hstop next rfl 7 (by rw [mark_plain hopen (by simp)]; rfl)) (Nat.lt_irrefl _)

theorem miscount?_some {r : Routine} {found : Nat} (h : miscount? r found = some t) :
    found ≠ r.parameters.length ∧ t = .refused .wrongNumberOfParameters := by
  unfold miscount? at h
  split at h
  · cases h
  · rename_i hne
    cases h
    exact ⟨hne, rfl⟩

/-- A call with the wrong number of arguments is refused. -/
theorem call_miscounted {r : Routine} {sym : Symbol} {s : List Symbol} {es : List Expr} {inExpression : Bool}
    (hr : routineOf env sym = .ok r) (h : Passed.plain (callArguments env inExpression s) = .ok (es, rest))
    (hne : es.length ≠ r.parameters.length) :
    ∃ f, Passed.plain (call env sym inExpression s) = .error f ∧ f.code = .wrongNumberOfParameters := by
  rw [plain_call, hr, h]
  exact ⟨_, if_neg hne, rfl⟩

theorem operand_name_stumbles {n : String} {sym : Symbol} (h : (Phrase.name n).trouble? env = some t)
    (hs : mark sym = .name n) (hstop : Stops 7 rest) (ha : env.arrive rest = .ok ()) :
    Stumbles (readAt env 7 (sym :: rest)) rest t := by
  rw [Phrase.trouble?] at h
  cases hr : env.refusal? n with
  | some c =>
    rw [hr] at h
    cases h
    exact operand_refused hr hs ha
  | none =>
    rw [hr] at h
    obtain ⟨r, hf, hcount⟩ := Option.bind_eq_some_iff.1 h
    obtain ⟨hne, rfl⟩ := miscount?_some hcount
    obtain ⟨hname, htext⟩ := mark_eq_name hs
    have ho : opening sym = .name := by unfold opening; rw [hname]
    obtain ⟨f, hcall, hc⟩ := call_miscounted ((function?_some hf).2 sym htext) (callArguments_none env hstop) hne
    show Stumbles (Parsed.plain (operand env (sym :: rest))) rest _
    rw [plain_operand_function_name env ho (by rw [htext]; exact (function?_some hf).1), bind_arrive ha, hcall]
    exact ⟨f, rfl, hc⟩

theorem operand_group_stumbles {o c : Symbol} {inner : List Symbol} (ho : o.token = .openParen)
    (h : Stumbles (readAt env 0 (inner ++ c :: rest)) (c :: rest) t) :
    Stumbles (readAt env 7 (o :: (inner ++ c :: rest))) rest (t.within .missingClosingParenthesis) := by
  show Stumbles (Parsed.plain (operand env (o :: (inner ++ c :: rest)))) rest _
  rw [plain_operand_group env (by unfold opening; rw [ho]), bind_arrive (arrive_append (arrive_cons _ _) _)]
  exact h.within fun e o v ho => requireClose_paren ho v _ _

theorem operand_function_stumbles {w : Word} {op : UnaryOperator} {sym o c : Symbol} {inner : List Symbol}
    (hs : sym.token = .word w) (hw : wordFunction? w = some op) (ho : o.token = .openParen)
    (h : Stumbles (readAt env 0 (inner ++ c :: rest)) (c :: rest) t) :
    Stumbles (readAt env 7 (sym :: o :: (inner ++ c :: rest))) rest (t.within .missingClosingParenthesis) := by
  show Stumbles (Parsed.plain (operand env (sym :: o :: (inner ++ c :: rest)))) rest _
  rw [plain_operand_function env (by rw [opening_word hs, wordOpening_of_function hw]), bind_arrive (arrive_cons _ _),
    bind_require ho (arrive_append (arrive_cons _ _) _)]
  exact h.within fun e o v ho => requireClose_paren ho v _ _

section Choice

variable {sym o m₁ m₂ c : Symbol} {u₁ u₂ s : List Symbol} (hs : sym.token = .word .iif) (ho : o.token = .openParen)

include hs ho

theorem choice_stumbles_first (h : Stumbles (readAt env 0 (u₁ ++ m₁ :: s)) (m₁ :: s) t) :
    Stumbles (readAt env 7 (sym :: o :: (u₁ ++ m₁ :: s))) rest (t.within .missingComma) := by
  show Stumbles (Parsed.plain (operand env (sym :: o :: (u₁ ++ m₁ :: s)))) rest _
  rw [plain_operand_choice env (by rw [opening_word hs]; rfl), bind_arrive (arrive_cons _ _),
    bind_require ho (arrive_append (arrive_cons _ _) _)]
  exact h.within fun e o v ho => requireComma_paren ho v _ _

variable {e₁ : Expr} (hm₁ : m₁.token = .comma)
  (h₁ : Parsed.plain (expression env (u₁ ++ m₁ :: (u₂ ++ m₂ :: s))) = .ok (e₁, m₁ :: (u₂ ++ m₂ :: s)))

include hm₁ h₁

theorem choice_stumbles_second (h : Stumbles (readAt env 0 (u₂ ++ m₂ :: s)) (m₂ :: s) t) :
    Stumbles (readAt env 7 (sym :: o :: (u₁ ++ m₁ :: (u₂ ++ m₂ :: s)))) rest (t.within .missingComma) := by
  show Stumbles (Parsed.plain (operand env (sym :: o :: (u₁ ++ m₁ :: (u₂ ++ m₂ :: s))))) rest _
  rw [plain_operand_choice env (by rw [opening_word hs]; rfl), bind_arrive (arrive_cons _ _),
    bind_require ho (arrive_append (arrive_cons _ _) _)]
  dsimp only
  rw [bind_of_ok h₁]
  dsimp only
  rw [bind_require hm₁ (arrive_append (arrive_cons _ _) _)]
  exact h.within fun e o v ho => requireComma_paren ho v _ _

variable {e₂ : Expr} (hm₂ : m₂.token = .comma)
  (h₂ : Parsed.plain (expression env (u₂ ++ m₂ :: s)) = .ok (e₂, m₂ :: s)) (ha : env.arrive s = .ok ())

include hm₂ h₂ ha

theorem choice_stumbles_third (h : Stumbles (readAt env 0 s) (c :: rest) t) :
    Stumbles (readAt env 7 (sym :: o :: (u₁ ++ m₁ :: (u₂ ++ m₂ :: s)))) rest
      (t.within .missingClosingParenthesis) := by
  show Stumbles (Parsed.plain (operand env (sym :: o :: (u₁ ++ m₁ :: (u₂ ++ m₂ :: s))))) rest _
  rw [plain_operand_choice env (by rw [opening_word hs]; rfl), bind_arrive (arrive_cons _ _),
    bind_require ho (arrive_append (arrive_cons _ _) _)]
  dsimp only
  rw [bind_of_ok h₁]
  dsimp only
  rw [bind_require hm₁ (arrive_append (arrive_cons _ _) _)]
  dsimp only
  rw [bind_of_ok h₂]
  dsimp only
  rw [bind_require hm₂ ha]
  exact h.within fun e o v ho => requireClose_paren ho v _ _

end Choice

/-- Arguments in trouble, between the parentheses of a call. -/
theorem callArguments_stumbles {o c : Symbol} {inner : List Symbol} (inExpression : Bool) (ho : o.token = .openParen)
    (hne : env.token (inner ++ c :: rest) ≠ .closeParen)
    (h : Stumbles (Parsed.plain (arguments env (inner ++ c :: rest))) (c :: rest) t) :
    Stumbles (Passed.plain (callArguments env inExpression (o :: (inner ++ c :: rest)))) rest
      (t.within .missingClosingParenthesis) := by
  rw [plain_callArguments_cons, if_pos ho, bind_arrive (arrive_append (arrive_cons _ _) _), if_neg hne]
  exact h.within fun e o v ho => requireClose_paren ho v _ _

/-- A call is in the trouble of its arguments. -/
theorem call_stumbles {r : Routine} {sym : Symbol} {s : List Symbol} {inExpression : Bool}
    (hr : routineOf env sym = .ok r)
    (h : Stumbles (Passed.plain (callArguments env inExpression s)) rest (t.within .missingClosingParenthesis)) :
    Stumbles (Passed.plain (call env sym inExpression s)) rest (t.within .missingClosingParenthesis) := by
  rw [plain_call, bind_of_ok hr]
  exact h.onward

theorem operand_dialog_stumbles {d : Dialog} {sym o c : Symbol} {inner : List Symbol}
    (hs : sym.token = .word (dialogWord d)) (ho : o.token = .openParen)
    (hne : env.token (inner ++ c :: rest) ≠ .closeParen)
    (h : Stumbles (Passed.plain (slots env d 0 (inner ++ c :: rest))) (c :: rest) t) :
    Stumbles (readAt env 7 (sym :: o :: (inner ++ c :: rest))) rest (t.within .missingClosingParenthesis) := by
  show Stumbles (Parsed.plain (operand env (sym :: o :: (inner ++ c :: rest)))) rest _
  rw [plain_operand_dialog env (by rw [opening_word hs, wordOpening_dialogWord]), bind_arrive (arrive_cons _ _),
    plain_dialogSlots_cons, if_pos ho, bind_arrive (arrive_append (arrive_cons _ _) _), if_neg hne]
  have hclosed : Stumbles (Passed.plain (slots env d 0 (inner ++ c :: rest)) >>= fun x =>
      Parsed.plain (env.requireClose x.2 ("after " ++ d.mnemonic ++ " parameters")) >>= fun y => return (x.1, y.2)) rest
      (t.within .missingClosingParenthesis) := h.within fun found o v ho => requireClose_paren ho v _ _
  exact hclosed.onward

end Operands

/-! ## Phrases in trouble -/

section Following

variable {env : Context} {rest : List Symbol}

/-- What is read of a phrase without trouble. -/
theorem Phrase.reads_of_untroubled {p : Phrase} (hw : p.WellFormed) (h : p.trouble? env = none) {k : Nat}
    (hk : k ≤ p.tightness) {used : List Symbol} (hu : used.map mark = p.render) : ∃ e, Reads env k used e := by
  obtain ⟨e, he⟩ := p.meaning_of_untroubled hw h
  exact ⟨e, p, hw, hk, hu, he⟩

theorem readAt_accepts_at {k : Nat} (hk : k ≤ 7) {used : List Symbol} {e : Expr} (h : Reads env k used e)
    (hstop : Stops k rest) (ha : env.arrive rest = .ok ()) : readAt env k (used ++ rest) = .ok (e, rest) :=
  (acceptsBelow env (used.length + 1)).accepts k used e hk (Nat.lt_succ_self _) h rest hstop ha

/-- Phrases that each follow a mark begin with that mark, if there are any. -/
theorem stops_each {k : Nat} {m : Mark} (hm : ∀ t ∈ m.tightness?, t < k) {ps : List Phrase} {us : List Symbol}
    (hus : us.map mark = renderEach m ps) (h : ps ≠ [] ∨ Stops k rest) : Stops k (us ++ rest) := by
  cases ps with
  | nil =>
    rw [renderEach, List.map_eq_nil_iff] at hus
    rw [hus]
    exact h.resolve_left (fun hne => hne rfl)
  | cons p ps =>
    obtain ⟨sym, u, rfl, hs, _⟩ := map_mark_cons hus
    intro sym' hs' t ht
    cases hs'
    exact hm t (hs ▸ ht)

/-- A phrase begins with a symbol that an expression may begin with. -/
theorem token_starts {p : Phrase} (hw : p.WellFormed) {used : List Symbol} (hu : used.map mark = p.render) :
    (env.token (used ++ rest)).startsExpression = true := by
  obtain ⟨m, ms, hr, hm⟩ := p.render_starts hw
  rw [hr] at hu
  obtain ⟨sym, u, rfl, hs, _⟩ := map_mark_cons hu
  exact starts_of_mark (hs ▸ hm)

theorem ne_close_of_starts {t : Token} (h : t.startsExpression = true) : t ≠ .closeParen := by
  rintro rfl
  cases h

/-- Parentheses around arguments are not empty. -/
theorem token_ne_close {ps : List Phrase} (hw : WellFormedAll 0 ps) (hne : ps ≠ []) {used : List Symbol}
    (hu : used.map mark = renderList ps) : env.token (used ++ rest) ≠ .closeParen := by
  obtain ⟨p, ps, rfl⟩ := List.exists_cons_of_ne_nil hne
  obtain ⟨u, us, rfl, hu, _⟩ := map_mark_append hu
  rw [List.append_assoc]
  exact ne_close_of_starts (token_starts hw.1 hu)

/-- Parentheses around parameters with trouble are not empty. -/
theorem slots_token_ne_close {gaps : List Gap} (hw : WellFormedGaps gaps) {t : Trouble}
    (h : troubleIn? env gaps = some t) {used : List Symbol} (hu : used.map mark = renderGaps gaps) :
    env.token (used ++ rest) ≠ .closeParen := by
  match gaps with
  | .given e :: gaps =>
    obtain ⟨u, us, rfl, hu, _⟩ := map_mark_append hu
    rw [List.append_assoc]
    exact ne_close_of_starts (token_starts hw.1 hu)
  | .omitted :: g :: gaps =>
    obtain ⟨sym, u, rfl, hs, _⟩ := map_mark_cons hu
    intro hc
    have hcomma := token_of_mark hs
    rw [show sym.token = .closeParen from hc] at hcomma
    cases hcomma

/-- Further parameters begin with a comma, if there are any. -/
theorem stops_gaps {k : Nat} {gaps : List Gap} {us : List Symbol} (hus : us.map mark = renderMoreGaps gaps)
    (h : gaps ≠ [] ∨ Stops k rest) : Stops k (us ++ rest) := by
  cases gaps with
  | nil =>
    rw [renderMoreGaps, List.map_eq_nil_iff] at hus
    rw [hus]
    exact h.resolve_left (fun hne => hne rfl)
  | cons g gaps =>
    obtain ⟨sym, u, rfl, hs, _⟩ := map_mark_cons hus
    exact stops_comma (token_of_mark hs)

theorem gaps_ne_nil_of_trouble {gaps : List Gap} {t : Trouble} (h : troubleIn? env gaps = some t) : gaps ≠ [] := by
  rintro rfl
  cases h

theorem ne_nil_of_trouble {ps : List Phrase} {t : Trouble} (h : troubleAmong? env ps = some t) : ps ≠ [] := by
  rintro rfl
  cases h

/-- Behind an argument the other ones are read, if there are any. -/
theorem moreArguments_stumble {ps : List Phrase} {us : List Symbol} {t : Trouble} (hne : ps ≠ [])
    (hus : us.map mark = renderEach .comma ps) (ha : env.arrive rest = .ok ())
    (h : ∀ used, used.map mark = renderList ps → Stumbles (Parsed.plain (arguments env (used ++ rest))) rest t) :
    Stumbles (Passed.plain (moreArguments env (us ++ rest))) rest t := by
  obtain ⟨q, qs, rfl⟩ := List.exists_cons_of_ne_nil hne
  obtain ⟨comma, us, rfl, hcomma, hus⟩ := map_mark_cons hus
  rw [List.cons_append, plain_moreArguments_cons, if_pos (token_of_mark hcomma), bind_arrive (arrive_append ha _)]
  exact h us hus

/-- Behind a parameter the other ones are read, if there are any. -/
theorem moreSlots_stumble {d : Dialog} {count : Nat} {gaps : List Gap} {us : List Symbol} {t : Trouble}
    (hne : gaps ≠ []) (hus : us.map mark = renderMoreGaps gaps) (ha : env.arrive rest = .ok ())
    (h : ∀ used, used.map mark = renderGaps gaps → Stumbles (Passed.plain (slots env d count (used ++ rest))) rest t) :
    Stumbles (Passed.plain (moreSlots env d count (us ++ rest))) rest t := by
  obtain ⟨g, gaps, rfl⟩ := List.exists_cons_of_ne_nil hne
  obtain ⟨comma, us, rfl, hcomma, hus⟩ := map_mark_cons hus
  rw [List.cons_append, plain_moreSlots_cons, if_pos (token_of_mark hcomma), bind_arrive (arrive_append ha _)]
  exact h us hus

/-- Behind the name of a function the arguments are read, and then they are counted. -/
theorem call_stumbles_of_trouble {r : Routine} {ps : List Phrase} (hw : WellFormedAll 0 ps) {t : Trouble}
    (h : ((troubleAmong? env ps).map (.within .missingClosingParenthesis)).or (miscount? r ps.length) = some t)
    {sym o c : Symbol} (hr : routineOf env sym = .ok r) (ho : o.token = .openParen) (hc : c.token = .closeParen)
    {inner : List Symbol} (hi : inner.map mark = renderList ps) (ha : env.arrive rest = .ok ())
    (hargs : ∀ {t}, troubleAmong? env ps = some t →
      Stumbles (Parsed.plain (arguments env (inner ++ c :: rest))) (c :: rest) t) :
    Stumbles (Passed.plain (call env sym true (o :: (inner ++ c :: rest)))) rest t := by
  rcases Option.or_eq_some_iff.1 h with ht | ⟨hn, ht⟩
  · obtain ⟨t, hsome, rfl⟩ := Option.map_eq_some_iff.1 ht
    exact call_stumbles hr (callArguments_stumbles true ho (token_ne_close hw (ne_nil_of_trouble hsome) hi)
      (hargs hsome))
  · obtain ⟨hne, rfl⟩ := miscount?_some ht
    obtain ⟨es, hes⟩ := meanings_of_untroubled ps hw (Option.map_eq_none_iff.1 hn)
    have hread := callArguments_accepts (acceptsBelow env (inner.length + 1)) (Nat.lt_succ_self _)
      ⟨ps, hw, hi, hes⟩ ho hc ha
    rw [← length_meanings hes] at hne
    exact call_miscounted hr hread hne

/-- A name with parentheses behind it. -/
theorem operand_apply_stumbles {n : String} {ps : List Phrase} (hw : WellFormedAll 0 ps) {t : Trouble}
    (h : (Phrase.apply n ps).trouble? env = some t) {sym o c : Symbol} (hs : mark sym = .name n)
    (ho : o.token = .openParen) (hc : c.token = .closeParen) {inner : List Symbol}
    (hi : inner.map mark = renderList ps) (ha : env.arrive rest = .ok ())
    (hargs : ∀ {t}, troubleAmong? env ps = some t →
      Stumbles (Parsed.plain (arguments env (inner ++ c :: rest))) (c :: rest) t) :
    Stumbles (readAt env 7 (sym :: o :: (inner ++ c :: rest))) rest t := by
  obtain ⟨hname, htext⟩ := mark_eq_name hs
  have hopens : opening sym = .name := by unfold opening; rw [hname]
  rw [Phrase.trouble?] at h
  show Stumbles (Parsed.plain (operand env (sym :: o :: (inner ++ c :: rest)))) rest t
  cases hr : env.refusal? n with
  | some code =>
    rw [hr] at h
    cases h
    exact operand_refused hr hs (arrive_cons _ _)
  | none =>
    rw [hr] at h
    cases hf : env.function? n with
    | none =>
      rw [hf] at h
      cases h
      -- A variable: its name is all that is read, and the parenthesis stays.
      refine ⟨.variable n, o, inner ++ [c], ho, ?_⟩
      rw [plain_operand_readable env hopens (by rw [htext]; exact readable_of_refusal hr hf), arrive_cons, htext]
      simp [bind, Except.bind, pure, Except.pure]
    | some r =>
      rw [hf] at h
      obtain ⟨hk, hro⟩ := function?_some hf
      rw [plain_operand_function_name env hopens (by rw [htext]; exact hk), bind_arrive (arrive_cons _ _)]
      exact (call_stumbles_of_trouble hw h (hro sym htext) ho hc hi ha hargs).through fun x o v _ => ⟨_, rfl⟩

end Following

mutual

/-- The parser ends in the first trouble of a phrase. -/
theorem Phrase.stumbles {env : Context} : (p : Phrase) → p.WellFormed → ∀ {t : Trouble}, p.trouble? env = some t →
    ∀ {k : Nat}, k ≤ p.tightness → ∀ {used rest : List Symbol}, used.map mark = p.render → Stops 7 rest →
    env.arrive rest = .ok () → Stumbles (readAt env k (used ++ rest)) rest t
  | .number _, _, _, h, _, _, _, _, _, _, _ => by cases h
  | .text _, _, _, h, _, _, _, _, _, _, _ => by cases h
  | .word _, _, _, h, _, _, _, _, _, _, _ => by cases h
  | .name n, _, t, h, k, hk, used, rest, hu, hstop, ha => by
    obtain ⟨sym, u, rfl, hs, hnone⟩ := map_mark_cons hu
    rw [List.map_eq_nil_iff.1 hnone]
    exact readAt_stumbles hk (Nat.le_refl _) (operand_name_stumbles h hs hstop ha)
  | .apply n arguments, hw, t, h, k, hk, used, rest, hu, hstop, ha => by
    rw [Phrase.render] at hu
    obtain ⟨sym, u, rfl, hs, hu⟩ := map_mark_cons hu
    obtain ⟨o, inner, c, rfl, ho, hc, hi⟩ := map_mark_closed hu
    rw [List.cons_append, List.append_assoc, List.singleton_append, List.cons_append]
    exact readAt_stumbles hk (Nat.le_refl _) (operand_apply_stumbles hw h hs ho hc hi ha fun ht =>
      arguments_stumble arguments hw ht hi (stops_closeParen hc) (arrive_cons c rest))
  | .group e, hw, t, h, k, hk, used, rest, hu, _, _ => by
    obtain ⟨o, inner, c, rfl, ho, hc, hi⟩ := map_mark_closed hu
    obtain ⟨t, ht, rfl⟩ := Option.map_eq_some_iff.1 h
    rw [List.append_assoc, List.singleton_append]
    exact readAt_stumbles hk (Nat.le_refl _)
      (operand_group_stumbles ho (e.stumbles hw ht (Nat.zero_le _) hi (stops_closeParen hc) (arrive_cons _ _)))
  | .signed s e, hw, t, h, k, hk, used, rest, hu, hstop, ha => by
    obtain ⟨sym, u, rfl, hs, hu⟩ := map_mark_cons hu
    refine readAt_stumbles hk (Nat.le_refl _) ?_
    show Stumbles (Parsed.plain (operand env (sym :: (u ++ rest)))) rest t
    rw [plain_operand_sign env (opening_of_sign (token_of_mark hs)), bind_arrive (arrive_append ha _)]
    exact (e.stumbles hw.1 h hw.2 hu hstop ha).through fun a o v _ => ⟨signed s.operator? a, rfl⟩
  | .factorial e, hw, t, h, k, hk, used, rest, hu, _, _ => by
    obtain ⟨done, u, rfl, hdone, hu⟩ := map_mark_append hu
    obtain ⟨sym, u, rfl, hs, hnone⟩ := map_mark_cons hu
    rw [List.map_eq_nil_iff.1 hnone, List.append_assoc, List.singleton_append]
    exact readAt_stumbles (j := 6) hk (by decide)
      (e.stumbles hw.1 h hw.2 hdone (stops_factorial (token_of_mark hs)) (arrive_cons _ _)).earlier_cons
  | .binary op l r, hw, t, h, k, hk, used, rest, hu, hstop, ha => by
    obtain ⟨hand, hl, hlk, hr, hrk⟩ := hw
    obtain ⟨done, u, rfl, hdone, hu⟩ := map_mark_append hu
    obtain ⟨sym, u, rfl, hs, hu⟩ := map_mark_cons hu
    have hop := token_of_mark hs
    have hle : tightness op ≤ 5 := by cases op <;> decide
    rw [List.append_assoc, List.cons_append]
    refine readAt_stumbles (j := tightness op) hk (by omega) ?_
    rcases Option.or_eq_some_iff.1 h with ht | ⟨hn, ht⟩
    · exact (l.stumbles hl ht hlk hdone (stops_operator hop (by omega)) (arrive_cons _ _)).earlier (u := sym :: u)
    · -- The left operand is read, so the parser is at the operator and the trouble is in the right one.
      obtain ⟨e, he⟩ := l.reads_of_untroubled hl hn hlk hdone
      have hreach := (acceptsBelow env (done.length + 1)).reaches (tightness op) done e (sym :: (u ++ rest)) (by omega)
        (by cases op <;> first | exact absurd rfl hand | decide) (Nat.lt_succ_self _) he
        (stops_operator hop (Nat.lt_succ_self _)) (arrive_cons _ _)
      rw [hreach, goOnAt_operator env hop hand rfl, bind_arrive (arrive_append ha _)]
      exact (r.stumbles hr ht hrk hu hstop ha).through fun a o v ho => ⟨_, goOnAt_paren env v ho (by omega) _⟩
  | .conjunction first more, hw, t, h, k, hk, used, rest, hu, hstop, ha => by
    obtain ⟨hf, hfk, hne, hmore⟩ := hw
    obtain ⟨u, us, rfl, hu, hus⟩ := map_mark_append hu
    rw [List.append_assoc]
    refine readAt_stumbles (j := 1) hk (by decide) ?_
    -- The first operand has the trouble, or it is read and one behind it has the trouble.
    rcases Option.or_eq_some_iff.1 h with ht | ⟨hn, ht⟩
    · exact readAt_stumbles (j := 2) (by decide) (by decide)
        (first.stumbles hf ht hfk hu (stops_each (by decide) hus (.inl hne)) (arrive_append ha _)).earlier
    · obtain ⟨e, he⟩ := first.reads_of_untroubled hf hn hfk hu
      rw [readAt_and, bind_of_ok
        (readAt_accepts_at (by decide) he (stops_each (by decide) hus (.inl hne)) (arrive_append ha _))]
      exact (conjuncts_stumble more hmore ht hus hstop ha).through fun a o v _ => ⟨joined e a, rfl⟩
  | .function w e, hw, t, h, k, hk, used, rest, hu, _, _ => by
    obtain ⟨sym, u, rfl, hs, hu⟩ := map_mark_cons hu
    obtain ⟨o, inner, c, rfl, ho, hc, hi⟩ := map_mark_closed hu
    obtain ⟨t, ht, rfl⟩ := Option.map_eq_some_iff.1 h
    obtain ⟨op, hop⟩ := Option.isSome_iff_exists.1 hw.1
    rw [List.cons_append, List.append_assoc, List.singleton_append]
    exact readAt_stumbles hk (Nat.le_refl _) (operand_function_stumbles (token_of_mark hs) hop ho
      (e.stumbles hw.2 ht (Nat.zero_le _) hi (stops_closeParen hc) (arrive_cons _ _)))
  | .choice c x y, hw, t, h, k, hk, used, rest, hu, _, _ => by
    obtain ⟨hwc, hwx, hwy⟩ := hw
    obtain ⟨sym, o, u₁, m₁, u₂, m₂, u₃, cl, rfl, hs, ho, hm₁, hm₂, hc, hu₁, hu₂, hu₃⟩ := map_mark_choice hu
    have hsplit : sym :: o :: u₁ ++ m₁ :: u₂ ++ m₂ :: u₃ ++ [cl] ++ rest =
        sym :: o :: (u₁ ++ m₁ :: (u₂ ++ m₂ :: (u₃ ++ cl :: rest))) := by simp
    rw [hsplit]
    refine readAt_stumbles hk (Nat.le_refl _) ?_
    -- The first of the three parts that has a trouble is reached, since those before it are read.
    rcases Option.or_eq_some_iff.1 h with h | ⟨hn, ht⟩
    · obtain ⟨t, hsome, rfl⟩ := Option.map_eq_some_iff.1 h
      rcases Option.or_eq_some_iff.1 hsome with ht | ⟨hn, ht⟩
      · exact choice_stumbles_first hs ho
          (c.stumbles hwc ht (Nat.zero_le _) hu₁ (stops_comma hm₁) (arrive_cons _ _))
      · obtain ⟨e₁, he₁⟩ := c.reads_of_untroubled hwc hn (Nat.zero_le _) hu₁
        exact choice_stumbles_second hs ho hm₁ (expression_accepts he₁ (stops_comma hm₁) (arrive_cons _ _))
          (x.stumbles hwx ht (Nat.zero_le _) hu₂ (stops_comma hm₂) (arrive_cons _ _))
    · obtain ⟨hnc, hnx⟩ := Option.or_eq_none_iff.1 (Option.map_eq_none_iff.1 hn)
      obtain ⟨t, hsome, rfl⟩ := Option.map_eq_some_iff.1 ht
      obtain ⟨e₁, he₁⟩ := c.reads_of_untroubled hwc hnc (Nat.zero_le _) hu₁
      obtain ⟨e₂, he₂⟩ := x.reads_of_untroubled hwx hnx (Nat.zero_le _) hu₂
      exact choice_stumbles_third hs ho hm₁ (expression_accepts he₁ (stops_comma hm₁) (arrive_cons _ _)) hm₂
        (expression_accepts he₂ (stops_comma hm₂) (arrive_cons _ _)) (arrive_append (arrive_cons _ _) _)
        (y.stumbles hwy hsome (Nat.zero_le _) hu₃ (stops_closeParen hc) (arrive_cons _ _))
  | .dialog d gaps, hw, t, h, k, hk, used, rest, hu, _, _ => by
    obtain ⟨hlen, hlone, hgaps⟩ := hw
    obtain ⟨sym, u, rfl, hs, hu⟩ := map_mark_cons hu
    obtain ⟨o, inner, c, rfl, ho, hc, hi⟩ := map_mark_closed hu
    obtain ⟨t, ht, rfl⟩ := Option.map_eq_some_iff.1 h
    rw [List.cons_append, List.append_assoc, List.singleton_append]
    exact readAt_stumbles hk (Nat.le_refl _) (operand_dialog_stumbles (token_of_mark hs) ho
      (slots_token_ne_close hgaps ht hi)
      (slots_stumble gaps hgaps ht (by omega) hi (stops_closeParen hc) (arrive_cons _ _)))
termination_by structural p => p

/-- The operands of `AND` behind the first one. -/
theorem conjuncts_stumble {env : Context} : (ps : List Phrase) → WellFormedAll 2 ps → ∀ {t : Trouble},
    troubleAmong? env ps = some t → ∀ {used rest : List Symbol}, used.map mark = renderEach (.operator .and) ps →
    Stops 7 rest → env.arrive rest = .ok () → Stumbles (Passed.plain (conjuncts env (used ++ rest))) rest t
  | [], _, _, h, _, _, _, _, _ => by cases h
  | p :: ps, hw, t, h, used, rest, hu, hstop, ha => by
    obtain ⟨hp, hpk, hps⟩ := hw
    obtain ⟨sym, u, rfl, hs, hu⟩ := map_mark_cons hu
    obtain ⟨u, us, rfl, hu, hus⟩ := map_mark_append hu
    rw [List.cons_append, List.append_assoc, plain_conjuncts_cons, if_pos (token_of_mark hs),
      bind_arrive (arrive_append (arrive_append ha _) _)]
    rcases Option.or_eq_some_iff.1 h with ht | ⟨hn, ht⟩
    · refine (p.stumbles hp ht hpk hu (stops_each (by decide) hus (.inr hstop)) (arrive_append ha _)).earlier.through ?_
      intro e o v ho
      refine ⟨[e], ?_⟩
      dsimp only
      rw [bind_of_ok (conjuncts_paren env v ho)]
      rfl
    · obtain ⟨e, he⟩ := p.reads_of_untroubled hp hn hpk hu
      have hread := readAt_accepts_at (by decide) he (stops_each (by decide) hus (.inl (ne_nil_of_trouble ht)))
        (arrive_append ha _)
      rw [bind_of_ok (show Parsed.plain (chain env .relation (u ++ (us ++ rest))) = _ from hread)]
      exact (conjuncts_stumble ps hps ht hus hstop ha).through fun es o v _ => ⟨e :: es, rfl⟩
termination_by structural ps => ps

/-- The arguments of a call. -/
theorem arguments_stumble {env : Context} : (ps : List Phrase) → WellFormedAll 0 ps → ∀ {t : Trouble},
    troubleAmong? env ps = some t → ∀ {used rest : List Symbol}, used.map mark = renderList ps →
    Stops 7 rest → env.arrive rest = .ok () → Stumbles (Parsed.plain (arguments env (used ++ rest))) rest t
  | [], _, _, h, _, _, _, _, _ => by cases h
  | p :: ps, hw, t, h, used, rest, hu, hstop, ha => by
    obtain ⟨hp, hpk, hps⟩ := hw
    obtain ⟨u, us, rfl, hu, hus⟩ := map_mark_append hu
    rw [List.append_assoc, plain_arguments]
    rcases Option.or_eq_some_iff.1 h with ht | ⟨hn, ht⟩
    · refine (p.stumbles hp ht hpk hu (stops_each (by decide) hus (.inr hstop)) (arrive_append ha _)).earlier.through ?_
      intro e o v ho
      refine ⟨[e], ?_⟩
      dsimp only
      rw [bind_of_ok (moreArguments_paren env v ho)]
      rfl
    · obtain ⟨e, he⟩ := p.reads_of_untroubled hp hn hpk hu
      have hread := readAt_accepts_at (by decide) he (stops_each (by decide) hus (.inl (ne_nil_of_trouble ht)))
        (arrive_append ha _)
      rw [bind_of_ok (show Parsed.plain (expression env (u ++ (us ++ rest))) = _ from hread)]
      exact (moreArguments_stumble (ne_nil_of_trouble ht) hus ha fun used hu =>
        arguments_stumble ps hps ht hu hstop ha).through fun es o v _ => ⟨e :: es, rfl⟩
termination_by structural ps => ps

/-- The parameters of a dialog. -/
theorem slots_stumble {env : Context} {d : Dialog} : (gaps : List Gap) → WellFormedGaps gaps → ∀ {t : Trouble},
    troubleIn? env gaps = some t → ∀ {count : Nat}, count + gaps.length ≤ d.most → ∀ {used rest : List Symbol},
    used.map mark = renderGaps gaps → Stops 7 rest → env.arrive rest = .ok () →
    Stumbles (Passed.plain (slots env d count (used ++ rest))) rest t
  | [], _, _, h, _, _, _, _, _, _, _ => by cases h
  | .given e :: gaps, hw, t, h, count, hl, used, rest, hu, hstop, ha => by
    rw [List.length_cons] at hl
    obtain ⟨u, us, rfl, hu, hus⟩ := map_mark_append hu
    rw [List.append_assoc, plain_slots, if_neg (by omega), if_pos (token_starts hw.1 hu)]
    rcases Option.or_eq_some_iff.1 h with ht | ⟨hn, ht⟩
    · refine (e.stumbles hw.1 ht (Nat.zero_le _) hu (stops_gaps hus (.inr hstop))
        (arrive_append ha _)).earlier.through ?_
      intro x o v ho
      refine ⟨[.given x], ?_⟩
      dsimp only
      rw [bind_of_ok (moreSlots_paren env v ho d _)]
      rfl
    · obtain ⟨x, hx⟩ := e.reads_of_untroubled hw.1 hn (Nat.zero_le _) hu
      have hne := gaps_ne_nil_of_trouble ht
      rw [bind_of_ok (expression_accepts hx (stops_gaps hus (.inl hne)) (arrive_append ha _))]
      exact (moreSlots_stumble hne hus ha fun used hu =>
        slots_stumble gaps hw.2 ht (by omega) hu hstop ha).through fun es o v _ => ⟨.given x :: es, rfl⟩
  | .omitted :: gaps, hw, t, h, count, hl, used, rest, hu, hstop, ha => by
    rw [List.length_cons] at hl
    have hne : gaps ≠ [] := gaps_ne_nil_of_trouble h
    have hstarts : (env.token (used ++ rest)).startsExpression = false := by
      obtain ⟨g, gaps, rfl⟩ := List.exists_cons_of_ne_nil hne
      obtain ⟨comma, us, rfl, hcomma, _⟩ := map_mark_cons hu
      show comma.token.startsExpression = false
      rw [token_of_mark hcomma]
      rfl
    rw [plain_slots, if_neg (by omega), if_neg (by rw [hstarts]; decide)]
    exact (moreSlots_stumble hne hu ha fun used hu =>
      slots_stumble gaps hw.2 h (by omega) hu hstop ha).through fun es o v _ => ⟨.omitted :: es, rfl⟩
termination_by structural gaps => gaps

end

end MacroBasic.Grammar
