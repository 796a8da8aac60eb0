/-
What the parser of expressions has read when it succeeds: the symbols it has passed spell a phrase of the
grammar, and the expression it gives is what the phrase means. Each part of the parser reads phrases that
hold together at least as tightly as the operators it looks for.
-/
import MacroBasic.Proofs.Grammar.Phrase

namespace MacroBasic.Grammar

/-- Symbols that spell a phrase of the grammar that holds together at least so tightly and means `e`. -/
def Reads (env : Context) (k : Nat) (used : List Symbol) (e : Expr) : Prop :=
  ∃ p : Phrase, p.WellFormed ∧ k ≤ p.tightness ∧ used.map mark = p.render ∧ p.meaning? env = some e

/-- Symbols that spell phrases, each behind the mark `m`. -/
def ReadsEach (env : Context) (k : Nat) (m : Mark) (used : List Symbol) (es : List Expr) : Prop :=
  ∃ ps : List Phrase, WellFormedAll k ps ∧ used.map mark = renderEach m ps ∧ meanings? env ps = some es

/-- Symbols that spell phrases with commas between them. -/
def ReadsList (env : Context) (used : List Symbol) (es : List Expr) : Prop :=
  ∃ ps : List Phrase, WellFormedAll 0 ps ∧ used.map mark = renderList ps ∧ meanings? env ps = some es

/-- Symbols that spell the parameters of a dialog of which `count` are there already. -/
def ReadsGaps (env : Context) (d : Dialog) (count : Nat) (used : List Symbol) (slots : List Slot) : Prop :=
  ∃ (g : Gap) (gaps : List Gap), count + gaps.length < d.most ∧ WellFormedGaps (g :: gaps) ∧
    used.map mark = renderGaps (g :: gaps) ∧ slotsOf? env (g :: gaps) = some slots

/-- Symbols that spell further parameters of a dialog, each behind a comma. -/
def ReadsMoreGaps (env : Context) (d : Dialog) (count : Nat) (used : List Symbol) (slots : List Slot) : Prop :=
  ∃ gaps : List Gap, count + gaps.length ≤ d.most ∧ WellFormedGaps gaps ∧
    used.map mark = renderMoreGaps gaps ∧ slotsOf? env gaps = some slots

/-- Symbols that spell all parameters of a dialog, in parentheses. -/
def ReadsDialog (env : Context) (d : Dialog) (used : List Symbol) (slots : List Slot) : Prop :=
  ∃ (o : Symbol) (inner : List Symbol) (c : Symbol), used = o :: inner ++ [c] ∧ o.token = .openParen ∧
    c.token = .closeParen ∧ ∃ gaps : List Gap, gaps.length ≤ d.most ∧ gaps ≠ [.omitted] ∧
      WellFormedGaps gaps ∧ inner.map mark = renderGaps gaps ∧ slotsOf? env gaps = some slots

/-- Symbols that spell the arguments of a call in an expression: none, or some in parentheses. -/
def ReadsArguments (env : Context) (used : List Symbol) (es : List Expr) : Prop :=
  (used = [] ∧ es = []) ∨
    ∃ (o : Symbol) (inner : List Symbol) (c : Symbol), used = o :: inner ++ [c] ∧ o.token = .openParen ∧
      c.token = .closeParen ∧ ReadsList env inner es

/-- Whatever a parse of `s` gives, it has passed symbols that have to do with it as `P` says. -/
def Passes {α : Type} (P : List Symbol → α → Prop) (x : Except Fault (α × List Symbol)) (s : List Symbol) :
    Prop :=
  ∀ a r, x = .ok (a, r) → ∃ used, s = used ++ r ∧ P used a

/-! ## Marks of symbols -/

theorem mark_plain {sym : Symbol} {t : Token} (h : sym.token = t)
    (ht : t ≠ .number ∧ t ≠ .string ∧ t ≠ .name) : mark sym = .plain t := by
  unfold mark
  rw [h]
  obtain ⟨h₁, h₂, h₃⟩ := ht
  split
  · exact absurd rfl h₁
  · exact absurd rfl h₂
  · exact absurd rfl h₃
  · rfl

theorem mark_operator {sym : Symbol} {op : BinaryOperator} (h : sym.token = .operator (.binary op)) :
    mark sym = .operator op := mark_plain h (by simp)

theorem mark_word {sym : Symbol} {w : Word} (h : sym.token = .word w) : mark sym = .word w :=
  mark_plain h (by simp)

theorem mark_name {sym : Symbol} (h : sym.token = .name) : mark sym = .name sym.text := by
  unfold mark; rw [h]

theorem mark_sign {sym : Symbol} {s : Sign} (h : sym.token = s.token) : mark sym = .plain s.token :=
  mark_plain h (by cases s <;> simp [Sign.token])

/-! ## What a symbol opens -/

/-- What a word opens where an operand is expected. -/
def wordOpening (w : Word) : Opening :=
  match wordValue? w, wordFunction? w, wordDialog? w with
  | some v, _, _ => .value v
  | _, some op, _ => .function w.spelling op
  | _, _, some d => .dialog d
  | _, _, _ => if w = .iif then .choice else .none

theorem opening_word {sym : Symbol} {w : Word} (h : sym.token = .word w) : opening sym = wordOpening w := by
  unfold opening; rw [h]; rfl

theorem wordOpening_value {w : Word} {v : Value} (h : wordOpening w = .value v) : wordValue? w = some v := by
  cases w <;> cases h <;> rfl

theorem wordOpening_function {w : Word} {n : String} {op : UnaryOperator}
    (h : wordOpening w = .function n op) : wordFunction? w = some op := by
  cases w <;> cases h <;> rfl

theorem wordOpening_dialog {w : Word} {d : Dialog} (h : wordOpening w = .dialog d) : w = dialogWord d := by
  cases w <;> cases h <;> rfl

theorem wordOpening_choice {w : Word} (h : wordOpening w = .choice) : w = .iif := by
  cases w <;> first | rfl | cases h

/-- A word opens no sign, no group and no name. -/
theorem wordOpening_other (w : Word) :
    (∀ op, wordOpening w ≠ .sign op) ∧ wordOpening w ≠ .group ∧ wordOpening w ≠ .name := by
  refine ⟨fun op h => ?_, fun h => ?_, fun h => ?_⟩ <;> cases w <;> cases h

/-- All that can open an operand: a literal, a sign, a name, a group or a word. -/
theorem opening_cases {sym : Symbol} {o : Opening} (h : opening sym = o) (ho : o ≠ .none) :
    ((sym.token = .number ∨ sym.token = .string) ∧ o = .value (sym.value.getD .uninitialized)) ∨
    (∃ s : Sign, sym.token = s.token ∧ o = .sign s.operator?) ∨
    (sym.token = .name ∧ o = .name) ∨
    (sym.token = .openParen ∧ o = .group) ∨
    ∃ w, sym.token = .word w ∧ o = wordOpening w := by
  unfold opening at h
  split at h
  case h_1 ht => exact .inl ⟨.inl ht, h.symm⟩
  case h_2 ht => exact .inl ⟨.inr ht, h.symm⟩
  case h_3 ht => exact .inr (.inl ⟨.minus, ht, h.symm⟩)
  case h_4 ht => exact .inr (.inl ⟨.plus, ht, h.symm⟩)
  case h_5 ht => exact .inr (.inl ⟨.not, ht, h.symm⟩)
  case h_6 ht => exact .inr (.inr (.inl ⟨ht, h.symm⟩))
  case h_7 ht => exact .inr (.inr (.inr (.inl ⟨ht, h.symm⟩)))
  case h_8 w ht => exact .inr (.inr (.inr (.inr ⟨w, ht, h.symm⟩)))
  case h_9 => exact absurd h.symm ho

theorem opening_value {sym : Symbol} {v : Value} (h : opening sym = .value v) :
    mark sym = .number v ∨ mark sym = .text v ∨ ∃ w, sym.token = .word w ∧ wordValue? w = some v := by
  obtain ⟨ht, hv⟩ | ⟨_, _, ⟨⟩⟩ | ⟨_, ⟨⟩⟩ | ⟨_, ⟨⟩⟩ | ⟨w, ht, hw⟩ := opening_cases h nofun
  · cases hv
    rcases ht with ht | ht
    · exact .inl (by unfold mark; rw [ht])
    · exact .inr (.inl (by unfold mark; rw [ht]))
  · exact .inr (.inr ⟨w, ht, wordOpening_value hw.symm⟩)

theorem opening_sign {sym : Symbol} {op : Option UnaryOperator} (h : opening sym = .sign op) :
    ∃ s : Sign, sym.token = s.token ∧ op = s.operator? := by
  obtain ⟨_, ⟨⟩⟩ | ⟨s, ht, ⟨⟩⟩ | ⟨_, ⟨⟩⟩ | ⟨_, ⟨⟩⟩ | ⟨w, _, hw⟩ := opening_cases h nofun
  · exact ⟨s, ht, rfl⟩
  · exact absurd hw.symm ((wordOpening_other w).1 op)

theorem opening_function {sym : Symbol} {n : String} {op : UnaryOperator} (h : opening sym = .function n op) :
    ∃ w, sym.token = .word w ∧ wordFunction? w = some op := by
  obtain ⟨_, ⟨⟩⟩ | ⟨_, _, ⟨⟩⟩ | ⟨_, ⟨⟩⟩ | ⟨_, ⟨⟩⟩ | ⟨w, ht, hw⟩ := opening_cases h nofun
  exact ⟨w, ht, wordOpening_function hw.symm⟩

theorem opening_choice {sym : Symbol} (h : opening sym = .choice) : sym.token = .word .iif := by
  obtain ⟨_, ⟨⟩⟩ | ⟨_, _, ⟨⟩⟩ | ⟨_, ⟨⟩⟩ | ⟨_, ⟨⟩⟩ | ⟨w, ht, hw⟩ := opening_cases h nofun
  rw [ht, wordOpening_choice hw.symm]

theorem opening_dialog {sym : Symbol} {d : Dialog} (h : opening sym = .dialog d) :
    sym.token = .word (dialogWord d) := by
  obtain ⟨_, ⟨⟩⟩ | ⟨_, _, ⟨⟩⟩ | ⟨_, ⟨⟩⟩ | ⟨_, ⟨⟩⟩ | ⟨w, ht, hw⟩ := opening_cases h nofun
  rw [ht, wordOpening_dialog hw.symm]

theorem opening_group {sym : Symbol} (h : opening sym = .group) : sym.token = .openParen := by
  obtain ⟨_, ⟨⟩⟩ | ⟨_, _, ⟨⟩⟩ | ⟨_, ⟨⟩⟩ | ⟨ht, _⟩ | ⟨w, _, hw⟩ := opening_cases h nofun
  · exact ht
  · exact absurd hw.symm (wordOpening_other w).2.1

theorem opening_name {sym : Symbol} (h : opening sym = .name) : sym.token = .name := by
  obtain ⟨_, ⟨⟩⟩ | ⟨_, _, ⟨⟩⟩ | ⟨ht, _⟩ | ⟨_, ⟨⟩⟩ | ⟨w, _, hw⟩ := opening_cases h nofun
  · exact ht
  · exact absurd hw.symm (wordOpening_other w).2.2

/-! ## Phrases from their parts -/

section Parts

-- The parts of a phrase decide whether it is well formed, how it is spelled and what it means.
attribute [local simp] Phrase.WellFormed Phrase.render Phrase.meaning?

variable {env : Context} {k : Nat} {used : List Symbol} {e : Expr}

theorem Reads.mono {j : Nat} (h : Reads env k used e) (hj : j ≤ k) : Reads env j used e := by
  obtain ⟨p, hw, hk, hr, hm⟩ := h
  exact ⟨p, hw, Nat.le_trans hj hk, hr, hm⟩

theorem Reads.value {sym : Symbol} {v : Value} (h : opening sym = .value v) :
    Reads env 7 [sym] (.literal v) := by
  rcases opening_value h with hm | hm | ⟨w, hw, hv⟩
  · exact ⟨.number v, trivial, Nat.le_refl _, by rw [List.map_singleton, hm]; rfl, rfl⟩
  · exact ⟨.text v, trivial, Nat.le_refl _, by rw [List.map_singleton, hm]; rfl, rfl⟩
  · refine ⟨.word w, ?_, Nat.le_refl _, ?_, ?_⟩
    · simp [hv]
    · rw [List.map_singleton, mark_word hw]; rfl
    · simp [hv]

theorem Reads.variable {sym : Symbol} (h : sym.token = .name) (hr : env.readable sym.text = true) :
    Reads env 7 [sym] (.variable sym.text) := by
  refine ⟨.name sym.text, trivial, Nat.le_refl _, ?_, ?_⟩
  · rw [List.map_singleton, mark_name h]; rfl
  · rw [Phrase.meaning?, Context.name?, if_pos hr]

theorem Reads.binary {op : BinaryOperator} {done : List Symbol} {sym : Symbol} {l r : Expr}
    (hop : op ≠ .and) (hs : sym.token = .operator (.binary op)) (hl : Reads env (tightness op) done l)
    (hr : Reads env (tightness op + 1) used r) :
    Reads env (tightness op) (done ++ sym :: used) (.binary op l r) := by
  obtain ⟨p, hp, hpk, hpr, hpm⟩ := hl
  obtain ⟨q, hq, hqk, hqr, hqm⟩ := hr
  refine ⟨.binary op p q, ⟨hop, hp, hpk, hq, hqk⟩, Nat.le_refl _, ?_, ?_⟩
  · rw [List.map_append, List.map_cons, hpr, hqr, mark_operator hs]; rfl
  · rw [Phrase.meaning?, hpm, hqm]; rfl

theorem Reads.conjunction {rest : List Symbol} {es : List Expr} (hf : Reads env 2 used e)
    (hr : ReadsEach env 2 (.operator .and) rest es) : Reads env 1 (used ++ rest) (joined e es) := by
  obtain ⟨ps, hps, hpr, hpm⟩ := hr
  cases ps with
  | nil =>
    cases hpm
    have : rest = [] := by simpa [renderEach] using hpr
    rw [this, List.append_nil]
    exact hf.mono (by decide)
  | cons q qs =>
    obtain ⟨p, hp, hpk, hpr', hpm'⟩ := hf
    have hne : es.isEmpty = false := by
      rw [meanings?] at hpm
      obtain ⟨a, _, hpm⟩ := Option.bind_eq_some_iff.1 hpm
      obtain ⟨b, _, hpm⟩ := Option.bind_eq_some_iff.1 hpm
      cases hpm; rfl
    refine ⟨.conjunction p (q :: qs), ⟨hp, hpk, by simp, hps⟩, Nat.le_refl _, ?_, ?_⟩
    · rw [List.map_append, hpr', hpr]; rfl
    · rw [Phrase.meaning?, hpm', hpm, joined, hne]; rfl

theorem Reads.factorial {sym : Symbol} (hs : sym.token = .operator .factorial) (h : Reads env 6 used e) :
    Reads env 6 (used ++ [sym]) (.unary .factorial e) := by
  obtain ⟨p, hp, hpk, hpr, hpm⟩ := h
  refine ⟨.factorial p, ⟨hp, hpk⟩, Nat.le_refl _, ?_, ?_⟩
  · rw [List.map_append, List.map_singleton, hpr, mark_plain hs (by simp)]; rfl
  · rw [Phrase.meaning?, hpm]; rfl

theorem Reads.signed {sym : Symbol} {s : Sign} (hs : sym.token = s.token) (h : Reads env 7 used e) :
    Reads env 7 (sym :: used) (signed s.operator? e) := by
  obtain ⟨p, hp, hpk, hpr, hpm⟩ := h
  refine ⟨.signed s p, ⟨hp, hpk⟩, Nat.le_refl _, ?_, ?_⟩
  · rw [List.map_cons, hpr, mark_sign hs]; rfl
  · rw [Phrase.meaning?, hpm]; rfl

/-- What stands in parentheses. -/
theorem map_mark_parens {o c : Symbol} {ms : List Mark} (ho : o.token = .openParen)
    (hc : c.token = .closeParen) (h : used.map mark = ms) :
    (o :: used ++ [c]).map mark = .openParen :: ms ++ [Mark.closeParen] := by
  rw [List.map_append, List.map_cons, List.map_singleton, h, mark_plain ho (by simp),
    mark_plain hc (by simp)]
  rfl

theorem Reads.group {o c : Symbol} (ho : o.token = .openParen) (hc : c.token = .closeParen)
    (h : Reads env 0 used e) : Reads env 7 (o :: used ++ [c]) e := by
  obtain ⟨p, hp, _, hpr, hpm⟩ := h
  exact ⟨.group p, hp, Nat.le_refl _, map_mark_parens ho hc hpr, hpm⟩

theorem Reads.function {sym o c : Symbol} {w : Word} {op : UnaryOperator} (hs : sym.token = .word w)
    (hw : wordFunction? w = some op) (ho : o.token = .openParen) (hc : c.token = .closeParen)
    (h : Reads env 0 used e) : Reads env 7 (sym :: (o :: used ++ [c])) (.unary op e) := by
  obtain ⟨p, hp, _, hpr, hpm⟩ := h
  refine ⟨.function w p, ⟨by rw [hw]; rfl, hp⟩, Nat.le_refl _, ?_, ?_⟩
  · rw [List.map_cons, map_mark_parens ho hc hpr, mark_word hs]; rfl
  · rw [Phrase.meaning?, hw, hpm]; rfl

theorem Reads.choice {sym o c m₁ m₂ : Symbol} {u₁ u₂ u₃ : List Symbol} {e₁ e₂ e₃ : Expr}
    (hs : sym.token = .word .iif) (ho : o.token = .openParen) (hc : c.token = .closeParen)
    (hm₁ : m₁.token = .comma) (hm₂ : m₂.token = .comma) (h₁ : Reads env 0 u₁ e₁) (h₂ : Reads env 0 u₂ e₂)
    (h₃ : Reads env 0 u₃ e₃) :
    Reads env 7 (sym :: o :: u₁ ++ m₁ :: u₂ ++ m₂ :: u₃ ++ [c]) (.choice e₁ e₂ e₃) := by
  obtain ⟨p, hp, _, hpr, hpm⟩ := h₁
  obtain ⟨q, hq, _, hqr, hqm⟩ := h₂
  obtain ⟨x, hx, _, hxr, hxm⟩ := h₃
  refine ⟨.choice p q x, ⟨hp, hq, hx⟩, Nat.le_refl _, ?_, ?_⟩
  · simp only [List.map_append, List.map_cons, List.map_nil, hpr, hqr, hxr, mark_word hs,
      mark_plain ho (by simp), mark_plain hc (by simp), mark_plain hm₁ (by simp), mark_plain hm₂ (by simp)]
    rfl
  · rw [Phrase.meaning?, hpm, hqm, hxm]; rfl

theorem Reads.call {sym : Symbol} {r : Routine} {es : List Expr} (hs : sym.token = .name)
    (hn : env.readable sym.text = false) (hf : env.function? sym.text = some r)
    (hl : es.length = r.parameters.length) (h : ReadsArguments env used es) :
    Reads env 7 (sym :: used) (.call r es) := by
  rcases h with ⟨rfl, rfl⟩ | ⟨o, inner, c, rfl, ho, hc, ps, hps, hpr, hpm⟩
  · refine ⟨.name sym.text, trivial, Nat.le_refl _, ?_, ?_⟩
    · rw [List.map_singleton, mark_name hs]; rfl
    · rw [Phrase.meaning?, Context.name?, hn, hf]
      exact if_pos hl
  · refine ⟨.apply sym.text ps, hps, Nat.le_refl _, ?_, ?_⟩
    · rw [List.map_cons, map_mark_parens ho hc hpr, mark_name hs]; rfl
    · rw [Phrase.meaning?, hf, hpm]
      exact if_pos hl

theorem Reads.dialog {sym : Symbol} {d : Dialog} {slots : List Slot} (hs : sym.token = .word (dialogWord d))
    (h : ReadsDialog env d used slots) : Reads env 7 (sym :: used) (.dialog d slots) := by
  obtain ⟨o, inner, c, rfl, ho, hc, gaps, hd, hne, hw, hr, hm⟩ := h
  refine ⟨.dialog d gaps, ⟨hd, hne, hw⟩, Nat.le_refl _, ?_, ?_⟩
  · rw [List.map_cons, map_mark_parens ho hc hr, mark_word hs]; rfl
  · rw [Phrase.meaning?, hm]; rfl

end Parts

/-! ## Operators and functions that are found -/

theorem Level.operator?_eq_some {l : Level} {sym : Symbol} {op : BinaryOperator} (h : l.operator? sym = some op) :
    sym.token = .operator (.binary op) ∧ Grammar.tightness op = l.tightness := by
  unfold Level.operator? at h
  split at h
  · rename_i op' ht
    split at h
    · rename_i ha
      cases h
      refine ⟨ht, ?_⟩
      cases l <;> cases op <;> first | rfl | cases ha
    · cases h
  · cases h

theorem Level.tightness_tighter {l m : Level} (h : l.tighter? = some m) : m.tightness = l.tightness + 1 := by
  cases l <;> cases h <;> rfl

theorem Level.tightness_tightest {l : Level} (h : l.tighter? = none) : l.tightness = 5 := by
  cases l <;> first | rfl | cases h

/-- A called name of the kind of a function stands for the function that is called. -/
theorem routineOf_function {env : Context} {name : Symbol} {r : Routine} (h : routineOf env name = .ok r)
    (hk : (env.names.get? name.text).map Binding.kind = some .function) :
    env.function? name.text = some r ∧ env.readable name.text = false := by
  unfold routineOf at h
  unfold Context.function? Context.readable
  cases hb : env.names.get? name.text with
  | none => rw [hb] at hk; cases hk
  | some b =>
    rw [hb] at h hk
    have hkind : b.kind = .function := by simpa using hk
    simp only [Option.map_some, hkind, if_true, and_true]
    simp only [Binding.isRoutine, hkind, beq_self_eq_true, Bool.true_or, if_true] at h
    cases ha : b.address with
    | none => rw [ha] at h; cases h
    | some entry => rw [ha] at h; cases h; rfl

/-! ## The parser

Every part of the parser either passes a symbol before it calls itself or goes on to a tighter level, so
what is known of all parts on fewer symbols gives the same for the given ones, from the tightest level up.
-/

/-- All parts of the parser read what they should when fewer than `n` symbols are left. -/
structure ReadsBelow (env : Context) (n : Nat) : Prop where
  expression : ∀ s, s.length < n → Passes (Reads env 0) (Parsed.plain (expression env s)) s
  alternatives : ∀ s done left, s.length < n → Reads env 0 done left →
    Passes (fun used => Reads env 0 (done ++ used)) (Passed.plain (alternatives env left s)) s
  conjunction : ∀ s, s.length < n → Passes (Reads env 1) (Parsed.plain (conjunction env s)) s
  conjuncts : ∀ s, s.length < n →
    Passes (ReadsEach env 2 (.operator .and)) (Passed.plain (conjuncts env s)) s
  chain : ∀ l s, s.length < n → Passes (Reads env l.tightness) (Parsed.plain (chain env l s)) s
  chainOperand : ∀ l s, s.length < n →
    Passes (Reads env (l.tightness + 1)) (Parsed.plain (chainOperand env l s)) s
  chainRest : ∀ l s done left, s.length < n → Reads env l.tightness done left →
    Passes (fun used => Reads env l.tightness (done ++ used)) (Passed.plain (chainRest env l left s)) s
  operand : ∀ s, s.length < n → Passes (Reads env 7) (Parsed.plain (operand env s)) s
  arguments : ∀ s, s.length < n →
    Passes (fun used es => es ≠ [] ∧ ReadsList env used es) (Parsed.plain (arguments env s)) s
  moreArguments : ∀ s, s.length < n →
    Passes (ReadsEach env 0 .comma) (Passed.plain (moreArguments env s)) s
  callArguments : ∀ s, s.length < n →
    Passes (ReadsArguments env) (Passed.plain (callArguments env true s)) s
  dialogSlots : ∀ d s, s.length < n →
    Passes (ReadsDialog env d) (Passed.plain (dialogSlots env d false s)) s
  slots : ∀ d count s, s.length < n → count ≤ d.most →
    Passes (ReadsGaps env d count) (Passed.plain (slots env d count s)) s
  moreSlots : ∀ d count s, s.length < n → count ≤ d.most →
    Passes (ReadsMoreGaps env d count) (Passed.plain (moreSlots env d count s)) s

theorem factorials_passes {env : Context} (s done : List Symbol) (left : Expr) (hd : Reads env 6 done left) :
    Passes (fun used => Reads env 6 (done ++ used)) (Passed.plain (factorials env left s)) s := by
  intro e r h
  induction s generalizing done left with
  | nil =>
    rw [plain_factorials_nil] at h
    cases h
    exact ⟨[], rfl, by simpa using hd⟩
  | cons sym rest ih =>
    rw [plain_factorials_cons] at h
    split at h
    · rename_i hf
      obtain ⟨_, _, h⟩ := bind_eq_ok.1 h
      obtain ⟨u, hr, hu⟩ := ih (done ++ [sym]) _ (Reads.factorial hf hd) h
      exact ⟨sym :: u, by rw [hr]; rfl, by simpa using hu⟩
    · cases h
      exact ⟨[], rfl, by simpa using hd⟩

section Step

variable {env : Context} {n : Nat} (ih : ReadsBelow env n)

include ih

theorem operand_passes (s : List Symbol) (hs : s.length ≤ n) :
    Passes (Reads env 7) (Parsed.plain (operand env s)) s := by
  intro e r h
  cases s with
  | nil => rw [operand] at h; cases h
  | cons sym rest =>
    rw [List.length_cons] at hs
    -- the first symbol decides what the parser reads, and each kind of operand has its phrase
    cases ho : opening sym with
    | value v =>
      rw [plain_operand_value env ho] at h
      obtain ⟨_, _, h⟩ := bind_eq_ok.1 h
      cases h
      exact ⟨[sym], rfl, Reads.value ho⟩
    | sign op =>
      rw [plain_operand_sign env ho] at h
      obtain ⟨_, _, h⟩ := bind_eq_ok.1 h
      obtain ⟨⟨e₁, r₁⟩, h₁, h⟩ := bind_eq_ok.1 h
      cases h
      obtain ⟨sg, hsg, rfl⟩ := opening_sign ho
      obtain ⟨u, hr, hu⟩ := ih.operand rest hs _ _ h₁
      exact ⟨sym :: u, by rw [hr]; rfl, Reads.signed hsg hu⟩
    | function name op =>
      rw [plain_operand_function env ho] at h
      obtain ⟨_, _, h⟩ := bind_eq_ok.1 h
      obtain ⟨⟨o, r₁⟩, h₁, h⟩ := bind_eq_ok.1 h
      obtain ⟨⟨e₁, r₂⟩, h₂, h⟩ := bind_eq_ok.1 h
      obtain ⟨⟨c, r₃⟩, h₃, h⟩ := bind_eq_ok.1 h
      cases h
      have l₁ := (Parsed.of_plain_ok h₁).1
      obtain ⟨w, hw, hop⟩ := opening_function ho
      obtain ⟨hr₁, hot, _⟩ := require_ok h₁
      obtain ⟨hr₃, hct, _⟩ := require_ok h₃
      obtain ⟨u, hr₂, hu⟩ := ih.expression r₁ (by omega) _ _ h₂
      exact ⟨sym :: (o :: u ++ [c]), by rw [hr₁, hr₂, hr₃]; simp, Reads.function hw hop hot hct hu⟩
    | choice =>
      rw [plain_operand_choice env ho] at h
      obtain ⟨_, _, h⟩ := bind_eq_ok.1 h
      obtain ⟨⟨o, r₁⟩, h₁, h⟩ := bind_eq_ok.1 h
      obtain ⟨⟨e₁, r₂⟩, h₂, h⟩ := bind_eq_ok.1 h
      obtain ⟨⟨m₁, r₃⟩, h₃, h⟩ := bind_eq_ok.1 h
      obtain ⟨⟨e₂, r₄⟩, h₄, h⟩ := bind_eq_ok.1 h
      obtain ⟨⟨m₂, r₅⟩, h₅, h⟩ := bind_eq_ok.1 h
      obtain ⟨⟨e₃, r₆⟩, h₆, h⟩ := bind_eq_ok.1 h
      obtain ⟨⟨c, r₇⟩, h₇, h⟩ := bind_eq_ok.1 h
      cases h
      have l₁ := (Parsed.of_plain_ok h₁).1
      have l₂ := (Parsed.of_plain_ok h₂).1
      have l₃ := (Parsed.of_plain_ok h₃).1
      have l₄ := (Parsed.of_plain_ok h₄).1
      have l₅ := (Parsed.of_plain_ok h₅).1
      obtain ⟨hr₁, hot, _⟩ := require_ok h₁
      obtain ⟨hr₃, hm₁, _⟩ := require_ok h₃
      obtain ⟨hr₅, hm₂, _⟩ := require_ok h₅
      obtain ⟨hr₇, hct, _⟩ := require_ok h₇
      obtain ⟨u₁, hr₂, hu₁⟩ := ih.expression r₁ (by omega) _ _ h₂
      obtain ⟨u₂, hr₄, hu₂⟩ := ih.expression r₃ (by omega) _ _ h₄
      obtain ⟨u₃, hr₆, hu₃⟩ := ih.expression r₅ (by omega) _ _ h₆
      refine ⟨sym :: o :: u₁ ++ m₁ :: u₂ ++ m₂ :: u₃ ++ [c], ?_,
        Reads.choice (opening_choice ho) hot hct hm₁ hm₂ hu₁ hu₂ hu₃⟩
      rw [hr₁, hr₂, hr₃, hr₄, hr₅, hr₆, hr₇]; simp
    | dialog d =>
      rw [plain_operand_dialog env ho] at h
      obtain ⟨_, _, h⟩ := bind_eq_ok.1 h
      obtain ⟨⟨slots, r₁⟩, h₁, h⟩ := bind_eq_ok.1 h
      cases h
      obtain ⟨u, hr, hu⟩ := ih.dialogSlots d rest hs _ _ h₁
      exact ⟨sym :: u, by rw [hr]; rfl, Reads.dialog (opening_dialog ho) hu⟩
    | group =>
      rw [plain_operand_group env ho] at h
      obtain ⟨_, _, h⟩ := bind_eq_ok.1 h
      obtain ⟨⟨e₁, r₁⟩, h₁, h⟩ := bind_eq_ok.1 h
      obtain ⟨⟨c, r₂⟩, h₂, h⟩ := bind_eq_ok.1 h
      cases h
      obtain ⟨rfl, hct, _⟩ := require_ok h₂
      obtain ⟨u, hr, hu⟩ := ih.expression rest hs _ _ h₁
      exact ⟨sym :: u ++ [c], by rw [hr]; simp, Reads.group (opening_group ho) hct hu⟩
    | name =>
      have hn := opening_name ho
      -- a name is a call or a variable
      rcases operand_name_ok env ho h with hk | hk
      · rw [plain_operand_function_name env ho hk] at h
        obtain ⟨_, _, h⟩ := bind_eq_ok.1 h
        obtain ⟨⟨⟨routine, es⟩, r₁⟩, h₁, h⟩ := bind_eq_ok.1 h
        cases h
        obtain ⟨hro, h₂, hl⟩ := call_ok h₁
        obtain ⟨hf, hread⟩ := routineOf_function hro hk
        obtain ⟨u, hr, hu⟩ := ih.callArguments rest hs _ _ h₂
        exact ⟨sym :: u, by rw [hr]; rfl, Reads.call hn hread hf hl hu⟩
      · rw [plain_operand_readable env ho hk] at h
        obtain ⟨_, _, h⟩ := bind_eq_ok.1 h
        cases h
        exact ⟨[sym], rfl, Reads.variable hn hk⟩
    | none => rw [operand, ho] at h; cases h

theorem factorial_passes (s : List Symbol) (hs : s.length ≤ n) :
    Passes (Reads env 6) (Parsed.plain (factorial env s)) s := by
  intro e r h
  rw [plain_factorial] at h
  obtain ⟨⟨first, r₁⟩, h₁, h₂⟩ := bind_eq_ok.1 h
  obtain ⟨u₁, hs₁, hu₁⟩ := operand_passes ih s hs _ _ h₁
  obtain ⟨u₂, hr, hu₂⟩ := factorials_passes r₁ u₁ first (hu₁.mono (by decide)) _ _ h₂
  exact ⟨u₁ ++ u₂, by rw [hs₁, hr, List.append_assoc], hu₂⟩

theorem chainRest_passes (l : Level) (s done : List Symbol) (left : Expr) (hs : s.length ≤ n)
    (hd : Reads env l.tightness done left) :
    Passes (fun used => Reads env l.tightness (done ++ used)) (Passed.plain (chainRest env l left s)) s := by
  intro e r h
  cases s with
  | nil =>
    rw [plain_chainRest_nil] at h
    cases h
    exact ⟨[], rfl, by simpa using hd⟩
  | cons sym rest =>
    rw [List.length_cons] at hs
    rw [plain_chainRest_cons] at h
    split at h
    · rename_i op hop
      obtain ⟨ht, hl⟩ := Level.operator?_eq_some hop
      obtain ⟨_, _, h⟩ := bind_eq_ok.1 h
      obtain ⟨⟨right, r₁⟩, h₁, h₂⟩ := bind_eq_ok.1 h
      have hlt := (Parsed.of_plain_ok h₁).1
      obtain ⟨u₁, hs₁, hu₁⟩ := ih.chainOperand l rest hs _ _ h₁
      have hand : op ≠ .and := by rintro rfl; cases l <;> cases hl
      have hb : Reads env l.tightness (done ++ sym :: u₁) (.binary op left right) := by
        rw [← hl] at hd hu₁ ⊢
        exact Reads.binary hand ht hd hu₁
      obtain ⟨u₂, hr, hu₂⟩ := ih.chainRest l r₁ _ _ (by omega) hb _ _ h₂
      exact ⟨sym :: u₁ ++ u₂, by rw [hs₁, hr]; simp, by simpa using hu₂⟩
    · cases h
      exact ⟨[], rfl, by simpa using hd⟩

/-- What is read at a level, once it is known what its operands are. -/
theorem chain_passes_of {l : Level} (s : List Symbol) (hs : s.length ≤ n)
    (ho : Passes (Reads env (l.tightness + 1)) (Parsed.plain (chainOperand env l s)) s) :
    Passes (Reads env l.tightness) (Parsed.plain (chain env l s)) s := by
  intro e r h
  rw [plain_chain] at h
  obtain ⟨⟨first, r₁⟩, h₁, h₂⟩ := bind_eq_ok.1 h
  have hlt := (Parsed.of_plain_ok h₁).1
  obtain ⟨u₁, hs₁, hu₁⟩ := ho _ _ h₁
  obtain ⟨u₂, hr, hu₂⟩ := chainRest_passes ih l r₁ u₁ first (by omega) (hu₁.mono (Nat.le_succ _)) _ _ h₂
  exact ⟨u₁ ++ u₂, by rw [hs₁, hr, List.append_assoc], hu₂⟩

theorem chainOperand_passes (l : Level) (s : List Symbol) (hs : s.length ≤ n) :
    Passes (Reads env (l.tightness + 1)) (Parsed.plain (chainOperand env l s)) s := by
  cases ht : l.tighter? with
  | some m =>
    rw [chainOperand_of_some env ht, ← Level.tightness_tighter ht]
    exact chain_passes_of ih s hs (chainOperand_passes m s hs)
  | none =>
    rw [chainOperand_of_none env ht, Level.tightness_tightest ht]
    exact factorial_passes ih s hs
termination_by l.rank
decreasing_by exact Nat.lt_of_succ_lt (Level.rank_tighter ht)

theorem chain_passes (l : Level) (s : List Symbol) (hs : s.length ≤ n) :
    Passes (Reads env l.tightness) (Parsed.plain (chain env l s)) s :=
  chain_passes_of ih s hs (chainOperand_passes ih l s hs)

theorem conjuncts_passes (s : List Symbol) (hs : s.length ≤ n) :
    Passes (ReadsEach env 2 (.operator .and)) (Passed.plain (conjuncts env s)) s := by
  intro es r h
  cases s with
  | nil =>
    rw [plain_conjuncts_nil] at h
    cases h
    exact ⟨[], rfl, [], trivial, rfl, rfl⟩
  | cons sym rest =>
    rw [List.length_cons] at hs
    rw [plain_conjuncts_cons] at h
    split at h
    · rename_i hand
      obtain ⟨_, _, h⟩ := bind_eq_ok.1 h
      obtain ⟨⟨e, r₁⟩, h₁, h⟩ := bind_eq_ok.1 h
      obtain ⟨⟨more, r₂⟩, h₂, h⟩ := bind_eq_ok.1 h
      cases h
      have hlt := (Parsed.of_plain_ok h₁).1
      obtain ⟨u₁, hs₁, p, hp, hpk, hpr, hpm⟩ := ih.chain .relation rest hs _ _ h₁
      obtain ⟨u₂, hr, ps, hps, hpsr, hpsm⟩ := ih.conjuncts r₁ (by omega) _ _ h₂
      refine ⟨sym :: u₁ ++ u₂, by rw [hs₁, hr]; simp, p :: ps, ⟨hp, hpk, hps⟩, ?_, ?_⟩
      · rw [List.map_append, List.map_cons, hpr, hpsr, mark_operator hand]; rfl
      · rw [meanings?, hpm, hpsm]; rfl
    · cases h
      exact ⟨[], rfl, [], trivial, rfl, rfl⟩

theorem conjunction_passes (s : List Symbol) (hs : s.length ≤ n) :
    Passes (Reads env 1) (Parsed.plain (conjunction env s)) s := by
  intro e r h
  rw [plain_conjunction] at h
  obtain ⟨⟨first, r₁⟩, h₁, h⟩ := bind_eq_ok.1 h
  obtain ⟨⟨more, r₂⟩, h₂, h⟩ := bind_eq_ok.1 h
  cases h
  have hlt := (Parsed.of_plain_ok h₁).1
  obtain ⟨u₁, hs₁, hu₁⟩ := chain_passes ih .relation s hs _ _ h₁
  obtain ⟨u₂, hr, hu₂⟩ := conjuncts_passes ih r₁ (by omega) _ _ h₂
  exact ⟨u₁ ++ u₂, by rw [hs₁, hr, List.append_assoc], Reads.conjunction hu₁ hu₂⟩

theorem alternatives_passes (s done : List Symbol) (left : Expr) (hs : s.length ≤ n)
    (hd : Reads env 0 done left) :
    Passes (fun used => Reads env 0 (done ++ used)) (Passed.plain (alternatives env left s)) s := by
  intro e r h
  cases s with
  | nil =>
    rw [plain_alternatives_nil] at h
    cases h
    exact ⟨[], rfl, by simpa using hd⟩
  | cons sym rest =>
    rw [List.length_cons] at hs
    rw [plain_alternatives_cons] at h
    split at h
    · rename_i hor
      obtain ⟨_, _, h⟩ := bind_eq_ok.1 h
      obtain ⟨⟨right, r₁⟩, h₁, h₂⟩ := bind_eq_ok.1 h
      have hlt := (Parsed.of_plain_ok h₁).1
      obtain ⟨u₁, hs₁, hu₁⟩ := ih.conjunction rest hs _ _ h₁
      obtain ⟨u₂, hr, hu₂⟩ :=
        ih.alternatives r₁ _ _ (by omega) (Reads.binary (by decide) hor hd hu₁) _ _ h₂
      exact ⟨sym :: u₁ ++ u₂, by rw [hs₁, hr]; simp, by simpa using hu₂⟩
    · cases h
      exact ⟨[], rfl, by simpa using hd⟩

theorem expression_passes (s : List Symbol) (hs : s.length ≤ n) :
    Passes (Reads env 0) (Parsed.plain (expression env s)) s := by
  intro e r h
  rw [plain_expression] at h
  obtain ⟨⟨first, r₁⟩, h₁, h₂⟩ := bind_eq_ok.1 h
  have hlt := (Parsed.of_plain_ok h₁).1
  obtain ⟨u₁, hs₁, hu₁⟩ := conjunction_passes ih s hs _ _ h₁
  obtain ⟨u₂, hr, hu₂⟩ := alternatives_passes ih r₁ u₁ first (by omega) (hu₁.mono (Nat.zero_le 1)) _ _ h₂
  exact ⟨u₁ ++ u₂, by rw [hs₁, hr, List.append_assoc], hu₂⟩

theorem moreArguments_passes (s : List Symbol) (hs : s.length ≤ n) :
    Passes (ReadsEach env 0 .comma) (Passed.plain (moreArguments env s)) s := by
  intro es r h
  cases s with
  | nil =>
    rw [plain_moreArguments_nil] at h
    cases h
    exact ⟨[], rfl, [], trivial, rfl, rfl⟩
  | cons sym rest =>
    rw [plain_moreArguments_cons] at h
    split at h
    · rename_i hc
      obtain ⟨_, _, h⟩ := bind_eq_ok.1 h
      obtain ⟨u, hr, hne, ps, hps, hpr, hpm⟩ := ih.arguments rest hs _ _ h
      cases ps with
      | nil => cases hpm; exact absurd rfl hne
      | cons p ps =>
        refine ⟨sym :: u, by rw [hr]; rfl, p :: ps, hps, ?_, hpm⟩
        rw [List.map_cons, hpr, mark_plain hc (by simp)]; rfl
    · cases h
      exact ⟨[], rfl, [], trivial, rfl, rfl⟩

theorem arguments_passes (s : List Symbol) (hs : s.length ≤ n) :
    Passes (fun used es => es ≠ [] ∧ ReadsList env used es) (Parsed.plain (arguments env s)) s := by
  intro es r h
  rw [plain_arguments] at h
  obtain ⟨⟨e, r₁⟩, h₁, h⟩ := bind_eq_ok.1 h
  obtain ⟨⟨more, r₂⟩, h₂, h⟩ := bind_eq_ok.1 h
  cases h
  have hlt := (Parsed.of_plain_ok h₁).1
  obtain ⟨u₁, hs₁, p, hp, hpk, hpr, hpm⟩ := expression_passes ih s hs _ _ h₁
  obtain ⟨u₂, hr, ps, hps, hpsr, hpsm⟩ := moreArguments_passes ih r₁ (by omega) _ _ h₂
  refine ⟨u₁ ++ u₂, by rw [hs₁, hr, List.append_assoc], by simp, p :: ps, ⟨hp, hpk, hps⟩, ?_, ?_⟩
  · rw [List.map_append, hpr, hpsr]; rfl
  · rw [meanings?, hpm, hpsm]; rfl

theorem callArguments_passes (s : List Symbol) (hs : s.length ≤ n) :
    Passes (ReadsArguments env) (Passed.plain (callArguments env true s)) s := by
  intro es r h
  cases s with
  | nil =>
    rw [plain_callArguments_nil] at h
    cases h
    exact ⟨[], rfl, .inl ⟨rfl, rfl⟩⟩
  | cons sym rest =>
    rw [plain_callArguments_cons] at h
    split at h
    · rename_i ho
      obtain ⟨_, _, h⟩ := bind_eq_ok.1 h
      split at h
      · obtain ⟨⟨c, r₁⟩, h₁, h⟩ := bind_eq_ok.1 h
        cases h
        obtain ⟨rfl, hct, _⟩ := require_ok h₁
        exact ⟨[sym, c], rfl, .inr ⟨sym, [], c, rfl, ho, hct, [], trivial, rfl, rfl⟩⟩
      · obtain ⟨⟨found, r₁⟩, h₁, h⟩ := bind_eq_ok.1 h
        obtain ⟨⟨c, r₂⟩, h₂, h⟩ := bind_eq_ok.1 h
        cases h
        obtain ⟨rfl, hct, _⟩ := require_ok h₂
        obtain ⟨u, hr, _, hu⟩ := ih.arguments rest hs _ _ h₁
        exact ⟨sym :: u ++ [c], by rw [hr]; simp, .inr ⟨sym, u, c, rfl, ho, hct, hu⟩⟩
    · split at h
      · rename_i hb
        cases hb
      · cases h
        exact ⟨[], rfl, .inl ⟨rfl, rfl⟩⟩

theorem moreSlots_passes (d : Dialog) (count : Nat) (s : List Symbol) (hs : s.length ≤ n)
    (hc : count ≤ d.most) : Passes (ReadsMoreGaps env d count) (Passed.plain (moreSlots env d count s)) s := by
  intro found r h
  cases s with
  | nil =>
    rw [plain_moreSlots_nil] at h
    cases h
    exact ⟨[], rfl, [], hc, trivial, rfl, rfl⟩
  | cons sym rest =>
    rw [plain_moreSlots_cons] at h
    split at h
    · rename_i hcomma
      obtain ⟨_, _, h⟩ := bind_eq_ok.1 h
      obtain ⟨u, hr, g, gaps, hl, hw, hm, hg⟩ := ih.slots d count rest hs hc _ _ h
      refine ⟨sym :: u, by rw [hr]; rfl, g :: gaps, by rw [List.length_cons]; omega, hw, ?_, hg⟩
      rw [List.map_cons, hm, mark_plain hcomma (by simp)]; rfl
    · cases h
      exact ⟨[], rfl, [], hc, trivial, rfl, rfl⟩

theorem slots_passes (d : Dialog) (count : Nat) (s : List Symbol) (hs : s.length ≤ n)
    (hc : count ≤ d.most) : Passes (ReadsGaps env d count) (Passed.plain (slots env d count s)) s := by
  intro found r h
  rw [plain_slots] at h
  split at h
  · cases h
  · rename_i hne
    split at h
    · obtain ⟨⟨e, r₁⟩, h₁, h⟩ := bind_eq_ok.1 h
      obtain ⟨⟨more, r₂⟩, h₂, h⟩ := bind_eq_ok.1 h
      cases h
      have hlt := (Parsed.of_plain_ok h₁).1
      obtain ⟨u₁, hs₁, p, hp, _, hpr, hpm⟩ := expression_passes ih s hs _ _ h₁
      obtain ⟨u₂, hr, gaps, hl, hw, hm, hg⟩ :=
        moreSlots_passes ih d (count + 1) r₁ (by omega) (by omega) _ _ h₂
      refine ⟨u₁ ++ u₂, by rw [hs₁, hr, List.append_assoc], .given p, gaps, by omega, ⟨hp, hw⟩, ?_, ?_⟩
      · rw [List.map_append, hpr, hm]; rfl
      · rw [slotsOf?, Gap.slot?, hpm, hg]; rfl
    · obtain ⟨⟨more, r₁⟩, h₁, h⟩ := bind_eq_ok.1 h
      cases h
      obtain ⟨u, hr, gaps, hl, hw, hm, hg⟩ := moreSlots_passes ih d (count + 1) s hs (by omega) _ _ h₁
      exact ⟨u, hr, .omitted, gaps, by omega, ⟨trivial, hw⟩, hm, by rw [slotsOf?, Gap.slot?, hg]; rfl⟩

theorem dialogSlots_passes (d : Dialog) (s : List Symbol) (hs : s.length ≤ n) :
    Passes (ReadsDialog env d) (Passed.plain (dialogSlots env d false s)) s := by
  intro found r h
  cases s with
  | nil => rw [dialogSlots] at h; cases h
  | cons sym rest =>
    rw [plain_dialogSlots_cons] at h
    split at h
    · rename_i ho
      obtain ⟨_, _, h⟩ := bind_eq_ok.1 h
      split at h
      · obtain ⟨⟨c, r₁⟩, h₁, h⟩ := bind_eq_ok.1 h
        cases h
        obtain ⟨rfl, hct, _⟩ := require_ok h₁
        exact ⟨[sym, c], rfl, sym, [], c, rfl, ho, hct, [], Nat.zero_le _, by simp, trivial, rfl, rfl⟩
      · rename_i hclose
        obtain ⟨⟨found', r₁⟩, h₁, h⟩ := bind_eq_ok.1 h
        obtain ⟨⟨c, r₂⟩, h₂, h⟩ := bind_eq_ok.1 h
        cases h
        obtain ⟨rfl, hct, _⟩ := require_ok h₂
        obtain ⟨u, hr, g, gaps, hl, hw, hm, hg⟩ := ih.slots d 0 rest hs (Nat.zero_le _) _ _ h₁
        refine ⟨sym :: u ++ [c], by rw [hr]; simp, sym, u, c, rfl, ho, hct, g :: gaps,
          by rw [List.length_cons]; omega, ?_, hw, hm, hg⟩
        -- a lone omitted parameter would leave the closing parenthesis right behind the opening one
        intro hlone
        rw [hlone] at hm
        have hu : u = [] := by simpa [renderGaps, renderMoreGaps, Gap.render] using hm
        rw [hr, hu] at hclose
        exact hclose hct
    · cases h

end Step

theorem readsBelow (env : Context) (n : Nat) : ReadsBelow env n := by
  induction n with
  | zero => constructor <;> intros <;> omega
  | succ n ih =>
    exact {
      expression := fun s hs => expression_passes ih s (Nat.le_of_lt_succ hs)
      alternatives := fun s done left hs => alternatives_passes ih s done left (Nat.le_of_lt_succ hs)
      conjunction := fun s hs => conjunction_passes ih s (Nat.le_of_lt_succ hs)
      conjuncts := fun s hs => conjuncts_passes ih s (Nat.le_of_lt_succ hs)
      chain := fun l s hs => chain_passes ih l s (Nat.le_of_lt_succ hs)
      chainOperand := fun l s hs => chainOperand_passes ih l s (Nat.le_of_lt_succ hs)
      chainRest := fun l s done left hs => chainRest_passes ih l s done left (Nat.le_of_lt_succ hs)
      operand := fun s hs => operand_passes ih s (Nat.le_of_lt_succ hs)
      arguments := fun s hs => arguments_passes ih s (Nat.le_of_lt_succ hs)
      moreArguments := fun s hs => moreArguments_passes ih s (Nat.le_of_lt_succ hs)
      callArguments := fun s hs => callArguments_passes ih s (Nat.le_of_lt_succ hs)
      dialogSlots := fun d s hs => dialogSlots_passes ih d s (Nat.le_of_lt_succ hs)
      slots := fun d count s hs => slots_passes ih d count s (Nat.le_of_lt_succ hs)
      moreSlots := fun d count s hs => moreSlots_passes ih d count s (Nat.le_of_lt_succ hs) }

/-- An expression that was parsed has been read off a phrase. -/
theorem expression_reads {env : Context} {s r : List Symbol} {e : Expr}
    (h : Parsed.plain (expression env s) = .ok (e, r)) : ∃ used, s = used ++ r ∧ Reads env 0 used e :=
  (readsBelow env (s.length + 1)).expression s (Nat.lt_succ_self _) e r h

end MacroBasic.Grammar
