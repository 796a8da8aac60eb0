/-
Statements without a block in them stay between two delimiters. Whatever an expression, a declaration, an assignment
or a call takes from the text, no line break and no colon is among it.
-/
import MacroBasic.Grammar.Statement
import MacroBasic.Proofs.Grammar.LikeScripts
import MacroBasic.Proofs.Grammar.Soundness

namespace MacroBasic.Grammar

/-! ## Phrases -/

mutual

theorem Phrase.inline : (p : Phrase) → .plain .delimiter ∉ p.render
  | .number _ | .text _ | .word _ | .name _ => by simp [Phrase.render, Mark.word]
  | .apply _ arguments => by
    simp [Phrase.render, Mark.openParen, Mark.closeParen, inline_list arguments]
  | .group e => by simp [Phrase.render, Mark.openParen, Mark.closeParen, e.inline]
  | .signed s e => by cases s <;> simp [Phrase.render, Sign.token, e.inline]
  | .factorial e => by simp [Phrase.render, Mark.factorial, e.inline]
  | .binary _ l r => by simp [Phrase.render, Mark.operator, l.inline, r.inline]
  | .conjunction first rest => by
    simp [Phrase.render, first.inline, inline_each rest (by simp [Mark.operator] : _ ≠ Mark.operator .and)]
  | .function _ e => by simp [Phrase.render, Mark.word, Mark.openParen, Mark.closeParen, e.inline]
  | .choice c x y => by
    simp [Phrase.render, Mark.word, Mark.openParen, Mark.closeParen, Mark.comma, c.inline, x.inline, y.inline]
  | .dialog _ gaps => by
    simp [Phrase.render, Mark.word, Mark.openParen, Mark.closeParen, inline_gaps gaps]

theorem inline_list : (ps : List Phrase) → .plain .delimiter ∉ renderList ps
  | [] => by simp [renderList]
  | p :: ps => by simp [renderList, p.inline, inline_each ps (by simp [Mark.comma] : _ ≠ Mark.comma)]

theorem inline_each : (ps : List Phrase) → ∀ {m : Mark}, .plain .delimiter ≠ m → .plain .delimiter ∉ renderEach m ps
  | [], _, _ => by simp [renderEach]
  | p :: ps, _, hm => by simp [renderEach, hm, p.inline, inline_each ps hm]

theorem inline_gaps : (gaps : List Gap) → .plain .delimiter ∉ renderGaps gaps
  | [] => by simp [renderGaps]
  | g :: gaps => by simp [renderGaps, g.inline, inline_moreGaps gaps]

theorem inline_moreGaps : (gaps : List Gap) → .plain .delimiter ∉ renderMoreGaps gaps
  | [] => by simp [renderMoreGaps]
  | g :: gaps => by simp [renderMoreGaps, Mark.comma, g.inline, inline_moreGaps gaps]

theorem Gap.inline : (g : Gap) → .plain .delimiter ∉ g.render
  | .omitted => by simp [Gap.render]
  | .given e => by simp [Gap.render, e.inline]

end

/-! ## Symbols in front of the next delimiter -/

/-- What is left of symbols when some without a delimiter have been passed. -/
def Inline (s r : List Symbol) : Prop := ∃ used, s = used ++ r ∧ ∀ sym ∈ used, sym.token ≠ .delimiter

namespace Inline

variable {s r t : List Symbol} {sym : Symbol}

theorem refl (s : List Symbol) : Inline s s := ⟨[], rfl, nofun⟩

theorem trans (h : Inline s r) (h' : Inline r t) : Inline s t := by
  obtain ⟨used, rfl, hused⟩ := h
  obtain ⟨more, rfl, hmore⟩ := h'
  exact ⟨used ++ more, (List.append_assoc ..).symm, List.forall_mem_append.2 ⟨hused, hmore⟩⟩

theorem one (h : sym.token ≠ .delimiter) (s : List Symbol) : Inline (sym :: s) s :=
  ⟨[sym], rfl, List.forall_mem_singleton.2 h⟩

theorem cons (h : sym.token ≠ .delimiter) (hs : Inline s r) : Inline (sym :: s) r := (one h s).trans hs

theorem of_token {k : Token} (h : sym.token = k) (s : List Symbol) (hk : k ≠ .delimiter := by decide) :
    Inline (sym :: s) s := one (h ▸ hk) s

theorem of_marks {used : List Symbol} {ms : List Mark} (h : used.map mark = ms) (hms : .plain .delimiter ∉ ms)
    (rest : List Symbol) : Inline (used ++ rest) rest :=
  ⟨used, rfl, fun sym hsym hd => hms (h ▸ List.mem_map.2 ⟨sym, hsym, mark_plain hd (by decide)⟩)⟩

/-- What is left in front of a delimiter still has that delimiter in it. -/
theorem front {line rest : List Symbol} {d : Symbol} (h : Inline (line ++ d :: rest) r) (hd : d.token = .delimiter)
    (hline : ∀ sym ∈ line, sym.token ≠ .delimiter) : ∃ more, more <:+ line ∧ r = more ++ d :: rest := by
  obtain ⟨used, hs, hused⟩ := h
  rcases List.append_eq_append_iff.1 hs with ⟨more, rfl, hr⟩ | ⟨more, rfl, hr⟩
  · -- the passed symbols would reach over the delimiter
    cases more with
    | nil => exact ⟨[], ⟨line, List.append_nil _⟩, hr.symm⟩
    | cons m more =>
      cases hr
      exact absurd hd (hused d (by simp))
  · exact ⟨more, ⟨used, rfl⟩, hr⟩

end Inline

/-! ## What the readers pass -/

section Readers

variable {env : Context} {s r : List Symbol}

theorem expression_inline {p : Parsed Expr s.length} (h : expression env s = .ok p) : Inline s p.rest := by
  have hp : Parsed.plain (expression env s) = .ok (p.value, p.rest) := by rw [h]; rfl
  generalize p.value = e, p.rest = r at hp ⊢
  obtain ⟨used, rfl, phrase, _, _, hmarks, _⟩ := expression_reads hp
  exact .of_marks hmarks phrase.inline r

theorem arguments_inline {es : List Expr} (h : Parsed.plain (arguments env s) = .ok (es, r)) : Inline s r := by
  obtain ⟨used, rfl, _, ps, _, hmarks, _⟩ :=
    (readsBelow env (s.length + 1)).arguments s (Nat.lt_succ_self _) es r h
  exact .of_marks hmarks (inline_list ps) r

theorem slots_inline {d : Dialog} {found : List Slot} (h : Passed.plain (slots env d 0 s) = .ok (found, r)) :
    Inline s r := by
  obtain ⟨used, rfl, g, gaps, _, _, hmarks, _⟩ :=
    (readsBelow env (s.length + 1)).slots d 0 s (Nat.lt_succ_self _) (Nat.zero_le _) found r h
  exact .of_marks hmarks (inline_gaps (g :: gaps)) r

theorem callArguments_inline {inExpression : Bool} {es : List Expr}
    (h : Passed.plain (callArguments env inExpression s) = .ok (es, r)) : Inline s r := by
  cases callArguments_form h with
  | absent => exact .refl _
  | bare h => exact arguments_inline h
  | empty hopen hclose => exact .trans (.of_token hopen _) (.of_token hclose r)
  | enclosed hopen h hclose => exact .trans (.of_token hopen _) ((arguments_inline h).trans (.of_token hclose r))

theorem dialogSlots_inline {d : Dialog} {found : List Slot} {l : r.length ≤ s.length}
    (h : dialogSlots env d true s = .ok ⟨found, r, l⟩) : Inline s r := by
  cases dialogSlots_form h with
  | absent => exact .refl _
  | bare h => exact slots_inline h
  | empty hopen hclose => exact .trans (.of_token hopen _) (.of_token hclose r)
  | enclosed hopen h hclose => exact .trans (.of_token hopen _) ((slots_inline h).trans (.of_token hclose r))

theorem NamesForm.inline {declare : Scopes → Symbol → Except Fault Scopes} {names names' : Scopes}
    {found : List String} (h : NamesForm declare names s found names' r) : Inline s r := by
  induction h with
  | one hsym => exact .of_token hsym _
  | more hsym _ hcomma _ ih => exact .trans (.of_token hsym _) (.trans (.of_token hcomma _) ih)

theorem token_ne_of_constant {negative : Bool} {sym : Symbol} {v : Value} (h : constantValue? negative sym = some v) :
    sym.token ≠ .delimiter := by
  intro hd
  unfold constantValue? at h
  rw [hd] at h
  cases h

theorem ConstantForm.inline {d : String × Value} (h : ConstantForm s d r) : Inline s r := by
  cases h with
  | literal hname hequal hv =>
    exact .trans (.of_token hname _) (.trans (.of_token hequal _) (.one (token_ne_of_constant hv) r))
  | negated hname hequal hminus hv =>
    refine .trans (.of_token hname _) (.trans (.of_token hequal _) ?_)
    exact .trans (.of_token hminus _) (.one (token_ne_of_constant hv) r)

theorem ConstantsForm.inline {names names' : Scopes} {found : List (String × Value)}
    (h : ConstantsForm names s found names' r) : Inline s r := by
  induction h with
  | one hfirst => exact hfirst.inline
  | more hfirst hcomma _ ih => exact hfirst.inline.trans (.trans (.of_token hcomma _) ih)

/-- A statement without a block in it passes no delimiter behind its first symbol. -/
theorem statement_inline {at_ : Place} {a : Address} {sym : Symbol} {rest : List Symbol}
    {p : Passed (Stmt × Scopes) rest.length} (hsimple : (lead sym.token).isSimple = true)
    (h : statement env at_ a sym rest = .ok p) : Inline rest p.rest := by
  obtain ⟨⟨stmt, names⟩, r, l⟩ := p
  cases statement_form h with
  | routine hlead | branch hlead | branchElse hlead | countLoop hlead | guardLoop hlead =>
    rw [hlead] at hsimple
    cases hsimple
  | share hnames | declare hnames => exact (nameList_form rest hnames).inline
  | constants hnames => exact (constantList_form rest hnames).inline
  | exitLoop hrest htarget | exitRoutine hrest htarget =>
    subst hrest
    refine .one (fun hd => ?_) _
    rw [hd] at htarget
    cases htarget
  | print he => exact expression_inline he
  | printNone | notify => exact .refl _
  | dialog hslots => exact dialogSlots_inline hslots
  | @assign sign _ _ op _ _ _ _ hrest hsign _ he =>
    subst hrest
    refine .cons (fun hd => ?_) (expression_inline he)
    cases op <;> rw [hd] at hsign <;> cases hsign
  | call _ hcall => exact callArguments_inline (call_parts hcall).2.1

end Readers

end MacroBasic.Grammar
