/-
One line or many. Two texts with the same sentences, one with a line break behind each header and each sentence and
the other with a colon, are parsed side by side. In the first no block begins on the line of its header, and in the
second no line ends; since all closing words are there, nothing else depends on it. Both parses get to the end of each
sentence together, with the same tree up to places, or they are refused with faults of the same code.
-/
import MacroBasic.Proofs.Grammar.Sentence

namespace MacroBasic.Grammar

/-! ## Texts in two layouts -/

theorem token_of_marks {s t : Symbol} (h : mark s = mark t) : s.token = t.token := by
  rw [← token_mark, h, token_mark]

theorem text_of_marks {s t : Symbol} (h : mark s = mark t) (hs : s.token = .name) : s.text = t.text := by
  have ht : t.token = .name := (token_of_marks h).symm.trans hs
  rw [mark_name hs, mark_name ht] at h
  exact Mark.name.inj h

namespace Likeness

/-- Symbols of the same spelling, but for line breaks that take the place of colons. Faults are reported alike if they
have the same code. -/
def layout : Likeness where
  symbol s t := mark s = mark t ∧ (s.token = .number ∨ s.token = .string → s.value = t.value) ∧
    (s.token = .delimiter → s.isNewline = true ∧ t.isNewline = false)
  binding := Eq
  fault f g := f.code = g.code
  place _ := .zero
  lenient := False
  symbol_eof h := ⟨rfl, fun _ => rfl, fun hd => by rw [h] at hd; cases hd⟩
  token h := token_of_marks h.1
  value h := h.2.1
  name h := text_of_marks h.1
  position _ := rfl
  outline h := by rw [h]
  declared _ _ := rfl
  raised _ _ _ _ _ _ := rfl
  unaddressed _ _ _ _ _ := rfl

/-- What else is known of the first outcome. -/
theorem Alike.also {L : Likeness} {α β : Type} {R : α → β → Prop} {P : α → Prop} {x : Except Fault α}
    {y : Except Fault β} (h : L.Alike R x y) (hx : ∀ a, x = .ok a → P a) : L.Alike (fun a b => R a b ∧ P a) x y := by
  cases h with
  | ok h => exact .ok ⟨h, hx _ rfl⟩
  | error h => exact .error h
  | refused h => exact .refused h

/-- Parses with results in relation that leave related symbols, the first one such as `P` says. -/
abbrev Reaching (env env' : Context) {α β : Type} (R : α → β → Prop) (P : List Symbol → Prop) {n m : Nat} :
    Except Fault (Passed α n) → Except Fault (Passed β m) → Prop :=
  layout.Alike fun p q => layout.Passes env.ending env'.ending R p q ∧ P p.rest

end Likeness

open Likeness

variable {env env' : Context} {at_ : Place} {a : Address} {used tail s' : List Symbol} {d : Symbol}

theorem newline_of_left (h : layout.Left env env' (d :: tail) s') (hd : d.token = .delimiter) : d.isNewline = true := by
  cases h with
  | cons hs _ => exact (hs.2.2 hd).1

/-- Where a block ends. -/
def EndsBlock (stops : List Word) : List Symbol → Prop
  | [] => True
  | sym :: _ => endsBlock stops sym.token = true

/-- A statement does not end in front of these symbols. -/
def Unended (s : List Symbol) : Prop := ∃ sym rest, s = sym :: rest ∧ isInner sym.token = true

theorem AtParen.unended {s : List Symbol} (h : AtParen s) : Unended s := by
  obtain ⟨o, v, rfl, ho⟩ := h
  exact ⟨o, v, rfl, by rw [ho]; rfl⟩

/-- Both parsers get to the end of a paragraph. -/
def Paragraph.Reaches (t : Paragraph) : Prop :=
  ∀ {env env' : Context} (_ : layout.Surrounds env env') {at_ : Place} (_ : at_.singleLine = false) (single : Bool)
    {stops : List Word} (_ : stops ⊆ closingWords) (a : Address) {used tail s' : List Symbol}
    (_ : used.map mark = t.render) (_ : EndsBlock stops tail) (_ : layout.Left env env' (used ++ tail) s'),
    Reaching env env' (layout.SameBlock env.names) (· = tail) (block env at_ stops a (used ++ tail))
      (block env' { at_ with singleLine := single } stops a s')

/-- Both parsers get to the delimiter behind a sentence, or they are stopped at the same symbol before. -/
def Sentence.Reaches (t : Sentence) : Prop :=
  ∀ {env env' : Context} (_ : layout.Surrounds env env') {at_ : Place} (_ : at_.singleLine = false) (single : Bool)
    (a : Address) {sym sym' d : Symbol} {more tail rest' : List Symbol} (_ : mark sym :: more.map mark = t.render)
    (_ : d.token = .delimiter) (_ : layout.symbol sym sym') (_ : layout.Left env env' (more ++ d :: tail) rest'),
    Reaching env env' (layout.SameStmt env.names) (fun r => r = d :: tail ∨ Unended r)
      (statement env at_ a sym (more ++ d :: tail)) (statement env' { at_ with singleLine := single } a sym' rest')

/-! ## Blocks behind headers -/

/-- A block does not begin with a parenthesis. -/
theorem block_paren (env : Context) (at_ : Place) (stops : List Word) (a : Address) {o : Symbol} {v : List Symbol}
    (ho : o.token = .openParen) : ∃ f, block env at_ stops a (o :: v) = .error f ∧ f.code = .unexpectedSymbol := by
  refine ⟨env.unexpected (o :: v) "declaration, function call or assignment", ?_, rfl⟩
  rw [block, statement.eq_def]
  simp only [ho, endsBlock, lead, reduceCtorEq, ↓reduceIte]
  rfl

theorem block_parens {r r' : List Symbol}
    {R : Passed (Block × Scopes) r.length → Passed (Block × Scopes) r'.length → Prop} (inner inner' : Place)
    (stops : List Word) (a : Address) (h : AtParen r) (hr : layout.Left env env' r r') :
    layout.Alike R (block env inner stops a r) (block env' inner' stops a r') := by
  obtain ⟨o, v, rfl, ho⟩ := h
  cases hr with
  | @cons _ o' _ v' hs hr =>
    obtain ⟨f, hf, hcode⟩ := block_paren env inner stops a (v := v) ho
    obtain ⟨g, hg, hcode'⟩ := block_paren env' inner' stops a (v := v') ((layout.token hs).symm.trans ho)
    rw [hf, hg]
    exact .error (hcode.trans hcode'.symm)

/-- A delimiter in front of a paragraph is passed. -/
theorem Paragraph.Reaches.behind {t : Paragraph} (h : t.Reaches) (he : layout.Surrounds env env')
    (hline : at_.singleLine = false) (single : Bool) {stops : List Word} (hstops : stops ⊆ closingWords) (a : Address)
    (hu : used.map mark = t.render) (htail : EndsBlock stops tail) (hd : d.token = .delimiter)
    (hr : layout.Left env env' (d :: (used ++ tail)) s') :
    Reaching env env' (layout.SameBlock env.names) (· = tail) (block env at_ stops a (d :: (used ++ tail)))
      (block env' { at_ with singleLine := single } stops a s') := by
  cases hr with
  | @cons _ d' _ s' hs hr =>
    rw [block.eq_def env, block.eq_def env']
    dsimp only
    rw [← layout.token hs, hd, hline, (hs.2.2 hd).2, Bool.and_false, Bool.false_and]
    simp only [↓reduceIte, Bool.false_eq_true]
    exact hr.arrive.bind fun _ _ _ => (h he hline single hstops a hu htail hr).bind fun _ _ hpq =>
      .ok ⟨⟨hpq.1.value, hpq.1.rest⟩, hpq.2⟩

/-- The block behind a header. The first text has a line break there, unless the header has been cut. -/
theorem Paragraph.Reaches.headed {t : Paragraph} (h : t.Reaches) (he : layout.Surrounds env env') {inner : Place}
    {outer : Bool} (houter : outer = false) {r r' : List Symbol}
    (hline : inner.singleLine = (outer || !(env.current r).isNewline)) (single : Bool) {stops : List Word}
    (hstops : stops ⊆ closingWords) (a : Address) (hu : used.map mark = t.render) (htail : EndsBlock stops tail)
    (hd : d.token = .delimiter) (hleaves : Leaves (d :: (used ++ tail)) r) (hr : layout.Left env env' r r') :
    Reaching env env' (layout.SameBlock env.names) (· = tail) (block env inner stops a r)
      (block env' { inner with singleLine := single } stops a r') := by
  -- If the header has been cut, there is no delimiter, but then neither parser finds a statement.
  rcases hleaves with rfl | hparen
  · refine h.behind he ?_ single hstops a hu htail hd hr
    rw [hline, houter]
    show (false || !d.isNewline) = false
    rw [newline_of_left hr hd]
    rfl
  · exact block_parens _ _ _ _ hparen hr

/-! ## Closing words -/

section Closing

/-- Whether the closing words may be absent does not matter where they are not. -/
theorem closeIf_present (env : Context) (first second : Bool) {sym : Symbol} {rest : List Symbol}
    (h : sym.token = .word .endIf ∨ sym.token = .word .endWord) :
    closeIf env first (sym :: rest) = closeIf env second (sym :: rest) := by
  rcases h with h | h <;> simp [closeIf, h]

theorem closeFor_present (env : Context) (counter : String) (first second : Bool) {sym : Symbol} {rest : List Symbol}
    (h : sym.token = .word .next) :
    closeFor env counter first (sym :: rest) = closeFor env counter second (sym :: rest) := by
  simp [closeFor, h]

theorem closeDo_present (env : Context) (hasHead first second : Bool) {sym : Symbol} {rest : List Symbol}
    (h : sym.token = .word .loop) :
    closeDo env hasHead first (sym :: rest) = closeDo env hasHead second (sym :: rest) := by
  simp [closeDo, h]

theorem ifClosing_begins {joined : Bool} (hu : used.map mark = ifClosing joined) :
    ∃ sym u, used = sym :: u ∧ (sym.token = .word .endIf ∨ sym.token = .word .endWord) := by
  cases joined <;> obtain ⟨sym, u, rfl, hsym, _⟩ := map_mark_cons hu
  · exact ⟨sym, u, rfl, .inr (token_of_mark hsym)⟩
  · exact ⟨sym, u, rfl, .inl (token_of_mark hsym)⟩

theorem closeIf_exact {joined optional : Bool} (hu : used.map mark = ifClosing joined)
    {p : Passed Unit (used ++ tail).length} (h : closeIf env optional (used ++ tail) = .ok p) : p.rest = tail := by
  cases joined <;> obtain ⟨sym, u, rfl, hsym, hu⟩ := map_mark_cons hu
  · obtain ⟨word, u, rfl, hword, hu⟩ := map_mark_cons hu
    obtain rfl := List.map_eq_nil_iff.1 hu
    simp only [List.cons_append, List.nil_append, closeIf, token_of_mark hsym, Token.word.injEq, reduceCtorEq,
      ↓reduceIte] at h
    obtain ⟨_, _, h⟩ := bind_eq_ok.1 h
    obtain ⟨q, hq, h⟩ := bind_eq_ok.1 h
    cases h
    exact require_leaves (.inl rfl) hq
  · obtain rfl := List.map_eq_nil_iff.1 hu
    simp only [List.cons_append, List.nil_append, closeIf, token_of_mark hsym, ↓reduceIte] at h
    obtain ⟨_, _, h⟩ := bind_eq_ok.1 h
    cases h
    rfl

/-- The words that end an `IF`. -/
theorem closeIf_reaches {joined : Bool} (hu : used.map mark = ifClosing joined) (first second : Bool)
    (hr : layout.Left env env' (used ++ tail) s') :
    Reaching env env' Eq (· = tail) (closeIf env first (used ++ tail)) (closeIf env' second s') := by
  have hclosed := (closeIf_alike first hr).also fun p hp => closeIf_exact hu hp
  obtain ⟨sym, u, rfl, hsym⟩ := ifClosing_begins hu
  cases hr with
  | cons hs hr =>
    rw [closeIf_present env' second first (by rw [← layout.token hs]; exact hsym)]
    exact hclosed

theorem closeRoutine_exact {isFunction joined : Bool} (hu : used.map mark = routineClosing isFunction joined)
    {p : Passed Unit (used ++ tail).length} (h : closeRoutine env isFunction (used ++ tail) = .ok p) :
    p.rest = tail := by
  cases joined <;> obtain ⟨sym, u, rfl, hsym, hu⟩ := map_mark_cons hu
  · obtain ⟨word, u, rfl, hword, hu⟩ := map_mark_cons hu
    obtain rfl := List.map_eq_nil_iff.1 hu
    have hend : Token.word (if isFunction then .endFunction else .endSub) ≠ .word .endWord := by
      cases isFunction <;> decide
    simp only [List.cons_append, List.nil_append, closeRoutine, token_of_mark hsym, hend.symm, ↓reduceIte] at h
    obtain ⟨_, _, h⟩ := bind_eq_ok.1 h
    obtain ⟨q, hq, h⟩ := bind_eq_ok.1 h
    cases h
    exact require_leaves (.inl rfl) hq (by simp)
  · obtain rfl := List.map_eq_nil_iff.1 hu
    simp only [List.cons_append, List.nil_append, closeRoutine, token_of_mark hsym, ↓reduceIte] at h
    obtain ⟨_, _, h⟩ := bind_eq_ok.1 h
    cases h
    rfl

/-- The word that ends a `FOR`, and perhaps the counter. -/
theorem closeFor_reaches {n : String} {again : Bool} (hu : used.map mark = forClosing n again)
    (hd : d.token = .delimiter) (first second : Bool) (hr : layout.Left env env' (used ++ d :: tail) s') :
    Reaching env env' Eq (· = d :: tail) (closeFor env n first (used ++ d :: tail)) (closeFor env' n second s') := by
  obtain ⟨sym, u, rfl, hsym, hu⟩ := map_mark_cons hu
  have hclosed := (closeFor_alike n first hr).also (P := fun p => p.rest = d :: tail) fun p hp => by
    simp only [List.cons_append, closeFor, token_of_mark hsym, ↓reduceIte] at hp
    obtain ⟨_, _, hp⟩ := bind_eq_ok.1 hp
    obtain ⟨q, hq, hp⟩ := bind_eq_ok.1 hp
    cases hp
    cases again with
    | false =>
      obtain rfl := List.map_eq_nil_iff.1 hu
      simp only [List.nil_append, repeatedCounter, hd, reduceCtorEq, decide_false, Bool.false_and, Bool.false_eq_true,
        ↓reduceIte] at hq
      cases hq
      rfl
    | true =>
      obtain ⟨counter, u, rfl, hcounter, hu⟩ := map_mark_cons hu
      obtain rfl := List.map_eq_nil_iff.1 hu
      obtain ⟨hname, htext⟩ := mark_eq_name hcounter
      simp only [List.cons_append, List.nil_append, repeatedCounter, hname, htext, decide_true, beq_self_eq_true,
        Bool.and_self, ↓reduceIte] at hq
      obtain ⟨_, _, hq⟩ := bind_eq_ok.1 hq
      cases hq
      rfl
  cases hr with
  | cons hs hr =>
    rw [closeFor_present env' n second first ((layout.token hs).symm.trans (token_of_mark hsym))]
    exact hclosed

/-- The word that ends a `DO`, and perhaps a condition. -/
theorem closeDo_reaches (he : layout.Surrounds env env') {c : Option Condition} (hc : ConditionWellFormed c)
    (hu : used.map mark = .word .loop :: renderCondition c) (hd : d.token = .delimiter) (hasHead first second : Bool)
    (hr : layout.Left env env' (used ++ d :: tail) s') :
    Reaching env env' Eq (Leaves (d :: tail)) (closeDo env hasHead first (used ++ d :: tail))
      (closeDo env' hasHead second s') := by
  obtain ⟨sym, u, rfl, hsym, hu⟩ := map_mark_cons hu
  have hclosed := (closeDo_alike he hasHead first hr).also (P := fun p => Leaves (d :: tail) p.rest) fun p hp => by
    simp only [List.cons_append, closeDo, token_of_mark hsym, ↓reduceIte] at hp
    obtain ⟨_, _, hp⟩ := bind_eq_ok.1 hp
    split at hp
    · cases hp
    · obtain ⟨q, hq, hp⟩ := bind_eq_ok.1 hp
      cases hp
      have hleaves := loopGuard_leaves hc hu hd hq
      exact hleaves
  cases hr with
  | cons hs hr =>
    rw [closeDo_present env' hasHead second first ((layout.token hs).symm.trans (token_of_mark hsym))]
    exact hclosed

end Closing

/-! ## Statements -/

/-- A statement without a block in it does not depend on whether it has to end on its line. -/
theorem statement_simple (env : Context) (at_ : Place) (single : Bool) (a : Address) {sym : Symbol}
    (hsimple : (lead sym.token).isSimple = true) (rest : List Symbol) :
    statement env { at_ with singleLine := single } a sym rest = statement env at_ a sym rest := by
  rw [statement.eq_def, statement.eq_def]
  cases hlead : lead sym.token with
  | routine | branch | countLoop | guardLoop => exact absurd hsimple (by rw [hlead]; exact Bool.false_ne_true)
  | _ => rfl

theorem Sentence.reaches_simple {marks : List Mark} (h : Simple marks) : (Sentence.simple marks).Reaches := by
  intro env env' he at_ hline single a sym sym' d more tail rest' hu hd hs hr
  obtain ⟨⟨m, ms, rfl, hfirst⟩, hinner⟩ := h
  obtain ⟨hm, hmore⟩ := List.cons.inj hu
  rw [← hm, token_mark] at hfirst
  rw [statement_simple env' at_ single a (layout.token hs ▸ hfirst)]
  refine (simple_alike he at_ a hs hfirst hr).also fun p hp => ?_
  have hmoreInner : ∀ x ∈ more, isInner x.token = true := fun x hx => by
    rw [← token_mark]
    exact hinner _ (List.mem_cons_of_mem _ (hmore ▸ List.mem_map_of_mem hx))
  obtain ⟨left, hleft, hrest⟩ := (statement_inline hfirst hp).front hd fun x hx hdelimiter =>
    absurd (hmoreInner x hx) (by rw [hdelimiter]; decide)
  cases left with
  | nil => exact .inl hrest
  | cons x left => exact .inr ⟨x, _, hrest, hmoreInner x (hleft.subset List.mem_cons_self)⟩

theorem Leaves.ended {tail r : List Symbol} (h : Leaves tail r) : r = tail ∨ Unended r := h.imp_right AtParen.unended

section Statements

/-- What a header is followed by is a block, whatever the place of the header in the text. -/
theorem token_of_first {sym sym' : Symbol} {w : Word} (hu : mark sym = .word w) (hs : layout.symbol sym sym') :
    sym.token = .word w ∧ sym'.token = .word w :=
  ⟨token_of_mark hu, (layout.token hs).symm.trans (token_of_mark hu)⟩

theorem Sentence.reaches_routine {isFunction : Bool} {n : String} {parameters : Option (List String)} {body : Paragraph}
    {joined : Bool} (hbody : body.Reaches) : (Sentence.routine isFunction n parameters body joined).Reaches := by
  intro env env' he at_ hline single a sym sym' d more tail rest' hu hd hs hr
  obtain ⟨hsym, hu⟩ := List.cons.inj hu
  rw [← List.cons_append] at hu
  obtain ⟨uh, u, rfl, huh, hu⟩ := map_mark_append hu
  obtain ⟨d₁, u, rfl, hd₁, hu⟩ := map_mark_cons hu
  obtain ⟨ub, uc, rfl, hub, huc⟩ := map_mark_append hu
  have hd₁ := token_of_mark hd₁
  have hshape : uh ++ d₁ :: (ub ++ uc) ++ d :: tail = uh ++ d₁ :: (ub ++ (uc ++ d :: tail)) := by simp
  rw [hshape] at hr ⊢
  obtain ⟨ht, ht'⟩ := token_of_first hsym hs
  have hlead : lead (.word (routineWord isFunction)) = .routine isFunction := by cases isFunction <;> rfl
  rw [statement.eq_def env, statement.eq_def env', ht, ht', hlead]
  dsimp only
  generalize (if isFunction then Kind.function else .sub) = kind
  split
  · exact .error rfl
  · refine hr.arrive.bind fun _ _ _ => ?_
    refine ((routineHead_alike he hr).also fun p hp => routineHead_leaves huh hd₁ hp).bind
      fun ⟨head, r, _⟩ ⟨_, r', _⟩ ⟨⟨hhead, hr⟩, hexact⟩ => ?_
    obtain rfl : r = d₁ :: (ub ++ (uc ++ d :: tail)) := hexact
    cases hhead
    dsimp only at hr ⊢
    refine (enterRoutine_alike he.names (fun _ => rfl) rfl).bind fun entered entered' hentered => ?_
    have hends : EndsBlock routineEnds (uc ++ d :: tail) := by
      cases joined <;> obtain ⟨k, uc, rfl, hk, _⟩ := map_mark_cons huc <;>
        show endsBlock routineEnds k.token = true <;> rw [token_of_mark hk]
      · rfl
      · cases isFunction <;> rfl
    have hinner : (⟨false, true, [], some kind⟩ : Place).singleLine = false := rfl
    refine (hbody.behind (he.withNames hentered.inside) hinner false (by decide) _ hub hends hd₁ hr).bind
      fun ⟨body, r, _⟩ ⟨body', r', _⟩ ⟨⟨hbody, hr⟩, hexact⟩ => ?_
    obtain rfl : r = uc ++ d :: tail := hexact
    dsimp only at hr ⊢
    refine ((closeRoutine_alike isFunction hr).also fun p hp => closeRoutine_exact huc hp).bind
      fun ⟨_, r, _⟩ ⟨_, r', _⟩ ⟨⟨_, hr⟩, hexact⟩ => .ok ⟨⟨⟨?_, hentered.outside⟩, hr⟩, .inl hexact⟩
    exact congrArg (Stmt.routine isFunction head.1 head.2) hbody.value

/-- The rest of an `IF` without `ELSE`. -/
theorem branchRest_closed (he : layout.Surrounds env env') (inner inner' : Place) (first second : Bool) {c : Expr}
    {yes yes' : Block} (hyes : yes.placed layout.place = yes'.placed layout.place) (otherwise : Address) {joined : Bool}
    (hu : used.map mark = ifClosing joined) (hr : layout.Left env env' (used ++ tail) s') :
    Reaching env env' (layout.SameStmt env.names) (· = tail) (branchRest env inner first c yes otherwise (used ++ tail))
      (branchRest env' inner' second c yes' otherwise s') := by
  -- In the second text the closing words could be absent. They are not, so the parser takes them there as well.
  have hclosed := closeIf_reaches hu first second hr
  obtain ⟨sym, u, rfl, hsym⟩ := ifClosing_begins hu
  have helse : sym.token ≠ .word .elseWord := by rcases hsym with h | h <;> rw [h] <;> decide
  cases hr with
  | cons hs hr =>
    rw [branchRest.eq_def env, branchRest.eq_def env']
    dsimp only [List.cons_append]
    rw [if_neg helse, if_neg (layout.token hs ▸ helse)]
    refine hclosed.bind fun p q hpq => .ok ⟨⟨⟨?_, he.grown⟩, hpq.1.rest⟩, hpq.2⟩
    exact congrArg (Stmt.branch c) hyes

/-- The rest of an `IF` from `ELSE` on. -/
theorem branchRest_else {no : Paragraph} (hno : no.Reaches) (he : layout.Surrounds env env') {inner : Place}
    (hline : inner.singleLine = false) (single first second : Bool) {c : Expr} {yes yes' : Block}
    (hyes : yes.placed layout.place = yes'.placed layout.place) (otherwise : Address) {joined : Bool}
    (hu : used.map mark = .word .elseWord :: .delimiter :: (no.render ++ ifClosing joined))
    (hr : layout.Left env env' (used ++ tail) s') :
    Reaching env env' (layout.SameStmt env.names) (· = tail) (branchRest env inner first c yes otherwise (used ++ tail))
      (branchRest env' { inner with singleLine := single } second c yes' otherwise s') := by
  obtain ⟨sym, u, rfl, hsym, hu⟩ := map_mark_cons hu
  obtain ⟨d, u, rfl, hd, hu⟩ := map_mark_cons hu
  obtain ⟨ub, uc, rfl, hub, huc⟩ := map_mark_append hu
  have hshape : sym :: d :: (ub ++ uc) ++ tail = sym :: d :: (ub ++ (uc ++ tail)) := by simp
  rw [hshape] at hr ⊢
  cases hr with
  | cons hs hr =>
    obtain ⟨ht, ht'⟩ := token_of_first hsym hs
    have hends : EndsBlock [.endWord, .endIf] (uc ++ tail) := by
      obtain ⟨k, uc, rfl, hk⟩ := ifClosing_begins huc
      show endsBlock [.endWord, .endIf] k.token = true
      rcases hk with h | h <;> rw [h] <;> rfl
    rw [branchRest.eq_def env, branchRest.eq_def env']
    dsimp only
    rw [if_pos ht, if_pos ht']
    refine hr.arrive.bind fun _ _ _ => ?_
    refine (hno.behind he hline single (by decide) otherwise hub hends (token_of_mark hd) hr).bind
      fun ⟨no, r, _⟩ ⟨no', r', _⟩ ⟨⟨hno, hr⟩, hexact⟩ => ?_
    obtain rfl : r = uc ++ tail := hexact
    refine (closeIf_reaches huc first second hr).bind
      fun ⟨_, r, _⟩ ⟨_, r', _⟩ ⟨⟨_, hr⟩, hexact⟩ => .ok ⟨⟨⟨?_, hno.names⟩, hr⟩, hexact⟩
    exact congrArg₂ (Stmt.branchElse c) hyes hno.value

/-- An `IF` of which the block and the rest are read alike. -/
theorem reaches_if {c : Phrase} (hc : c.WellFormed) {yes : Paragraph} (hyes : yes.Reaches) (ms : List Mark)
    (hends : ∀ {u tail : List Symbol}, u.map mark = ms → EndsBlock [.elseWord, .endWord, .endIf] (u ++ tail))
    (hrest : ∀ {env env' : Context} (_ : layout.Surrounds env env') {inner : Place} (_ : inner.singleLine = false)
      (single first second : Bool) {c : Expr} {yes yes' : Block}
      (_ : yes.placed layout.place = yes'.placed layout.place) (otherwise : Address) {used tail s' : List Symbol}
      (_ : used.map mark = ms) (_ : layout.Left env env' (used ++ tail) s'),
      Reaching env env' (layout.SameStmt env.names) (· = tail)
        (branchRest env inner first c yes otherwise (used ++ tail))
        (branchRest env' { inner with singleLine := single } second c yes' otherwise s'))
    (he : layout.Surrounds env env') (hline : at_.singleLine = false) (single : Bool) (a : Address)
    {sym sym' d : Symbol} {more rest' : List Symbol}
    (hu : mark sym :: more.map mark =
      .word .ifWord :: (c.render ++ .word .thenWord :: .delimiter :: (yes.render ++ ms)))
    (hs : layout.symbol sym sym') (hr : layout.Left env env' (more ++ d :: tail) rest') :
    Reaching env env' (layout.SameStmt env.names) (fun r => r = d :: tail ∨ Unended r)
      (statement env at_ a sym (more ++ d :: tail))
      (statement env' { at_ with singleLine := single } a sym' rest') := by
  obtain ⟨hsym, hu⟩ := List.cons.inj hu
  obtain ⟨uc, u, rfl, huc, hu⟩ := map_mark_append hu
  obtain ⟨th, u, rfl, hth, hu⟩ := map_mark_cons hu
  obtain ⟨d₁, u, rfl, hd₁, hu⟩ := map_mark_cons hu
  obtain ⟨uy, ur, rfl, huy, hur⟩ := map_mark_append hu
  have hd₁ := token_of_mark hd₁
  have hshape : uc ++ th :: d₁ :: (uy ++ ur) ++ d :: tail = uc ++ th :: d₁ :: (uy ++ (ur ++ d :: tail)) := by simp
  rw [hshape] at hr ⊢
  obtain ⟨ht, ht'⟩ := token_of_first hsym hs
  rw [statement.eq_def env, statement.eq_def env', ht, ht']
  refine hr.arrive.bind fun _ _ _ => ?_
  refine ((expression_alike he hr).also fun p hp => expression_leaves hc huc (fun k => stops_of_mark hth rfl k _)
    (arrive_cons _ _) hp).bind fun ⟨condition, r, _⟩ ⟨_, r', _⟩ ⟨⟨hcondition, hr⟩, hleaves⟩ => ?_
  cases hcondition
  refine ((hr.require _ (by decide) (hr.violation _)).also fun p hp => require_leaves hleaves hp).bind
    fun ⟨_, r, _⟩ ⟨_, r', _⟩ ⟨⟨_, hr⟩, hexact⟩ => ?_
  obtain rfl : r = d₁ :: (uy ++ (ur ++ d :: tail)) := hexact
  dsimp only at hr ⊢
  have hnewline := newline_of_left hr hd₁
  -- In the first text the block begins on a new line, so it does not have to end on the line of its header.
  let inner : Place :=
    { at_ with
      singleLine := at_.singleLine || !(env.current (d₁ :: (uy ++ (ur ++ d :: tail)))).isNewline
      declarations := false }
  have hinner : inner.singleLine = false := by
    show (at_.singleLine || !d₁.isNewline) = false
    rw [hline, hnewline]
    rfl
  refine (hyes.behind he hinner _ (by decide) _ huy (hends hur) hd₁ hr).bind
    fun ⟨⟨yes, names⟩, r, _⟩ ⟨⟨yes', names'⟩, r', _⟩ ⟨⟨hyes, hr⟩, hexact⟩ => ?_
  obtain rfl : r = ur ++ d :: tail := hexact
  dsimp only at hr ⊢
  rw [Block.size_of_placed hyes.value]
  exact (hrest (he.withNames hyes.names.names) hinner _ _ _ hyes.value _ hur hr).bind fun p q hpq =>
    .ok ⟨⟨hpq.1.value.after hyes.names.around, hpq.1.rest⟩, .inl hpq.2⟩

theorem Sentence.reaches_branch {c : Phrase} (hc : c.WellFormed) {yes : Paragraph} (hyes : yes.Reaches)
    {joined : Bool} : (Sentence.branch c yes joined).Reaches := by
  intro env env' he at_ hline single a sym sym' d more tail rest' hu hd hs hr
  refine reaches_if hc hyes (ifClosing joined) ?_ ?_ he hline single a hu hs hr
  · intro u tail hu
    obtain ⟨k, u, rfl, hk⟩ := ifClosing_begins hu
    show endsBlock [.elseWord, .endWord, .endIf] k.token = true
    rcases hk with h | h <;> rw [h] <;> rfl
  · intro env env' he inner _ single first second c yes yes' hyes otherwise used tail s' hu hr
    exact branchRest_closed he inner _ first second hyes otherwise hu hr

theorem Sentence.reaches_branchElse {c : Phrase} (hc : c.WellFormed) {yes no : Paragraph} (hyes : yes.Reaches)
    (hno : no.Reaches) {joined : Bool} : (Sentence.branchElse c yes no joined).Reaches := by
  intro env env' he at_ hline single a sym sym' d more tail rest' hu hd hs hr
  refine reaches_if hc hyes (.word .elseWord :: .delimiter :: (no.render ++ ifClosing joined)) ?_ ?_ he hline single a
    hu hs hr
  · intro u tail hu
    obtain ⟨k, u, rfl, hk, _⟩ := map_mark_cons hu
    show endsBlock [.elseWord, .endWord, .endIf] k.token = true
    rw [token_of_mark hk]
    rfl
  · intro env env' he inner hinner single first second c yes yes' hyes otherwise used tail s' hu hr
    exact branchRest_else hno he hinner single first second hyes otherwise hu hr

theorem Sentence.reaches_countLoop {n : String} {start limit : Phrase} {step : Option Phrase}
    (hstart : start.WellFormed) (hlimit : limit.WellFormed) (hstep : ∀ p ∈ step, p.WellFormed) {body : Paragraph}
    (hbody : body.Reaches) {again : Bool} : (Sentence.countLoop n start limit step body again).Reaches := by
  intro env env' he at_ hline single a sym sym' d more tail rest' hu hd hs hr
  obtain ⟨hsym, hu⟩ := List.cons.inj hu
  have hmore : more.map mark =
      .name n :: .operator .equal :: (start.render ++ .word .to :: (limit.render ++ renderStep step)) ++
        .delimiter :: (body.render ++ forClosing n again) := by
    rw [hu]
    simp
  obtain ⟨uh, u, rfl, huh, hu⟩ := map_mark_append hmore
  obtain ⟨d₁, u, rfl, hd₁, hu⟩ := map_mark_cons hu
  obtain ⟨ub, uc, rfl, hub, huc⟩ := map_mark_append hu
  have hd₁ := token_of_mark hd₁
  have hshape : uh ++ d₁ :: (ub ++ uc) ++ d :: tail = uh ++ d₁ :: (ub ++ (uc ++ d :: tail)) := by simp
  rw [hshape] at hr ⊢
  obtain ⟨ht, ht'⟩ := token_of_first hsym hs
  rw [statement.eq_def env, statement.eq_def env', ht, ht']
  refine hr.arrive.bind fun _ _ _ => ?_
  refine ((forHead_alike he hr).also fun p hp => forHead_leaves hstart hlimit hstep huh hd₁ hp).bind
    fun ⟨⟨head, names⟩, r, _⟩ ⟨⟨_, names'⟩, r', _⟩ ⟨⟨hhead, hr⟩, hleaves, hcounter⟩ => ?_
  obtain ⟨hsame, hnames⟩ := hhead
  cases hsame
  obtain ⟨counter, start, limit, step⟩ := head
  obtain rfl : counter = n := hcounter
  dsimp only at hr hleaves ⊢
  have hends : EndsBlock [.next] (uc ++ d :: tail) := by
    obtain ⟨k, uc, rfl, hk, _⟩ := map_mark_cons huc
    show endsBlock [.next] k.token = true
    rw [token_of_mark hk]
    rfl
  refine (hbody.headed (he.withNames hnames.names) hline
    (show (⟨_, false, .forLoop :: at_.loops, at_.routine⟩ : Place).singleLine = _ from rfl) _ (by decide) _ hub hends
    hd₁ hleaves hr).bind
    fun ⟨⟨body, names⟩, r, _⟩ ⟨⟨body', names'⟩, r', _⟩ ⟨⟨hbody, hr⟩, hexact⟩ => ?_
  obtain rfl : r = uc ++ d :: tail := hexact
  refine (closeFor_reaches huc hd _ _ hr).bind fun p q hpq =>
    .ok ⟨⟨⟨?_, hbody.names.after hnames.around⟩, hpq.1.rest⟩, .inl hpq.2⟩
  exact congrArg (Stmt.countLoop counter start limit step) hbody.value

theorem Sentence.reaches_guardLoop {head tail : Option Condition} (hhead : ConditionWellFormed head)
    (htail : ConditionWellFormed tail) {body : Paragraph} (hbody : body.Reaches) :
    (Sentence.guardLoop head body tail).Reaches := by
  intro env env' he at_ hline single a sym sym' d more rest rest' hu hd hs hr
  obtain ⟨hsym, hu⟩ := List.cons.inj hu
  obtain ⟨uh, u, rfl, huh, hu⟩ := map_mark_append hu
  obtain ⟨d₁, u, rfl, hd₁, hu⟩ := map_mark_cons hu
  obtain ⟨ub, uc, rfl, hub, huc⟩ := map_mark_append hu
  have hd₁ := token_of_mark hd₁
  have hshape : uh ++ d₁ :: (ub ++ uc) ++ d :: rest = uh ++ d₁ :: (ub ++ (uc ++ d :: rest)) := by simp
  rw [hshape] at hr ⊢
  obtain ⟨ht, ht'⟩ := token_of_first hsym hs
  rw [statement.eq_def env, statement.eq_def env', ht, ht']
  refine hr.arrive.bind fun _ _ _ => ?_
  refine ((loopGuard_alike he hr).also fun p hp => loopGuard_leaves hhead huh hd₁ hp).bind
    fun ⟨guard, r, _⟩ ⟨_, r', _⟩ ⟨⟨hguard, hr⟩, hleaves⟩ => ?_
  cases hguard
  dsimp only at hr hleaves ⊢
  have hends : EndsBlock [.loop] (uc ++ d :: rest) := by
    obtain ⟨k, uc, rfl, hk, _⟩ := map_mark_cons huc
    show endsBlock [.loop] k.token = true
    rw [token_of_mark hk]
    rfl
  refine (hbody.headed he hline (show (⟨_, false, .doLoop :: at_.loops, at_.routine⟩ : Place).singleLine = _ from rfl) _
    (by decide) _ hub hends hd₁ hleaves hr).bind
    fun ⟨⟨body, names⟩, r, _⟩ ⟨⟨body', names'⟩, r', _⟩ ⟨⟨hbody, hr⟩, hexact⟩ => ?_
  obtain rfl : r = uc ++ d :: rest := hexact
  refine (closeDo_reaches (he.withNames hbody.names.names) htail huc hd _ _ _ hr).bind
    fun ⟨closing, r, _⟩ ⟨_, r', _⟩ ⟨⟨hclosing, hr⟩, hleaves⟩ => ?_
  cases hclosing
  refine .ok ⟨⟨⟨?_, hbody.names⟩, hr⟩, hleaves.ended⟩
  exact congrArg (Stmt.guardLoop guard · closing) hbody.value

end Statements

/-! ## Paragraphs -/

theorem Paragraph.reaches_nil : Paragraph.nil.Reaches := by
  intro env env' he at_ _ single stops _ a used tail s' hu htail hr
  obtain rfl := List.map_eq_nil_iff.1 hu
  rw [List.nil_append] at hr ⊢
  have hstay {s s' : List Symbol} (hr : layout.Left env env' s s') :
      Reaching env env' (layout.SameBlock env.names) (· = s) (.ok (.stay (.nil, env.names) s))
        (.ok (.stay (.nil, env'.names) s')) := .ok ⟨⟨⟨rfl, he.grown⟩, hr⟩, rfl⟩
  cases hr with
  | nil hx => rw [block.eq_def env, block.eq_def env']; exact hstay (.nil hx)
  | ended hu hs hb =>
    rw [block.eq_def env, block.eq_def env']
    simp only [hb, endsBlock, reduceCtorEq, ↓reduceIte]
    exact hstay (.ended hu hs hb)
  | @cons sym _ _ _ hs hr =>
    have hends : endsBlock stops sym.token = true := htail
    have hdelimiter : sym.token ≠ .delimiter := by
      intro h
      rw [h] at hends
      cases hends
    rw [block.eq_def env, block.eq_def env']
    dsimp only
    rw [← layout.token hs, if_neg hdelimiter, if_neg hdelimiter, hends]
    exact hstay (.cons hs hr)

theorem Paragraph.reaches_cons {first : Sentence} {rest : Paragraph} (hw : first.WellFormed) (hfirst : first.Reaches)
    (hrest : rest.Reaches) : (Paragraph.cons first rest).Reaches := by
  intro env env' he at_ hline single stops hstops a used tail s' hu htail hr
  obtain ⟨uf, u, rfl, huf, hu⟩ := map_mark_append hu
  obtain ⟨d, ur, rfl, hd, hur⟩ := map_mark_cons hu
  have hd := token_of_mark hd
  obtain ⟨m, ms, hrender, hm⟩ := first.starts hw
  obtain ⟨sym, more, rfl, hsym, hmore⟩ := map_mark_cons (huf.trans hrender)
  have hshape : sym :: more ++ d :: ur ++ tail = sym :: (more ++ d :: (ur ++ tail)) := by simp
  rw [hshape] at hr ⊢
  rw [← hsym, token_mark] at hm
  obtain ⟨_, hnotEnd, hdelimiter⟩ := not_ends_of_isInner hstops hm
  cases hr with
  | cons hs hr =>
    rw [block.eq_def env, block.eq_def env']
    dsimp only
    rw [← layout.token hs, if_neg hdelimiter, if_neg hdelimiter, hnotEnd]
    simp only [Bool.false_eq_true, ↓reduceIte]
    refine (hfirst he hline single a huf hd hs hr).bind
      fun ⟨⟨stmt, names⟩, r, hlen⟩ ⟨⟨stmt', names'⟩, r', _⟩ ⟨⟨⟨hstmt, hnames⟩, hr⟩, hexact⟩ => ?_
    dsimp only at hr hexact hstmt hnames ⊢
    rw [← hr.token, Stmt.size_of_placed hstmt]
    -- Either the whole sentence has been read, or both parsers are stopped at a symbol inside of it.
    rcases hexact with rfl | ⟨x, left, rfl, hx⟩
    · have hends : endsStatement stops (env.token (d :: (ur ++ tail))) = true := by
        show endsStatement stops d.token = true
        rw [hd]
        rfl
      rw [if_pos hends, if_pos hends]
      refine (hrest.behind (he.withNames hnames.names) hline single hstops _ hur htail hd hr).bind
        fun ⟨⟨more, _⟩, r, _⟩ ⟨⟨more', _⟩, r', _⟩ ⟨⟨hmore, hr⟩, hexact⟩ =>
          .ok ⟨⟨⟨?_, hmore.names.after hnames.around⟩, hr⟩, hexact⟩
      show Block.cons .zero (stmt.placed layout.place) (more.placed layout.place) =
        .cons .zero (stmt'.placed layout.place) (more'.placed layout.place)
      rw [hstmt, hmore.value]
    · have hends : endsStatement stops (env.token (x :: left)) = false := (not_ends_of_isInner hstops hx).1
      rw [hends]
      exact .error rfl

mutual

/-- Both parsers get through every sentence. -/
theorem Sentence.reaches : (t : Sentence) → t.WellFormed → t.Reaches
  | .simple _, h => Sentence.reaches_simple h
  | .routine _ _ _ body _, h => Sentence.reaches_routine (body.reaches h)
  | .branch _ yes _, h => Sentence.reaches_branch h.1 (yes.reaches h.2)
  | .branchElse _ yes no _, h => Sentence.reaches_branchElse h.1 (yes.reaches h.2.1) (no.reaches h.2.2)
  | .countLoop _ _ _ _ body _, h => Sentence.reaches_countLoop h.1 h.2.1 h.2.2.1 (body.reaches h.2.2.2)
  | .guardLoop _ body _, h => Sentence.reaches_guardLoop h.1 h.2.2 (body.reaches h.2.1)

/-- Both parsers get through every paragraph. -/
theorem Paragraph.reaches : (t : Paragraph) → t.WellFormed → t.Reaches
  | .nil, _ => Paragraph.reaches_nil
  | .cons first rest, h => Paragraph.reaches_cons h.1 (first.reaches h.1) (rest.reaches h.2)

end

end MacroBasic.Grammar
