/-
What scripts are made of. The literals and the constants of a tree are values that its text spells or that a word
stands for, so they are plain, and the names that it reads are names in the text. That is shown of phrases first,
then of every statement the parser gives.
-/
import MacroBasic.Proofs.Grammar.Script
import MacroBasic.Proofs.Value.Plain

namespace MacroBasic

/-! ## Proper trees -/

section Proper

variable (R : Rules)

mutual

/-- Every literal in an expression is plain, and every name that it reads may have a value. -/
def Expr.Proper : Expr → Prop
  | .literal v => v.Plain
  | .variable name => R.name name
  | .call r arguments => R.name r.name ∧ AllProper arguments
  | .unary _ e => e.Proper
  | .binary _ l r => l.Proper ∧ r.Proper
  | .conjunction first rest => first.Proper ∧ AllProper rest
  | .choice c x y => c.Proper ∧ x.Proper ∧ y.Proper
  | .dialog _ slots => SlotsProper slots

def AllProper : List Expr → Prop
  | [] => True
  | e :: rest => e.Proper ∧ AllProper rest

def SlotsProper : List Slot → Prop
  | [] => True
  | slot :: rest => slot.Proper ∧ SlotsProper rest

def Slot.Proper : Slot → Prop
  | .omitted => True
  | .given e => e.Proper

end

mutual

/-- Every literal and every constant in a statement is plain, and every name that it reads may have a value. -/
def Stmt.Proper : Stmt → Prop
  | .share _ | .declare _ | .exitLoop _ _ | .exitRoutine | .notify _ => True
  | .constants definitions => ∀ d ∈ definitions, d.2.Plain
  | .routine _ _ _ body => body.Proper
  | .branch c yes => c.Proper R ∧ yes.Proper
  | .branchElse c yes no => c.Proper R ∧ yes.Proper ∧ no.Proper
  | .countLoop counter start limit step body =>
    R.name counter ∧ start.Proper R ∧ limit.Proper R ∧ (∀ e ∈ step, e.Proper R) ∧ body.Proper
  | .guardLoop head body tail =>
    (∀ g ∈ head, g.condition.Proper R) ∧ body.Proper ∧ ∀ g ∈ tail, g.condition.Proper R
  | .print e => ∀ x ∈ e, x.Proper R
  | .dialog _ slots => SlotsProper R slots
  | .assign name _ e => R.name name ∧ e.Proper R
  | .call _ arguments => AllProper R arguments

def Block.Proper : Block → Prop
  | .nil => True
  | .cons _ first rest => first.Proper ∧ rest.Proper

end

/-- The names among some symbols may have values, and the literals among them have plain ones. -/
structure Rules.Writes (s : List Symbol) : Prop where
  names : R.Spells s
  values : ∀ sym ∈ s, sym.token = .number ∨ sym.token = .string → ∃ v, sym.value = some v ∧ v.Plain

end Proper

section Writes

variable {R : Rules} {s r : List Symbol}

theorem Rules.Writes.suffix (h : R.Writes s) (hr : r <:+ s) : R.Writes r :=
  ⟨h.names.suffix hr, fun sym hsym => h.values sym (hr.subset hsym)⟩

theorem Rules.Writes.rest {sym : Symbol} (h : R.Writes (sym :: s)) : R.Writes s := h.suffix (List.suffix_cons ..)

end Writes

namespace Grammar

/-! ## Phrases -/

/-- A mark of a name that may have a value, of a plain literal, or of neither. -/
def Mark.Proper (R : Rules) : Mark → Prop
  | .number v | .text v => v.Plain
  | .name n => R.name n
  | .plain _ => True

section Marks

variable {R : Rules} {s : List Symbol}

theorem mark_proper {sym : Symbol} (h : R.Writes s) (hsym : sym ∈ s) : (mark sym).Proper R := by
  unfold mark
  split
  · rename_i ht
    obtain ⟨v, hv, hplain⟩ := h.values sym hsym (.inl ht)
    rw [hv]
    exact hplain
  · rename_i ht
    obtain ⟨v, hv, hplain⟩ := h.values sym hsym (.inr ht)
    rw [hv]
    exact hplain
  · rename_i ht
    exact h.names sym hsym ht
  · trivial

/-- The marks of the symbols that have been used are proper. -/
theorem marks_proper {used rest : List Symbol} {marks : List Mark} (h : R.Writes s) (hs : s = used ++ rest)
    (hmarks : used.map mark = marks) : ∀ m ∈ marks, m.Proper R := by
  intro m hm
  rw [← hmarks] at hm
  obtain ⟨sym, hsym, rfl⟩ := List.mem_map.1 hm
  refine mark_proper h ?_
  rw [hs]
  exact List.mem_append_left _ hsym

end Marks

theorem wordValue?_plain {w : Word} {v : Value} (h : wordValue? w = some v) : v.Plain := by
  unfold wordValue? at h
  split at h <;> cases h <;> trivial

section Phrases

variable {R : Rules} {env : Context}

theorem call?_proper {r : Routine} {es : List Expr} {e : Expr} (h : call? r es = some e) (hr : R.name r.name)
    (hes : AllProper R es) : e.Proper R := by
  unfold call? at h
  split at h
  · cases h
    exact ⟨hr, hes⟩
  · cases h

mutual

/-- What a phrase of proper marks means is proper. -/
theorem Phrase.proper_of_meaning : (p : Phrase) → ∀ {e : Expr}, (∀ m ∈ p.render, m.Proper R) →
    p.meaning? env = some e → e.Proper R
  | .number v, _, hm, h | .text v, _, hm, h => by
    cases h
    exact hm _ (List.mem_singleton_self _)
  | .word w, _, _, h => by
    rw [Phrase.meaning?] at h
    obtain ⟨v, hv, rfl⟩ := Option.map_eq_some_iff.1 h
    exact wordValue?_plain hv
  | .name n, _, hm, h => by
    have hn : R.name n := hm _ (List.mem_singleton_self _)
    rw [Phrase.meaning?, Context.name?] at h
    -- a variable, or a call without arguments
    split at h
    · cases h
      exact hn
    · obtain ⟨r, hr, h⟩ := Option.bind_eq_some_iff.1 h
      exact call?_proper h (by rw [function?_name hr]; exact hn) trivial
  | .apply n arguments, _, hm, h => by
    simp only [Phrase.render, List.cons_append, List.forall_mem_cons, List.forall_mem_append] at hm
    rw [Phrase.meaning?] at h
    obtain ⟨r, hr, h⟩ := Option.bind_eq_some_iff.1 h
    obtain ⟨es, hes, h⟩ := Option.bind_eq_some_iff.1 h
    exact call?_proper h (by rw [function?_name hr]; exact hm.1) (proper_of_list arguments hm.2.2.1 hes)
  | .group p, _, hm, h => by
    simp only [Phrase.render, List.cons_append, List.forall_mem_cons, List.forall_mem_append] at hm
    exact p.proper_of_meaning hm.2.1 h
  | .signed sign p, _, hm, h => by
    simp only [Phrase.render, List.forall_mem_cons] at hm
    rw [Phrase.meaning?] at h
    obtain ⟨e, he, rfl⟩ := Option.map_eq_some_iff.1 h
    have hproper := p.proper_of_meaning hm.2 he
    cases sign <;> exact hproper
  | .factorial p, _, hm, h => by
    simp only [Phrase.render, List.forall_mem_append] at hm
    rw [Phrase.meaning?] at h
    obtain ⟨e, he, rfl⟩ := Option.map_eq_some_iff.1 h
    have hproper := p.proper_of_meaning hm.1 he
    exact hproper
  | .binary op l r, _, hm, h => by
    simp only [Phrase.render, List.forall_mem_cons, List.forall_mem_append] at hm
    rw [Phrase.meaning?] at h
    obtain ⟨x, hx, h⟩ := Option.bind_eq_some_iff.1 h
    obtain ⟨y, hy, h⟩ := Option.bind_eq_some_iff.1 h
    cases h
    exact ⟨l.proper_of_meaning hm.1 hx, r.proper_of_meaning hm.2.2 hy⟩
  | .conjunction first rest, _, hm, h => by
    simp only [Phrase.render, List.forall_mem_append] at hm
    rw [Phrase.meaning?] at h
    obtain ⟨x, hx, h⟩ := Option.bind_eq_some_iff.1 h
    obtain ⟨xs, hxs, h⟩ := Option.bind_eq_some_iff.1 h
    cases h
    exact ⟨first.proper_of_meaning hm.1 hx, proper_of_each rest hm.2 hxs⟩
  | .function w p, _, hm, h => by
    simp only [Phrase.render, List.cons_append, List.forall_mem_cons, List.forall_mem_append] at hm
    rw [Phrase.meaning?] at h
    obtain ⟨op, _, h⟩ := Option.bind_eq_some_iff.1 h
    obtain ⟨x, hx, h⟩ := Option.bind_eq_some_iff.1 h
    cases h
    have hproper := p.proper_of_meaning hm.2.2.1 hx
    exact hproper
  | .choice c p q, _, hm, h => by
    simp only [Phrase.render, List.cons_append, List.append_assoc, List.forall_mem_cons, List.forall_mem_append] at hm
    obtain ⟨_, _, hc, _, hp, _, hq, _⟩ := hm
    rw [Phrase.meaning?] at h
    obtain ⟨x, hx, h⟩ := Option.bind_eq_some_iff.1 h
    obtain ⟨y, hy, h⟩ := Option.bind_eq_some_iff.1 h
    obtain ⟨z, hz, h⟩ := Option.bind_eq_some_iff.1 h
    cases h
    exact ⟨c.proper_of_meaning hc hx, p.proper_of_meaning hp hy, q.proper_of_meaning hq hz⟩
  | .dialog d gaps, _, hm, h => by
    simp only [Phrase.render, List.cons_append, List.forall_mem_cons, List.forall_mem_append] at hm
    rw [Phrase.meaning?] at h
    obtain ⟨slots, hs, rfl⟩ := Option.map_eq_some_iff.1 h
    exact proper_of_gaps gaps hm.2.2.1 hs

theorem proper_of_list : (ps : List Phrase) → ∀ {es : List Expr}, (∀ m ∈ renderList ps, m.Proper R) →
    meanings? env ps = some es → AllProper R es
  | [], _, _, h => by cases h; trivial
  | p :: rest, _, hm, h => by
    rw [renderList, List.forall_mem_append] at hm
    rw [meanings?] at h
    obtain ⟨x, hx, h⟩ := Option.bind_eq_some_iff.1 h
    obtain ⟨xs, hxs, h⟩ := Option.bind_eq_some_iff.1 h
    cases h
    exact ⟨p.proper_of_meaning hm.1 hx, proper_of_each rest hm.2 hxs⟩

theorem proper_of_each : (ps : List Phrase) → ∀ {m₀ : Mark} {es : List Expr},
    (∀ m ∈ renderEach m₀ ps, m.Proper R) → meanings? env ps = some es → AllProper R es
  | [], _, _, _, h => by cases h; trivial
  | p :: rest, _, _, hm, h => by
    rw [renderEach, List.cons_append, List.forall_mem_cons, List.forall_mem_append] at hm
    rw [meanings?] at h
    obtain ⟨x, hx, h⟩ := Option.bind_eq_some_iff.1 h
    obtain ⟨xs, hxs, h⟩ := Option.bind_eq_some_iff.1 h
    cases h
    exact ⟨p.proper_of_meaning hm.2.1 hx, proper_of_each rest hm.2.2 hxs⟩

theorem proper_of_gaps : (gaps : List Gap) → ∀ {slots : List Slot}, (∀ m ∈ renderGaps gaps, m.Proper R) →
    slotsOf? env gaps = some slots → SlotsProper R slots
  | [], _, _, h => by cases h; trivial
  | g :: rest, _, hm, h => by
    rw [renderGaps, List.forall_mem_append] at hm
    rw [slotsOf?] at h
    obtain ⟨x, hx, h⟩ := Option.bind_eq_some_iff.1 h
    obtain ⟨xs, hxs, h⟩ := Option.bind_eq_some_iff.1 h
    cases h
    exact ⟨g.proper_of_slot hm.1 hx, proper_of_moreGaps rest hm.2 hxs⟩

theorem proper_of_moreGaps : (gaps : List Gap) → ∀ {slots : List Slot}, (∀ m ∈ renderMoreGaps gaps, m.Proper R) →
    slotsOf? env gaps = some slots → SlotsProper R slots
  | [], _, _, h => by cases h; trivial
  | g :: rest, _, hm, h => by
    rw [renderMoreGaps, List.cons_append, List.forall_mem_cons, List.forall_mem_append] at hm
    rw [slotsOf?] at h
    obtain ⟨x, hx, h⟩ := Option.bind_eq_some_iff.1 h
    obtain ⟨xs, hxs, h⟩ := Option.bind_eq_some_iff.1 h
    cases h
    exact ⟨g.proper_of_slot hm.2.1 hx, proper_of_moreGaps rest hm.2.2 hxs⟩

theorem Gap.proper_of_slot : (g : Gap) → ∀ {slot : Slot}, (∀ m ∈ g.render, m.Proper R) →
    g.slot? env = some slot → slot.Proper R
  | .omitted, _, _, h => by cases h; trivial
  | .given p, _, hm, h => by
    rw [Gap.slot?] at h
    obtain ⟨e, he, rfl⟩ := Option.map_eq_some_iff.1 h
    exact p.proper_of_meaning hm he

end

end Phrases

/-! ## Parts of statements -/

section Parts

variable {R : Rules} {env : Context} {s r : List Symbol}

theorem expression_proper {p : Parsed Expr s.length} (hs : R.Writes s) (h : expression env s = .ok p) :
    p.value.Proper R := by
  have hp : Parsed.plain (expression env s) = .ok (p.value, p.rest) := by rw [h]; rfl
  obtain ⟨used, hused, phrase, _, _, hmarks, hm⟩ := expression_reads hp
  exact phrase.proper_of_meaning (marks_proper hs hused hmarks) hm

theorem arguments_proper {es : List Expr} (hs : R.Writes s) (h : Parsed.plain (arguments env s) = .ok (es, r)) :
    AllProper R es := by
  obtain ⟨used, hused, _, ps, _, hmarks, hm⟩ :=
    (readsBelow env (s.length + 1)).arguments s (Nat.lt_succ_self _) es r h
  exact proper_of_list ps (marks_proper hs hused hmarks) hm

theorem slots_proper {d : Dialog} {found : List Slot} (hs : R.Writes s)
    (h : Passed.plain (slots env d 0 s) = .ok (found, r)) : SlotsProper R found := by
  obtain ⟨used, hused, g, gaps, _, _, hmarks, hm⟩ :=
    (readsBelow env (s.length + 1)).slots d 0 s (Nat.lt_succ_self _) (Nat.zero_le _) found r h
  exact proper_of_gaps (g :: gaps) (marks_proper hs hused hmarks) hm

theorem callArguments_proper {inExpression : Bool} {es : List Expr} (hs : R.Writes s)
    (h : Passed.plain (callArguments env inExpression s) = .ok (es, r)) : AllProper R es := by
  cases callArguments_form h with
  | absent | empty => trivial
  | bare h => exact arguments_proper hs h
  | enclosed _ h => exact arguments_proper hs.rest h

theorem dialogSlots_proper {d : Dialog} {found : List Slot} {l : r.length ≤ s.length} (hs : R.Writes s)
    (h : dialogSlots env d true s = .ok ⟨found, r, l⟩) : SlotsProper R found := by
  cases dialogSlots_form h with
  | absent | empty => trivial
  | bare h => exact slots_proper hs h
  | enclosed _ h => exact slots_proper hs.rest h

theorem constantValue_plain {negative : Bool} {sym : Symbol} {v : Value} (hs : R.Writes s) (hsym : sym ∈ s)
    (h : constantValue? negative sym = some v) : v.Plain := by
  unfold constantValue? at h
  split at h
  · cases h
    trivial
  · rename_i w htoken hvalue
    split at h
    · cases h
    · cases h
      obtain ⟨w, hw, hplain⟩ := hs.values sym hsym (.inr htoken)
      rw [hvalue] at hw
      cases hw
      exact hplain
  · cases h

theorem ConstantForm.plain {d : String × Value} (h : ConstantForm s d r) (hs : R.Writes s) : d.2.Plain := by
  cases h with
  | literal _ _ hv | negated _ _ _ hv => exact constantValue_plain hs (by simp) hv

theorem ConstantsForm.plain {names names' : Scopes} {found : List (String × Value)}
    (h : ConstantsForm names s found names' r) (hs : R.Writes s) : ∀ d ∈ found, d.2.Plain := by
  induction h with
  | one hfirst => exact List.forall_mem_singleton.2 (hfirst.plain hs)
  | more hfirst _ _ ih =>
    have hsuffix := (List.suffix_cons _ _).trans (hfirst.obeys hs.names).1
    exact List.forall_mem_cons.2 ⟨hfirst.plain hs, ih (hs.suffix hsuffix)⟩

theorem GuardForm.proper {guard : Option Guard} (hs : R.Writes s) (h : GuardForm env s guard r) :
    ∀ g ∈ guard, g.condition.Proper R := by
  cases h with
  | absent => rintro _ ⟨⟩
  | given he =>
    rintro g ⟨⟩
    exact expression_proper hs.rest he

theorem closeDo_proper {hasHead optional : Bool} {guard : Option Guard} {l : r.length ≤ s.length} (hs : R.Writes s)
    (h : closeDo env hasHead optional s = .ok ⟨guard, r, l⟩) : ∀ g ∈ guard, g.condition.Proper R := by
  obtain ⟨rfl, rfl⟩ | ⟨word, rest, rfl, hguard⟩ := closeDo_form h
  · rintro _ ⟨⟩
  · exact hguard.proper hs.rest

theorem StepForm.proper {step : Option Expr} (hs : R.Writes s) (h : StepForm env s step r) :
    ∀ e ∈ step, e.Proper R := by
  cases h with
  | absent => rintro _ ⟨⟩
  | given he =>
    rintro x ⟨⟩
    exact expression_proper hs.rest he

theorem CountForm.proper {counter : String} {start limit : Expr} {step : Option Expr} {names : Scopes}
    (hs : R.Writes s) (h : CountForm env names s counter start limit step r) :
    R.name counter ∧ start.Proper R ∧ limit.Proper R ∧ ∀ e ∈ step, e.Proper R := by
  obtain ⟨hcounter, _, hstart, hlimit, hstep⟩ := h
  have hs₁ := hs.rest.rest
  have hs₂ := hs₁.suffix ((List.suffix_cons ..).trans (expression_obeys (R := R) hstart).1)
  have hs₃ := hs₂.suffix (expression_obeys (R := R) hlimit).1
  exact ⟨hs.names _ List.mem_cons_self hcounter, expression_proper hs₁ hstart, expression_proper hs₂ hlimit,
    hstep.proper hs₃⟩

end Parts

/-! ## Blocks -/

theorem block_suffix {env : Context} {at_ : Place} {stops : List Word} {a : Address} {s : List Symbol}
    {p : Passed (Block × Scopes) s.length} (h : block env at_ stops a s = .ok p) : p.rest <:+ s :=
  (blocksComply ⟨fun _ => True, fun _ => True⟩ _ (Nat.lt_succ_self _) (fun _ _ _ => trivial) h).1

/-- Blocks of fewer than `n` symbols are proper. -/
def BlocksProper (R : Rules) (n : Nat) : Prop :=
  ∀ {env : Context} {at_ : Place} {stops : List Word} {a : Address} {s : List Symbol}
    {p : Passed (Block × Scopes) s.length}, s.length < n → R.Writes s → block env at_ stops a s = .ok p →
    p.value.1.Proper R

section Blocks

variable {R : Rules} {n : Nat} (ih : BlocksProper R n) {env : Context} {at_ : Place} {a : Address} {sym : Symbol}
  {rest : List Symbol}

include ih

theorem statement_proper {p : Passed (Stmt × Scopes) rest.length} (hlen : rest.length < n)
    (hs : R.Writes (sym :: rest)) (h : statement env at_ a sym rest = .ok p) : p.value.1.Proper R := by
  have hrest : R.Writes rest := hs.rest
  obtain ⟨⟨stmt, names⟩, r, l⟩ := p
  cases statement_form h with
  | share | declare | exitLoop | exitRoutine | notify => trivial
  | constants hnames => exact (constantList_form rest hnames).plain hrest
  | @routine _ _ _ _ _ l₁ _ _ _ _ _ _ _ _ hhead _ hbody =>
    have hbody := ih (Nat.lt_of_le_of_lt l₁ hlen) (hrest.suffix (routineHead_obeys hhead hrest.names).1) hbody
    exact hbody
  | @branch _ _ _ l₁ word _ _ _ _ _ _ hcondition hthen _ hyes =>
    have s₂ : word.rest <:+ rest := (require_suffix hthen).1.trans (expression_obeys (R := R) hcondition).1
    have hyes := ih (Nat.lt_trans word.shorter (Nat.lt_trans l₁ hlen)) (hrest.suffix s₂) hyes
    exact ⟨expression_proper hrest hcondition, hyes⟩
  | @branchElse _ _ _ _ l₁ word _ _ _ _ _ l₃ _ _ _ _ hcondition hthen _ hyes _ hno =>
    have s₂ : word.rest <:+ rest := (require_suffix hthen).1.trans (expression_obeys (R := R) hcondition).1
    have hlt : word.rest.length < n := Nat.lt_trans word.shorter (Nat.lt_trans l₁ hlen)
    have s₄ := (List.suffix_cons _ _).trans ((block_suffix hyes).trans s₂)
    have hno := ih (Nat.lt_trans (Nat.lt_of_succ_le l₃) hlt) (hrest.suffix s₄) hno
    exact ⟨expression_proper hrest hcondition, ih hlt (hrest.suffix s₂) hyes, hno⟩
  | @countLoop _ _ _ _ _ _ _ _ l₁ _ _ _ _ hhead hbody =>
    obtain ⟨hcounter, hstart, hlimit, hstep⟩ := (forHead_form hhead).proper hrest
    have hbody := ih (Nat.lt_of_le_of_lt l₁ hlen) (hrest.suffix ((forHead_form hhead).obeys hrest.names).1) hbody
    exact ⟨hcounter, hstart, hlimit, hstep, hbody⟩
  | @guardLoop _ _ _ _ _ _ l₁ _ _ _ _ hhead hbody hclose =>
    have s₁ := ((loopGuard_form hhead).obeys (R := R)).1
    have htail := closeDo_proper (hrest.suffix ((block_suffix hbody).trans s₁)) hclose
    exact ⟨(loopGuard_form hhead).proper hrest, ih (Nat.lt_of_le_of_lt l₁ hlen) (hrest.suffix s₁) hbody, htail⟩
  | print he =>
    rintro x ⟨⟩
    exact expression_proper hrest he
  | printNone => rintro _ ⟨⟩
  | dialog hslots =>
    have hslots := dialogSlots_proper hrest hslots
    exact hslots
  | assign hname heq _ _ he =>
    subst heq
    exact ⟨hs.names sym List.mem_cons_self hname, expression_proper hrest.rest he⟩
  | call _ hcall =>
    have hproper := callArguments_proper hrest (call_parts hcall).2.1
    exact hproper

theorem block_proper {stops : List Word} {s : List Symbol} {p : Passed (Block × Scopes) s.length}
    (hlen : s.length ≤ n) (hs : R.Writes s) (h : block env at_ stops a s = .ok p) : p.value.1.Proper R := by
  obtain ⟨⟨b, names⟩, r, l⟩ := p
  cases block_form h with
  | nil => trivial
  | delimiter _ hb =>
    have hproper := ih hlen hs.rest hb
    exact hproper
  | @cons _ _ _ _ _ _ _ _ l₁ _ hfirst _ hmore =>
    have s₁ := (statement_complies (blocksComply R n) hlen hs.names hfirst).1
    exact ⟨statement_proper ih hlen hs hfirst, ih (Nat.lt_of_le_of_lt l₁ hlen) (hs.rest.suffix s₁) hmore⟩

end Blocks

theorem blocksProper (R : Rules) (n : Nat) : BlocksProper R n := by
  induction n with
  | zero => intro _ _ _ _ _ _ hlen; omega
  | succ n ih => intro _ _ _ _ _ _ hlen hs h; exact block_proper ih (by omega) hs h

/-- A script is proper under all rules under which the names in its text may have values. -/
theorem script_proper {R : Rules} {text : Symbols} {explicit external : Bool} {shared : Scope} {body : Block}
    (h : script text explicit external shared = .ok body) (htext : R.Writes text.ahead) : body.Proper R := by
  obtain ⟨_, _, _, hblock⟩ := script_form h
  have hproper := blocksProper R _ (Nat.lt_succ_self _) htext hblock
  exact hproper

end Grammar

end MacroBasic
