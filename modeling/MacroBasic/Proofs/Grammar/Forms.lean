/-
What the parser of statements has read when it succeeds. A statement or a block has one of a few forms, each with the
parts that it was put together from. Whatever holds of all scripts is shown form by form, and only here is it looked up
in the parser which forms there are.
-/
import MacroBasic.Grammar.Statement
import MacroBasic.Proofs.Grammar.Reading

namespace MacroBasic.Grammar

/-- A symbol that was required is the first one, and of the class that was asked for. -/
theorem require_form {env : Context} {t : Token} {f : Fault} {sym : Symbol} {s r : List Symbol}
    {l : r.length < s.length} (h : env.require t s f = .ok ⟨sym, r, l⟩) : s = sym :: r ∧ sym.token = t := by
  have hp : Parsed.plain (env.require t s f) = .ok (sym, r) := by rw [h]; rfl
  obtain ⟨hs, ht, _⟩ := require_ok hp
  exact ⟨hs, ht⟩

/-! ## Parameters -/

/-- The forms of parameters: none at all, or some without parentheses, and in parentheses none or some. -/
inductive ParametersForm {β : Type} (inner : List Symbol → List β → List Symbol → Prop) :
    List Symbol → List β → List Symbol → Prop
  | absent (s : List Symbol) : ParametersForm inner s [] s
  | bare {s r : List Symbol} {found : List β} (hfound : inner s found r) : ParametersForm inner s found r
  | empty {o c : Symbol} {r : List Symbol} (hopen : o.token = .openParen) (hclose : c.token = .closeParen) :
      ParametersForm inner (o :: c :: r) [] r
  | enclosed {o c : Symbol} {rest r : List Symbol} {found : List β} (hopen : o.token = .openParen)
      (hfound : inner rest found (c :: r)) (hclose : c.token = .closeParen) : ParametersForm inner (o :: rest) found r

section Parameters

variable {env : Context} {s r : List Symbol}

theorem callArguments_form {inExpression : Bool} {es : List Expr}
    (h : Passed.plain (callArguments env inExpression s) = .ok (es, r)) :
    ParametersForm (fun s es r => Parsed.plain (arguments env s) = .ok (es, r)) s es r := by
  cases s with
  | nil =>
    rw [plain_callArguments_nil] at h
    cases h
    exact .absent []
  | cons sym rest =>
    rw [plain_callArguments_cons] at h
    split at h
    · rename_i hopen
      obtain ⟨_, _, h⟩ := bind_eq_ok.1 h
      split at h
      · obtain ⟨⟨c, r₁⟩, h₁, h⟩ := bind_eq_ok.1 h
        cases h
        obtain ⟨rfl, hclose, _⟩ := require_ok h₁
        exact .empty hopen hclose
      · obtain ⟨⟨found, r₁⟩, h₁, h⟩ := bind_eq_ok.1 h
        obtain ⟨⟨c, r₂⟩, h₂, h⟩ := bind_eq_ok.1 h
        cases h
        obtain ⟨rfl, hclose, _⟩ := require_ok h₂
        exact .enclosed hopen h₁ hclose
    · split at h
      · exact .bare h
      · cases h
        exact .absent _

theorem dialogSlots_form {d : Dialog} {found : List Slot} {l : r.length ≤ s.length}
    (h : dialogSlots env d true s = .ok ⟨found, r, l⟩) :
    ParametersForm (fun s found r => Passed.plain (slots env d 0 s) = .ok (found, r)) s found r := by
  have hp : Passed.plain (dialogSlots env d true s) = .ok (found, r) := by rw [h]; rfl
  cases s with
  | nil =>
    rw [dialogSlots] at hp
    cases hp
    exact .absent []
  | cons sym rest =>
    rw [plain_dialogSlots_cons] at hp
    split at hp
    · rename_i hopen
      obtain ⟨_, _, hp⟩ := bind_eq_ok.1 hp
      split at hp
      · obtain ⟨⟨c, r₁⟩, h₁, hp⟩ := bind_eq_ok.1 hp
        cases hp
        obtain ⟨rfl, hclose, _⟩ := require_ok h₁
        exact .empty hopen hclose
      · obtain ⟨⟨found, r₁⟩, h₁, hp⟩ := bind_eq_ok.1 hp
        obtain ⟨⟨c, r₂⟩, h₂, hp⟩ := bind_eq_ok.1 hp
        cases hp
        obtain ⟨rfl, hclose, _⟩ := require_ok h₂
        exact .enclosed hopen h₁ hclose
    · split at hp
      · cases hp
      · split at hp
        · exact .bare hp
        · cases hp
          exact .absent _

end Parameters

/-! ## Declarations -/

/-- A list of names, each of them declared as it is met. -/
inductive NamesForm (declare : Scopes → Symbol → Except Fault Scopes) :
    Scopes → List Symbol → List String → Scopes → List Symbol → Prop
  | one {names names' : Scopes} {sym : Symbol} {r : List Symbol} (hsym : sym.token = .name)
      (hdeclare : declare names sym = .ok names') : NamesForm declare names (sym :: r) [sym.text] names' r
  | more {names names' names'' : Scopes} {sym comma : Symbol} {rest r : List Symbol} {found : List String}
      (hsym : sym.token = .name) (hdeclare : declare names sym = .ok names') (hcomma : comma.token = .comma)
      (hmore : NamesForm declare names' rest found names'' r) :
      NamesForm declare names (sym :: comma :: rest) (sym.text :: found) names'' r

theorem nameList_form {declare : Scopes → Symbol → Except Fault Scopes} :
    (s : List Symbol) → ∀ {env : Context} {found : List String} {names : Scopes} {r : List Symbol}
      {l : r.length ≤ s.length}, nameList declare env s = .ok ⟨(found, names), r, l⟩ →
      NamesForm declare env.names s found names r
  -- a name is read together with the comma behind it, so the list is taken apart two symbols at a time
  | [], _, _, _, _, _, h => by rw [nameList] at h; cases h
  | [sym], _, _, _, _, _, h => by
    rw [nameList] at h
    split at h
    · rename_i hsym
      obtain ⟨names, hdeclare, h⟩ := bind_eq_ok.1 h
      obtain ⟨_, _, h⟩ := bind_eq_ok.1 h
      rw [moreNames] at h
      cases h
      exact .one hsym hdeclare
    · cases h
  | sym :: comma :: rest, _, _, _, _, _, h => by
    rw [nameList] at h
    split at h
    · rename_i hsym
      obtain ⟨names, hdeclare, h⟩ := bind_eq_ok.1 h
      obtain ⟨_, _, h⟩ := bind_eq_ok.1 h
      rw [moreNames] at h
      split at h
      · rename_i hcomma
        obtain ⟨_, hbehind, h⟩ := bind_eq_ok.1 h
        obtain ⟨_, _, hbehind⟩ := bind_eq_ok.1 hbehind
        obtain ⟨⟨⟨found, names'⟩, r, l⟩, hlist, hbehind⟩ := bind_eq_ok.1 hbehind
        cases hbehind
        cases h
        exact .more hsym hdeclare hcomma (nameList_form rest hlist)
      · cases h
        exact .one hsym hdeclare
    · cases h

/-- The forms of the definition of a constant. -/
inductive ConstantForm : List Symbol → String × Value → List Symbol → Prop
  | literal {name equal sym : Symbol} {v : Value} {r : List Symbol} (hname : name.token = .name)
      (hequal : equal.token = .operator (.binary .equal)) (hv : constantValue? false sym = some v) :
      ConstantForm (name :: equal :: sym :: r) (name.text, v) r
  | negated {name equal minus sym : Symbol} {v : Value} {r : List Symbol} (hname : name.token = .name)
      (hequal : equal.token = .operator (.binary .equal)) (hminus : minus.token = .operator (.binary .subtract))
      (hv : constantValue? true sym = some v) : ConstantForm (name :: equal :: minus :: sym :: r) (name.text, v) r

/-- A list of definitions of constants, each of them declared as it is met. -/
inductive ConstantsForm : Scopes → List Symbol → List (String × Value) → Scopes → List Symbol → Prop
  | one {names : Scopes} {s r : List Symbol} {d : String × Value} (hfirst : ConstantForm s d r) :
      ConstantsForm names s [d] (names.allocate { name := d.1, kind := .constant, value := d.2 }) r
  | more {names names' : Scopes} {comma : Symbol} {s rest r : List Symbol} {d : String × Value}
      {found : List (String × Value)} (hfirst : ConstantForm s d (comma :: rest)) (hcomma : comma.token = .comma)
      (hmore : ConstantsForm (names.allocate { name := d.1, kind := .constant, value := d.2 }) rest found names' r) :
      ConstantsForm names s (d :: found) names' r

section Constants

variable {env : Context}

theorem constantLiteral_form {name : Symbol} {negative : Bool} {s r : List Symbol} {v : Value} {l : r.length < s.length}
    (h : constantLiteral env name negative s = .ok ⟨v, r, l⟩) :
    ∃ sym, s = sym :: r ∧ constantValue? negative sym = some v := by
  unfold constantLiteral at h
  split at h
  · cases h
  · rename_i sym rest
    split at h
    · cases h
    · rename_i hv
      split at h
      · cases h
      · obtain ⟨_, _, h⟩ := bind_eq_ok.1 h
        cases h
        exact ⟨sym, rfl, hv⟩

theorem minusSign_form {negative : Bool} {s r : List Symbol} {l : r.length ≤ s.length}
    (h : minusSign env s = .ok ⟨negative, r, l⟩) :
    negative = false ∧ r = s ∨
      negative = true ∧ ∃ minus, s = minus :: r ∧ minus.token = .operator (.binary .subtract) := by
  unfold minusSign at h
  split at h
  · cases h
    exact .inl ⟨rfl, rfl⟩
  · split at h
    · rename_i minus _ hminus
      obtain ⟨_, _, h⟩ := bind_eq_ok.1 h
      cases h
      exact .inr ⟨rfl, minus, rfl, hminus⟩
    · cases h
      exact .inl ⟨rfl, rfl⟩

theorem constantList_form (s : List Symbol) {env : Context} {found : List (String × Value)} {names : Scopes}
    {r : List Symbol} {l : r.length < s.length} (h : constantList env s = .ok ⟨(found, names), r, l⟩) :
    ConstantsForm env.names s found names r := by
  rw [constantList] at h
  obtain ⟨⟨name, r₁, l₁⟩, h₁, h⟩ := bind_eq_ok.1 h
  obtain ⟨⟨equal, r₂, l₂⟩, h₂, h⟩ := bind_eq_ok.1 h
  obtain ⟨⟨negative, r₃, l₃⟩, h₃, h⟩ := bind_eq_ok.1 h
  obtain ⟨⟨v, r₄, l₄⟩, h₄, h⟩ := bind_eq_ok.1 h
  obtain ⟨⟨⟨more, names⟩, r₅, l₅⟩, h₅, h⟩ := bind_eq_ok.1 h
  cases h
  have hfirst : ConstantForm s (name.text, v) r₄ := by
    obtain ⟨rfl, hname⟩ := require_form h₁
    obtain ⟨rfl, hequal⟩ := require_form h₂
    obtain ⟨sym, rfl, hv⟩ := constantLiteral_form h₄
    obtain ⟨rfl, rfl⟩ | ⟨rfl, minus, rfl, hminus⟩ := minusSign_form h₃
    · exact .literal hname hequal hv
    · exact .negated hname hequal hminus hv
  cases r₄ with
  | nil =>
    rw [moreConstants] at h₅
    cases h₅
    exact .one hfirst
  | cons comma rest =>
    rw [moreConstants] at h₅
    split at h₅
    · rename_i hcomma
      obtain ⟨_, _, h₅⟩ := bind_eq_ok.1 h₅
      obtain ⟨⟨⟨more, names⟩, r, l⟩, hmore, h₅⟩ := bind_eq_ok.1 h₅
      cases h₅
      have : rest.length < s.length := by simp only [List.length_cons] at l₄; omega
      exact .more hfirst hcomma (constantList_form rest hmore)
    · cases h₅
      exact .one hfirst
termination_by s.length

end Constants

/-! ## Heads and ends of loops -/

/-- The forms of the place where a loop may have a condition. -/
inductive GuardForm (env : Context) : List Symbol → Option Guard → List Symbol → Prop
  | absent (s : List Symbol) : GuardForm env s none s
  | given {word : Symbol} {rest r : List Symbol} {e : Expr} {l : r.length < rest.length}
      (he : expression env rest = .ok ⟨e, r, l⟩) :
      GuardForm env (word :: rest) (some ⟨word.token = .word .untilWord, e⟩) r

/-- The forms of the place where a counting loop may have a step. -/
inductive StepForm (env : Context) : List Symbol → Option Expr → List Symbol → Prop
  | absent (s : List Symbol) : StepForm env s none s
  | given {word : Symbol} {rest r : List Symbol} {e : Expr} {l : r.length < rest.length}
      (he : expression env rest = .ok ⟨e, r, l⟩) : StepForm env (word :: rest) (some e) r

/-- The form of the head of a counting loop, of the names that are visible when its counter is declared. -/
inductive CountForm (env : Context) (names : Scopes) :
    List Symbol → String → Expr → Expr → Option Expr → List Symbol → Prop
  | mk {counter equal word : Symbol} {r₁ r₂ r₃ r : List Symbol} {start limit : Expr} {step : Option Expr}
      {l₁ : (word :: r₂).length < r₁.length} {l₂ : r₃.length < r₂.length} (hcounter : counter.token = .name)
      (hnames : checkAssignable env counter = .ok names)
      (hstart : expression { env with names := names } r₁ = .ok ⟨start, word :: r₂, l₁⟩)
      (hlimit : expression { env with names := names } r₂ = .ok ⟨limit, r₃, l₂⟩)
      (hstep : StepForm { env with names := names } r₃ step r) :
      CountForm env names (counter :: equal :: r₁) counter.text start limit step r

section Loops

variable {env : Context} {s r : List Symbol}

theorem loopGuard_form {guard : Option Guard} {l : r.length ≤ s.length} (h : loopGuard env s = .ok ⟨guard, r, l⟩) :
    GuardForm env s guard r := by
  unfold loopGuard at h
  split at h
  · cases h
    exact .absent []
  · split at h
    · obtain ⟨_, _, h⟩ := bind_eq_ok.1 h
      obtain ⟨⟨e, r, l⟩, he, h⟩ := bind_eq_ok.1 h
      cases h
      exact .given he
    · cases h
      exact .absent _

/-- The word that ends a loop is absent, or what is behind it is the place of a condition. -/
theorem closeDo_form {hasHead optional : Bool} {guard : Option Guard} {l : r.length ≤ s.length}
    (h : closeDo env hasHead optional s = .ok ⟨guard, r, l⟩) :
    guard = none ∧ r = s ∨ ∃ word rest, s = word :: rest ∧ GuardForm env rest guard r := by
  unfold closeDo at h
  simp only at h
  split at h
  · split at h
    · cases h
      exact .inl ⟨rfl, rfl⟩
    · cases h
  · rename_i word rest
    split at h
    · obtain ⟨_, _, h⟩ := bind_eq_ok.1 h
      split at h
      · cases h
      · obtain ⟨⟨guard, r, l⟩, hguard, h⟩ := bind_eq_ok.1 h
        cases h
        exact .inr ⟨word, rest, rfl, loopGuard_form hguard⟩
    · split at h
      · cases h
        exact .inl ⟨rfl, rfl⟩
      · cases h

theorem forStep_form {step : Option Expr} {l : r.length ≤ s.length} (h : forStep env s = .ok ⟨step, r, l⟩) :
    StepForm env s step r := by
  unfold forStep at h
  split at h
  · cases h
    exact .absent []
  · split at h
    · obtain ⟨_, _, h⟩ := bind_eq_ok.1 h
      obtain ⟨⟨e, r, l⟩, he, h⟩ := bind_eq_ok.1 h
      cases h
      exact .given he
    · cases h
      exact .absent _

theorem forHead_form {counter : String} {start limit : Expr} {step : Option Expr} {names : Scopes}
    {l : r.length ≤ s.length} (h : forHead env s = .ok ⟨((counter, start, limit, step), names), r, l⟩) :
    CountForm env names s counter start limit step r := by
  unfold forHead at h
  split at h
  · cases h
  · split at h
    · rename_i hcounter
      obtain ⟨names', hnames, h⟩ := bind_eq_ok.1 h
      obtain ⟨_, _, h⟩ := bind_eq_ok.1 h
      obtain ⟨⟨equal, r₁, l₁⟩, h₁, h⟩ := bind_eq_ok.1 h
      obtain ⟨⟨start', r₂, l₂⟩, h₂, h⟩ := bind_eq_ok.1 h
      obtain ⟨⟨word, r₃, l₃⟩, h₃, h⟩ := bind_eq_ok.1 h
      obtain ⟨⟨limit', r₄, l₄⟩, h₄, h⟩ := bind_eq_ok.1 h
      obtain ⟨⟨step', r₅, l₅⟩, h₅, h⟩ := bind_eq_ok.1 h
      cases h
      obtain ⟨rfl, _⟩ := require_form h₁
      obtain ⟨rfl, _⟩ := require_form h₃
      exact .mk hcounter hnames h₂ h₄ (forStep_form h₅)
    · cases h

end Loops

/-! ## Statements -/

/-- The forms of a statement that begins with the symbol `sym` and the symbols `rest` behind it, of the names that are
visible behind it and of the symbols that are left. -/
inductive StatementForm (env : Context) (at_ : Place) (a : Address) (sym : Symbol) (rest : List Symbol) :
    Stmt → Scopes → List Symbol → Prop
  | share {shared : List String} {names : Scopes} {r : List Symbol} {l : r.length ≤ rest.length}
      (hnames : nameList declareShared env rest = .ok ⟨(shared, names), r, l⟩) :
      StatementForm env at_ a sym rest (.share shared) names r
  | declare {declared : List String} {names : Scopes} {r : List Symbol} {l : r.length ≤ rest.length}
      (hnames : nameList declareVariable env rest = .ok ⟨(declared, names), r, l⟩) :
      StatementForm env at_ a sym rest (.declare declared) names r
  | constants {definitions : List (String × Value)} {names : Scopes} {r : List Symbol} {l : r.length < rest.length}
      (hnames : constantList env rest = .ok ⟨(definitions, names), r, l⟩) :
      StatementForm env at_ a sym rest (.constants definitions) names r
  | routine {isFunction : Bool} {name : String} {parameters : List String} {r₁ r₂ : List Symbol}
      {l₁ : r₁.length ≤ rest.length} {l₂ : r₂.length ≤ r₁.length} {outside inside names : Scopes} {body : Block}
      {closed : Passed Unit r₂.length} (hlead : lead sym.token = .routine isFunction)
      (hallowed : at_.declarations = true) (hhead : routineHead env rest = .ok ⟨(name, parameters), r₁, l₁⟩)
      (henter : enterRoutine env.names (.routine name (if isFunction then .function else .sub)
        (a + routineHeadSize isFunction) parameters) = .ok (outside, inside))
      (hbody : block { env with names := inside } ⟨false, true, [], some (if isFunction then .function else .sub)⟩
        routineEnds (a + routineHeadSize isFunction) r₁ = .ok ⟨(body, names), r₂, l₂⟩)
      (hclose : closeRoutine env isFunction r₂ = .ok closed) :
      StatementForm env at_ a sym rest (.routine isFunction name parameters body) outside closed.rest
  | branch {condition : Expr} {r₁ r₃ : List Symbol} {l₁ : r₁.length < rest.length} {word : Parsed Symbol r₁.length}
      {yes : Block} {names : Scopes} {l₃ : r₃.length ≤ word.rest.length} {closed : Passed Unit r₃.length}
      {onLine : Bool} (hlead : lead sym.token = .branch) (hcondition : expression env rest = .ok ⟨condition, r₁, l₁⟩)
      (hthen : env.require (.word .thenWord) r₁ (env.violation r₁ "THEN missing after IF") = .ok word)
      (honLine : onLine = !(env.current word.rest).isNewline)
      (hyes : block env { at_ with singleLine := at_.singleLine || onLine, declarations := false }
        [.elseWord, .endWord, .endIf] (a + condition.size + 1) word.rest = .ok ⟨(yes, names), r₃, l₃⟩)
      (hclose : closeIf { env with names := names } onLine r₃ = .ok closed) :
      StatementForm env at_ a sym rest (.branch condition yes) names closed.rest
  | branchElse {condition : Expr} {r₁ r₃ r₄ : List Symbol} {l₁ : r₁.length < rest.length}
      {word : Parsed Symbol r₁.length} {yes no : Block} {names names' : Scopes} {otherwise : Symbol}
      {l₃ : (otherwise :: r₃).length ≤ word.rest.length} {l₄ : r₄.length ≤ r₃.length} {closed : Passed Unit r₄.length}
      {onLine : Bool} (hlead : lead sym.token = .branch) (hcondition : expression env rest = .ok ⟨condition, r₁, l₁⟩)
      (hthen : env.require (.word .thenWord) r₁ (env.violation r₁ "THEN missing after IF") = .ok word)
      (honLine : onLine = !(env.current word.rest).isNewline)
      (hyes : block env { at_ with singleLine := at_.singleLine || onLine, declarations := false }
        [.elseWord, .endWord, .endIf] (a + condition.size + 1) word.rest = .ok ⟨(yes, names), otherwise :: r₃, l₃⟩)
      (hotherwise : otherwise.token = .word .elseWord)
      (hno : block { env with names := names }
        { at_ with singleLine := at_.singleLine || onLine, declarations := false } [.endWord, .endIf]
        (a + condition.size + 1 + yes.size + 1) r₃ = .ok ⟨(no, names'), r₄, l₄⟩)
      (hclose : closeIf { env with names := names } onLine r₄ = .ok closed) :
      StatementForm env at_ a sym rest (.branchElse condition yes no) names' closed.rest
  | countLoop {counter : String} {start limit : Expr} {step : Option Expr} {names names' : Scopes}
      {r₁ r₂ : List Symbol} {l₁ : r₁.length ≤ rest.length} {l₂ : r₂.length ≤ r₁.length} {body : Block}
      {closed : Passed Unit r₂.length} (hlead : lead sym.token = .countLoop)
      (hhead : forHead env rest = .ok ⟨((counter, start, limit, step), names), r₁, l₁⟩)
      (hbody : block { env with names := names }
        ⟨at_.singleLine || !(env.current r₁).isNewline, false, .forLoop :: at_.loops, at_.routine⟩ [.next]
        (a + countHeadSize start limit step) r₁ = .ok ⟨(body, names'), r₂, l₂⟩)
      (hclose : closeFor { env with names := names } counter (!(env.current r₁).isNewline) r₂ = .ok closed) :
      StatementForm env at_ a sym rest (.countLoop counter start limit step body) names' closed.rest
  | guardLoop {head tail : Option Guard} {names : Scopes} {r₁ r₂ r₃ : List Symbol} {l₁ : r₁.length ≤ rest.length}
      {l₂ : r₂.length ≤ r₁.length} {l₃ : r₃.length ≤ r₂.length} {body : Block} (hlead : lead sym.token = .guardLoop)
      (hhead : loopGuard env rest = .ok ⟨head, r₁, l₁⟩)
      (hbody : block env ⟨at_.singleLine || !(env.current r₁).isNewline, false, .doLoop :: at_.loops, at_.routine⟩
        [.loop] (a + 1 + headSize head) r₁ = .ok ⟨(body, names), r₂, l₂⟩)
      (hclose : closeDo { env with names := names } head.isSome (!(env.current r₁).isNewline) r₂ =
        .ok ⟨tail, r₃, l₃⟩) :
      StatementForm env at_ a sym rest (.guardLoop head body tail) names r₃
  | exitLoop {target : Symbol} {r : List Symbol} {loop : Loop} (hrest : rest = target :: r)
      (htarget : exitTarget? target.token = some (.inl loop)) (hloop : loop ∈ at_.loops) :
      StatementForm env at_ a sym rest (.exitLoop loop (at_.loops.takeWhile (· != loop))) env.names r
  | exitRoutine {target : Symbol} {r : List Symbol} {kind : Kind} (hrest : rest = target :: r)
      (htarget : exitTarget? target.token = some (.inr kind)) (hroutine : at_.routine = some kind) :
      StatementForm env at_ a sym rest .exitRoutine env.names r
  | print {e : Expr} {r : List Symbol} {l : r.length < rest.length} (he : expression env rest = .ok ⟨e, r, l⟩) :
      StatementForm env at_ a sym rest (.print (some e)) env.names r
  | printNone : StatementForm env at_ a sym rest (.print none) env.names rest
  | notify (notice : Notice) : StatementForm env at_ a sym rest (.notify notice) env.names rest
  | dialog {d : Dialog} {slots : List Slot} {r : List Symbol} {l : r.length ≤ rest.length}
      (hslots : dialogSlots env d true rest = .ok ⟨slots, r, l⟩) :
      StatementForm env at_ a sym rest (.dialog d slots) env.names r
  | assign {sign : Symbol} {r₁ r : List Symbol} {op : Option BinaryOperator} {names : Scopes} {e : Expr}
      {l : r.length < r₁.length} (hname : sym.token = .name) (hrest : rest = sign :: r₁)
      (hsign : sign.token = op.elim (.operator (.binary .equal)) .update)
      (hnames : checkAssignable env sym = .ok names)
      (he : expression { env with names := names } r₁ = .ok ⟨e, r, l⟩) :
      StatementForm env at_ a sym rest (.assign sym.text op e) names r
  | call {r : Routine} {arguments : List Expr} {left : List Symbol} {l : left.length ≤ rest.length}
      (hname : sym.token = .name) (hcall : call env sym false rest = .ok ⟨(r, arguments), left, l⟩) :
      StatementForm env at_ a sym rest (.call r arguments) env.names left

section Statements

variable {env : Context} {at_ : Place} {a : Address} {sym : Symbol} {rest : List Symbol} {stmt : Stmt} {names : Scopes}
  {r : List Symbol}

theorem name_of_lead {t : Token} (h : lead t = .name) : t = .name := by
  unfold lead at h
  split at h <;> cases h
  rfl

theorem exitStatement_form {l : r.length ≤ rest.length} (h : exitStatement env at_ rest = .ok ⟨(stmt, names), r, l⟩) :
    StatementForm env at_ a sym rest stmt names r := by
  unfold exitStatement at h
  split at h
  · cases h
  · split at h
    · rename_i target htarget
      obtain ⟨found, hfound, h⟩ := bind_eq_ok.1 h
      obtain ⟨_, _, h⟩ := bind_eq_ok.1 h
      cases h
      cases target with
      | inl loop =>
        rw [exitFrom] at hfound
        split at hfound
        · rename_i hloop
          cases hfound
          exact .exitLoop rfl htarget (List.contains_iff_mem.1 hloop)
        · cases hfound
      | inr kind =>
        rw [exitFrom] at hfound
        split at hfound
        · rename_i hkind
          cases hfound
          exact .exitRoutine rfl htarget hkind
        · cases hfound
    · cases h

theorem printStatement_form {l : r.length ≤ rest.length} (h : printStatement env rest = .ok ⟨(stmt, names), r, l⟩) :
    StatementForm env at_ a sym rest stmt names r := by
  unfold printStatement at h
  split at h
  · obtain ⟨⟨e, r, l⟩, he, h⟩ := bind_eq_ok.1 h
    cases h
    exact .print he
  · cases h
    exact .printNone

theorem callStatement_form {l : r.length ≤ rest.length} (hname : sym.token = .name)
    (h : callStatement env sym rest = .ok ⟨(stmt, names), r, l⟩) : StatementForm env at_ a sym rest stmt names r := by
  unfold callStatement at h
  split at h
  · obtain ⟨⟨⟨routine, arguments⟩, r, l⟩, hcall, h⟩ := bind_eq_ok.1 h
    cases h
    exact .call hname hcall
  · cases h
  · cases h

theorem nameStatement_form {l : r.length ≤ rest.length} (hname : sym.token = .name)
    (h : nameStatement env sym rest = .ok ⟨(stmt, names), r, l⟩) : StatementForm env at_ a sym rest stmt names r := by
  have hassigned (op : Option BinaryOperator) {sign : Symbol} {more : List Symbol}
      (hsign : sign.token = op.elim (.operator (.binary .equal)) .update) {l : r.length ≤ more.length}
      (h : assignment env sym op more = .ok ⟨(stmt, names), r, l⟩) :
      StatementForm env at_ a sym (sign :: more) stmt names r := by
    unfold assignment at h
    obtain ⟨names', hnames, h⟩ := bind_eq_ok.1 h
    obtain ⟨_, _, h⟩ := bind_eq_ok.1 h
    obtain ⟨⟨e, r, l⟩, he, h⟩ := bind_eq_ok.1 h
    cases h
    exact .assign hname rfl hsign hnames he
  unfold nameStatement at h
  split at h
  · exact callStatement_form hname h
  · dsimp only at h
    split at h
    · rename_i hsign
      obtain ⟨⟨⟨stmt, names⟩, r, l⟩, hq, h⟩ := bind_eq_ok.1 h
      cases h
      exact hassigned none hsign hq
    · rename_i op hsign
      obtain ⟨⟨⟨stmt, names⟩, r, l⟩, hq, h⟩ := bind_eq_ok.1 h
      cases h
      exact hassigned (some op) hsign hq
    · exact callStatement_form hname h

theorem branch_form {condition : Expr} {r₁ r₃ : List Symbol} {l₁ : r₁.length < rest.length}
    {word : Parsed Symbol r₁.length} {yes : Block} {names : Scopes} {l₃ : r₃.length ≤ word.rest.length}
    {onLine : Bool} (hlead : lead sym.token = .branch) (hcondition : expression env rest = .ok ⟨condition, r₁, l₁⟩)
    (hthen : env.require (.word .thenWord) r₁ (env.violation r₁ "THEN missing after IF") = .ok word)
    (honLine : onLine = !(env.current word.rest).isNewline)
    (hyes : block env { at_ with singleLine := at_.singleLine || onLine, declarations := false }
      [.elseWord, .endWord, .endIf] (a + condition.size + 1) word.rest = .ok ⟨(yes, names), r₃, l₃⟩)
    {p : Passed (Stmt × Scopes) r₃.length}
    (h : branchRest { env with names := names }
      { at_ with singleLine := at_.singleLine || onLine, declarations := false } onLine condition yes
      (a + condition.size + 1 + yes.size + 1) r₃ = .ok p) :
    StatementForm env at_ a sym rest p.value.1 p.value.2 p.rest := by
  have habsent {q : Passed Unit r₃.length} (hq : closeIf { env with names := names } onLine r₃ = .ok q) :=
    StatementForm.branch hlead hcondition hthen honLine hyes hq
  cases r₃ with
  | nil =>
    rw [branchRest] at h
    obtain ⟨q, hq, h⟩ := bind_eq_ok.1 h
    cases h
    exact habsent hq
  | cons otherwise r₃ =>
    rw [branchRest] at h
    split at h
    · rename_i hotherwise
      obtain ⟨_, _, h⟩ := bind_eq_ok.1 h
      obtain ⟨⟨⟨no, names'⟩, r₄, l₄⟩, hno, h⟩ := bind_eq_ok.1 h
      obtain ⟨q, hq, h⟩ := bind_eq_ok.1 h
      cases h
      exact .branchElse hlead hcondition hthen honLine hyes hotherwise hno hq
    · obtain ⟨q, hq, h⟩ := bind_eq_ok.1 h
      cases h
      exact habsent hq

/-- A statement that has been read has one of the forms. -/
theorem statement_form {l : r.length ≤ rest.length} (h : statement env at_ a sym rest = .ok ⟨(stmt, names), r, l⟩) :
    StatementForm env at_ a sym rest stmt names r := by
  rw [statement.eq_def] at h
  cases hlead : lead sym.token with
  | share =>
    rw [hlead] at h
    dsimp only at h
    split at h
    · cases h
    · obtain ⟨_, _, h⟩ := bind_eq_ok.1 h
      obtain ⟨⟨⟨shared, names⟩, r, l⟩, hnames, h⟩ := bind_eq_ok.1 h
      cases h
      exact .share hnames
  | declare =>
    rw [hlead] at h
    obtain ⟨_, _, h⟩ := bind_eq_ok.1 h
    obtain ⟨⟨⟨declared, names⟩, r, l⟩, hnames, h⟩ := bind_eq_ok.1 h
    cases h
    exact .declare hnames
  | constants =>
    rw [hlead] at h
    obtain ⟨_, _, h⟩ := bind_eq_ok.1 h
    obtain ⟨⟨⟨definitions, names⟩, r, l⟩, hnames, h⟩ := bind_eq_ok.1 h
    cases h
    exact .constants hnames
  | routine isFunction =>
    rw [hlead] at h
    dsimp only at h
    split at h
    · cases h
    · rename_i hallowed
      obtain ⟨_, _, h⟩ := bind_eq_ok.1 h
      obtain ⟨⟨⟨name, parameters⟩, r₁, l₁⟩, hhead, h⟩ := bind_eq_ok.1 h
      obtain ⟨⟨outside, inside⟩, henter, h⟩ := bind_eq_ok.1 h
      obtain ⟨⟨⟨body, names⟩, r₂, l₂⟩, hbody, h⟩ := bind_eq_ok.1 h
      obtain ⟨closed, hclose, h⟩ := bind_eq_ok.1 h
      cases h
      exact .routine hlead (by simpa using hallowed) hhead henter hbody hclose
  | branch =>
    rw [hlead] at h
    obtain ⟨_, _, h⟩ := bind_eq_ok.1 h
    obtain ⟨⟨condition, r₁, l₁⟩, hcondition, h⟩ := bind_eq_ok.1 h
    obtain ⟨⟨word, r₂, l₂⟩, hthen, h⟩ := bind_eq_ok.1 h
    obtain ⟨⟨⟨yes, names⟩, r₃, l₃⟩, hyes, h⟩ := bind_eq_ok.1 h
    obtain ⟨⟨⟨stmt, names'⟩, r, l⟩, hrest, h⟩ := bind_eq_ok.1 h
    cases h
    exact branch_form hlead hcondition hthen rfl hyes hrest
  | countLoop =>
    rw [hlead] at h
    obtain ⟨_, _, h⟩ := bind_eq_ok.1 h
    obtain ⟨⟨⟨⟨counter, start, limit, step⟩, names⟩, r₁, l₁⟩, hhead, h⟩ := bind_eq_ok.1 h
    obtain ⟨⟨⟨body, names'⟩, r₂, l₂⟩, hbody, h⟩ := bind_eq_ok.1 h
    obtain ⟨closed, hclose, h⟩ := bind_eq_ok.1 h
    cases h
    exact .countLoop hlead hhead hbody hclose
  | guardLoop =>
    rw [hlead] at h
    obtain ⟨_, _, h⟩ := bind_eq_ok.1 h
    obtain ⟨⟨head, r₁, l₁⟩, hhead, h⟩ := bind_eq_ok.1 h
    obtain ⟨⟨⟨body, names⟩, r₂, l₂⟩, hbody, h⟩ := bind_eq_ok.1 h
    obtain ⟨⟨tail, r₃, l₃⟩, hclose, h⟩ := bind_eq_ok.1 h
    cases h
    exact .guardLoop hlead hhead hbody hclose
  | exit =>
    rw [hlead] at h
    obtain ⟨_, _, h⟩ := bind_eq_ok.1 h
    exact exitStatement_form h
  | print =>
    rw [hlead] at h
    obtain ⟨_, _, h⟩ := bind_eq_ok.1 h
    exact printStatement_form h
  | notify notice =>
    rw [hlead] at h
    obtain ⟨_, _, h⟩ := bind_eq_ok.1 h
    cases h
    exact .notify notice
  | dialog d =>
    rw [hlead] at h
    obtain ⟨_, _, h⟩ := bind_eq_ok.1 h
    obtain ⟨⟨slots, r, l⟩, hslots, h⟩ := bind_eq_ok.1 h
    cases h
    exact .dialog hslots
  | name =>
    rw [hlead] at h
    obtain ⟨_, _, h⟩ := bind_eq_ok.1 h
    exact nameStatement_form (name_of_lead hlead) h
  | none =>
    rw [hlead] at h
    cases h

end Statements

/-- A call that has been read is that of the routine of its name, with an argument for every parameter. -/
theorem call_parts {env : Context} {sym : Symbol} {rest left : List Symbol} {r : Routine} {arguments : List Expr}
    {l : left.length ≤ rest.length} (h : call env sym false rest = .ok ⟨(r, arguments), left, l⟩) :
    routineOf env sym = .ok r ∧ Passed.plain (callArguments env false rest) = .ok (arguments, left) ∧
      arguments.length = r.parameters.length :=
  call_ok (by rw [h]; rfl)

/-! ## Blocks -/

/-- The forms of a block: it ends where it begins, or behind a delimiter there is a block, or it begins with a
statement. -/
inductive BlockForm (env : Context) (at_ : Place) (stops : List Word) (a : Address) :
    List Symbol → Block → Scopes → List Symbol → Prop
  | nil (s : List Symbol) : BlockForm env at_ stops a s .nil env.names s
  | delimiter {sym : Symbol} {rest r : List Symbol} {b : Block} {names : Scopes} {l : r.length ≤ rest.length}
      (hsym : sym.token = .delimiter) (hb : block env at_ stops a rest = .ok ⟨(b, names), r, l⟩) :
      BlockForm env at_ stops a (sym :: rest) b names r
  | cons {sym : Symbol} {rest r₁ r : List Symbol} {first : Stmt} {more : Block} {names names' : Scopes}
      {l₁ : r₁.length ≤ rest.length} {l : r.length ≤ r₁.length}
      (hfirst : statement env at_ a sym rest = .ok ⟨(first, names), r₁, l₁⟩)
      (hends : endsStatement stops (env.token r₁) = true)
      (hmore : block { env with names := names } at_ stops (a + first.size) r₁ = .ok ⟨(more, names'), r, l⟩) :
      BlockForm env at_ stops a (sym :: rest) (.cons sym.position first more) names' r

/-- A block that has been read has one of the forms. -/
theorem block_form {env : Context} {at_ : Place} {stops : List Word} {a : Address} {s r : List Symbol} {b : Block}
    {names : Scopes} {l : r.length ≤ s.length} (h : block env at_ stops a s = .ok ⟨(b, names), r, l⟩) :
    BlockForm env at_ stops a s b names r := by
  cases s with
  | nil =>
    rw [block] at h
    cases h
    exact .nil []
  | cons sym rest =>
    rw [block] at h
    split at h
    · rename_i hsym
      split at h
      · cases h
        exact .nil _
      · obtain ⟨_, _, h⟩ := bind_eq_ok.1 h
        obtain ⟨⟨⟨b, names⟩, r, l⟩, hb, h⟩ := bind_eq_ok.1 h
        cases h
        exact .delimiter hsym hb
    · split at h
      · cases h
        exact .nil _
      · obtain ⟨⟨⟨first, names⟩, r₁, l₁⟩, hfirst, h⟩ := bind_eq_ok.1 h
        dsimp only at h
        split at h
        · rename_i hends
          obtain ⟨⟨⟨more, names'⟩, r, l⟩, hmore, h⟩ := bind_eq_ok.1 h
          cases h
          exact .cons hfirst hends hmore
        · cases h

/-- A script is a block that all of the text has been read for. -/
theorem script_form {text : Symbols} {explicit external : Bool} {shared : Scope} {body : Block}
    (h : script text explicit external shared = .ok body) :
    ∃ names r l, block ⟨.onBottom shared.unbound, explicit, external, text.ending⟩ ⟨false, true, [], none⟩ [] 0
      text.ahead = .ok ⟨(body, names), r, l⟩ := by
  unfold script at h
  obtain ⟨_, _, h⟩ := bind_eq_ok.1 h
  obtain ⟨⟨⟨found, names⟩, r, l⟩, hblock, h⟩ := bind_eq_ok.1 h
  dsimp only at h
  split at h
  · cases h
    exact ⟨names, r, l, hblock⟩
  · cases h

end MacroBasic.Grammar
