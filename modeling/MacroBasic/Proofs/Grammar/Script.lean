/-
Scripts that the parser gives keep the rules: every name they give a value is spelled in the text, every
routine they call is one they define, and they leave only what they are in.
-/
import MacroBasic.Proofs.Grammar.Compliance
import MacroBasic.Proofs.Grammar.Forms

namespace MacroBasic.Grammar

section Statements

variable {R : Rules} {env : Context} {s r : List Symbol}

/-- A statement that was parsed leaves an end of the symbols. If it defines only routines that may be called,
it obeys, and only such routines are visible behind it. -/
def Complies (R : Rules) (at_ : Place) (a : Address) (names : Scopes) (s : List Symbol) {n : Nat}
    (p : Passed (Stmt × Scopes) n) : Prop :=
  p.rest <:+ s ∧ (R.Offers names → (∀ x ∈ p.value.1.routines a, R.routine x) →
    p.value.1.Obeys R at_.loops at_.routine.isSome ∧ R.Offers p.value.2)

/-! ## Simple statements -/

theorem checkAssignable_offers {sym : Symbol} {names : Scopes} (h : checkAssignable env sym = .ok names)
    (hR : R.Offers env.names) : R.Offers names := by
  unfold checkAssignable at h
  split at h
  · cases h
  · cases h
  · cases h; exact hR
  · split at h
    · cases h
    · cases h; exact hR.declare rfl

/-! ## Heads and ends -/

theorem closeRoutine_suffix {isFunction : Bool} {p : Passed Unit s.length}
    (h : closeRoutine env isFunction s = .ok p) : p.rest <:+ s := by
  unfold closeRoutine at h
  simp only at h
  split at h
  · cases h
  · rename_i sym rest
    by_cases hend : sym.token = .word (if isFunction then .endFunction else .endSub)
    · rw [if_pos hend] at h
      obtain ⟨_, _, h⟩ := bind_eq_ok.1 h
      cases h
      exact List.suffix_cons ..
    · rw [if_neg hend] at h
      by_cases hword : sym.token = .word .endWord
      · rw [if_pos hword] at h
        obtain ⟨_, _, h⟩ := bind_eq_ok.1 h
        obtain ⟨closed, hclosed, h⟩ := bind_eq_ok.1 h
        cases h
        exact suffix_cons (require_suffix hclosed).1
      · rw [if_neg hword] at h
        cases h

theorem closeIf_suffix {optional : Bool} {p : Passed Unit s.length} (h : closeIf env optional s = .ok p) :
    p.rest <:+ s := by
  unfold closeIf at h
  simp only at h
  split at h
  · split at h
    · cases h; exact List.suffix_refl _
    · cases h
  · split at h
    · obtain ⟨_, _, h⟩ := bind_eq_ok.1 h
      cases h
      exact List.suffix_cons ..
    · split at h
      · obtain ⟨_, _, h⟩ := bind_eq_ok.1 h
        obtain ⟨closed, hclosed, h⟩ := bind_eq_ok.1 h
        cases h
        exact suffix_cons (require_suffix hclosed).1
      · split at h
        · cases h; exact List.suffix_refl _
        · cases h

theorem closeFor_suffix {counter : String} {optional : Bool} {p : Passed Unit s.length}
    (h : closeFor env counter optional s = .ok p) : p.rest <:+ s := by
  unfold closeFor at h
  simp only at h
  split at h
  · split at h
    · cases h; exact List.suffix_refl _
    · cases h
  · split at h
    · obtain ⟨_, _, h⟩ := bind_eq_ok.1 h
      obtain ⟨q, hq, h⟩ := bind_eq_ok.1 h
      cases h
      refine suffix_cons ?_
      unfold repeatedCounter at hq
      split at hq
      · cases hq; exact List.suffix_refl _
      · split at hq
        · obtain ⟨_, _, hq⟩ := bind_eq_ok.1 hq
          cases hq
          exact List.suffix_cons ..
        · cases hq; exact List.suffix_refl _
    · split at h
      · cases h; exact List.suffix_refl _
      · cases h

theorem GuardForm.obeys {guard : Option Guard} (h : GuardForm env s guard r) :
    r <:+ s ∧ (R.Offers env.names → ∀ g ∈ guard, g.condition.Obeys R) := by
  cases h with
  | absent => exact ⟨List.suffix_refl _, fun _ _ hg => by cases hg⟩
  | given he =>
    obtain ⟨hr, hobeys⟩ := expression_obeys (R := R) he
    refine ⟨suffix_cons hr, fun hR => ?_⟩
    rintro g ⟨⟩
    exact hobeys hR

theorem closeDo_obeys {hasHead optional : Bool} {guard : Option Guard} {l : r.length ≤ s.length}
    (h : closeDo env hasHead optional s = .ok ⟨guard, r, l⟩) :
    r <:+ s ∧ (R.Offers env.names → ∀ g ∈ guard, g.condition.Obeys R) := by
  obtain ⟨rfl, rfl⟩ | ⟨word, rest, rfl, hguard⟩ := closeDo_form h
  · exact ⟨List.suffix_refl _, fun _ _ hg => by cases hg⟩
  · obtain ⟨hr, hobeys⟩ := hguard.obeys (R := R)
    exact ⟨suffix_cons hr, hobeys⟩

theorem StepForm.obeys {step : Option Expr} (h : StepForm env s step r) :
    r <:+ s ∧ (R.Offers env.names → ∀ e ∈ step, e.Obeys R) := by
  cases h with
  | absent => exact ⟨List.suffix_refl _, fun _ _ hg => by cases hg⟩
  | given he =>
    obtain ⟨hr, hobeys⟩ := expression_obeys (R := R) he
    refine ⟨suffix_cons hr, fun hR => ?_⟩
    rintro x ⟨⟩
    exact hobeys hR

theorem CountForm.obeys {counter : String} {start limit : Expr} {step : Option Expr} {names : Scopes}
    (h : CountForm env names s counter start limit step r) (hs : R.Spells s) :
    r <:+ s ∧ R.name counter ∧ (R.Offers env.names →
      start.Obeys R ∧ limit.Obeys R ∧ (∀ e ∈ step, e.Obeys R) ∧ R.Offers names) := by
  obtain ⟨hcounter, hnames, hstart, hlimit, hstep⟩ := h
  obtain ⟨s₁, o₁⟩ := expression_obeys (R := R) hstart
  obtain ⟨s₂, o₂⟩ := expression_obeys (R := R) hlimit
  obtain ⟨s₃, o₃⟩ := hstep.obeys (R := R)
  have hsuffix := s₃.trans (s₂.trans ((List.suffix_cons ..).trans s₁))
  refine ⟨suffix_cons (suffix_cons hsuffix), hs _ (List.mem_cons_self ..) hcounter, fun hR => ?_⟩
  have hoffers := checkAssignable_offers hnames hR
  exact ⟨o₁ hoffers, o₂ hoffers, o₃ hoffers, hoffers⟩

theorem routineHead_obeys {name : String} {parameters : List String} {r : List Symbol} {l : r.length ≤ s.length}
    (h : routineHead env s = .ok ⟨(name, parameters), r, l⟩) (hs : R.Spells s) :
    r <:+ s ∧ R.name name ∧ R.Parameters parameters := by
  unfold routineHead at h
  split at h
  · cases h
  · rename_i sym rest
    split at h
    · rename_i ht
      split at h
      · cases h
      · obtain ⟨_, _, h⟩ := bind_eq_ok.1 h
        obtain ⟨q, hq, h⟩ := bind_eq_ok.1 h
        cases h
        obtain ⟨hr, hparams⟩ := parameterList_obeys (R := R) hq (hs.suffix (List.suffix_cons ..))
        exact ⟨suffix_cons hr, hs sym (List.mem_cons_self ..) ht, hparams⟩
    · cases h

/-- Inside a routine its own name is visible, and parameters are no routines. -/
theorem enterRoutine_offers {names outside inside : Scopes} {b : Binding}
    (h : enterRoutine names b = .ok (outside, inside)) (hR : R.Offers names)
    (hb : ∀ entry, b.address = some entry → R.routine ⟨b.name, entry, b.parameters⟩) :
    R.Offers outside ∧ R.Offers inside := by
  unfold enterRoutine at h
  simp only at h
  have houtside : R.Offers (names.allocate b) := hR.allocate hb
  have hparams (ps : List String) (n : Scopes) (hn : R.Offers n) :
      R.Offers (ps.foldl (fun n p => n.allocate { name := p }) n) := by
    induction ps generalizing n with
    | nil => exact hn
    | cons p ps ih => exact ih _ (hn.declare rfl)
  split at h
  · rename_i inner hpush
    cases h
    refine ⟨houtside, hparams _ _ ?_⟩
    unfold Scopes.pushScope at hpush
    split at hpush
    · cases hpush
    · cases hpush
      intro frame hframe x hx
      rcases List.mem_cons.1 hframe with rfl | hframe
      · cases hx
      · exact houtside frame hframe x hx
  · cases h

end Statements

/-! ## Blocks

A statement passes the symbol it begins with before it comes to a block, so blocks of fewer symbols are
enough to know of.
-/

/-- The same as `Complies`, of a block. -/
def BlockComplies (R : Rules) (at_ : Place) (a : Address) (names : Scopes) (s : List Symbol) {n : Nat}
    (p : Passed (Block × Scopes) n) : Prop :=
  p.rest <:+ s ∧ (R.Offers names → (∀ x ∈ p.value.1.routines a, R.routine x) →
    p.value.1.Obeys R at_.loops at_.routine.isSome ∧ R.Offers p.value.2)

/-- Blocks of fewer than `n` symbols comply. -/
def BlocksComply (R : Rules) (n : Nat) : Prop :=
  ∀ {env : Context} {at_ : Place} {stops : List Word} {a : Address} {s : List Symbol}
    {p : Passed (Block × Scopes) s.length}, s.length < n → R.Spells s → block env at_ stops a s = .ok p →
    BlockComplies R at_ a env.names s p

section Blocks

variable {R : Rules} {n : Nat} (ih : BlocksComply R n) {env : Context} {at_ : Place} {a : Address} {sym : Symbol}
  {rest : List Symbol}

include ih

theorem statement_complies {p : Passed (Stmt × Scopes) rest.length} (hlen : rest.length < n)
    (hs : R.Spells (sym :: rest)) (h : statement env at_ a sym rest = .ok p) : Complies R at_ a env.names rest p := by
  have hrest : R.Spells rest := hs.suffix (List.suffix_cons ..)
  obtain ⟨⟨stmt, names⟩, r, l⟩ := p
  cases statement_form h with
  | share hnames =>
    obtain ⟨hr, _, hoffers⟩ := (nameList_form rest hnames).obeys (R := R) declareShared_offers hrest
    exact ⟨hr, fun hR _ => ⟨trivial, hoffers hR⟩⟩
  | declare hnames =>
    obtain ⟨hr, hobeys, hoffers⟩ := (nameList_form rest hnames).obeys (R := R) declareVariable_offers hrest
    exact ⟨hr, fun hR _ => ⟨hobeys, hoffers hR⟩⟩
  | constants hnames =>
    obtain ⟨hr, hobeys, hoffers⟩ := (constantList_form rest hnames).obeys (R := R) hrest
    exact ⟨hr, fun hR _ => ⟨hobeys, hoffers hR⟩⟩
  | @routine _ _ _ _ _ l₁ _ _ _ _ _ _ _ _ hhead henter hbody hclose =>
    obtain ⟨s₁, hname, hparams⟩ := routineHead_obeys hhead hrest
    obtain ⟨s₂, hbody⟩ := ih (Nat.lt_of_le_of_lt l₁ hlen) (hrest.suffix s₁) hbody
    refine ⟨(closeRoutine_suffix hclose).trans (s₂.trans s₁), fun hR hx => ?_⟩
    -- the routine is visible inside itself, at the address where its body begins
    obtain ⟨houtside, hinside⟩ := enterRoutine_offers henter hR fun entry ha => by
      cases ha
      exact hx _ (List.mem_cons_self ..)
    have hobeys := hbody hinside fun x hmem => hx x (List.mem_cons_of_mem _ hmem)
    exact ⟨⟨hname, hparams, hobeys.1⟩, houtside⟩
  | @branch _ _ _ l₁ word _ _ _ _ _ _ hcondition hthen _ hyes hclose =>
    obtain ⟨s₁, hc⟩ := expression_obeys (R := R) hcondition
    have s₂ := (require_suffix hthen).1.trans s₁
    obtain ⟨s₃, hyes⟩ := ih (Nat.lt_trans word.shorter (Nat.lt_trans l₁ hlen)) (hrest.suffix s₂) hyes
    refine ⟨(closeIf_suffix hclose).trans (s₃.trans s₂), fun hR hx => ?_⟩
    have hobeys := hyes hR hx
    exact ⟨⟨hc hR, hobeys.1⟩, hobeys.2⟩
  | @branchElse _ _ _ _ l₁ word _ _ _ _ _ l₃ _ _ _ _ hcondition hthen _ hyes _ hno hclose =>
    obtain ⟨s₁, hc⟩ := expression_obeys (R := R) hcondition
    have s₂ := (require_suffix hthen).1.trans s₁
    have hlt : word.rest.length < n := Nat.lt_trans word.shorter (Nat.lt_trans l₁ hlen)
    obtain ⟨s₃, hyes⟩ := ih hlt (hrest.suffix s₂) hyes
    have s₄ := (List.suffix_cons _ _).trans (s₃.trans s₂)
    obtain ⟨s₅, hno⟩ := ih (Nat.lt_trans (Nat.lt_of_succ_le l₃) hlt) (hrest.suffix s₄) hno
    refine ⟨(closeIf_suffix hclose).trans (s₅.trans s₄), fun hR hx => ?_⟩
    have hobeys := hyes hR fun x hmem => hx x (List.mem_append_left _ hmem)
    have hobeys' := hno hobeys.2 fun x hmem => hx x (List.mem_append_right _ hmem)
    exact ⟨⟨hc hR, hobeys.1, hobeys'.1⟩, hobeys'.2⟩
  | @countLoop _ _ _ _ _ _ _ _ l₁ _ _ _ _ hhead hbody hclose =>
    obtain ⟨s₁, hname, hhead⟩ := (forHead_form hhead).obeys hrest
    obtain ⟨s₂, hbody⟩ := ih (Nat.lt_of_le_of_lt l₁ hlen) (hrest.suffix s₁) hbody
    refine ⟨(closeFor_suffix hclose).trans (s₂.trans s₁), fun hR hx => ?_⟩
    obtain ⟨hstart, hlimit, hstep, hoffers⟩ := hhead hR
    have hobeys := hbody hoffers hx
    exact ⟨⟨hname, hstart, hlimit, hstep, hobeys.1⟩, hobeys.2⟩
  | @guardLoop _ _ _ _ _ _ l₁ _ _ _ _ hhead hbody hclose =>
    obtain ⟨s₁, hhead⟩ := (loopGuard_form hhead).obeys (R := R)
    obtain ⟨s₂, hbody⟩ := ih (Nat.lt_of_le_of_lt l₁ hlen) (hrest.suffix s₁) hbody
    obtain ⟨s₃, htail⟩ := closeDo_obeys (R := R) hclose
    refine ⟨s₃.trans (s₂.trans s₁), fun hR hx => ?_⟩
    have hobeys := hbody hR hx
    exact ⟨⟨hhead hR, hobeys.1, htail hobeys.2⟩, hobeys.2⟩
  | exitLoop hrest _ hloop =>
    subst hrest
    exact ⟨List.suffix_cons .., fun hR _ => ⟨⟨hloop, rfl⟩, hR⟩⟩
  | exitRoutine hrest _ hroutine =>
    subst hrest
    exact ⟨List.suffix_cons .., fun hR _ => ⟨Option.isSome_of_eq_some hroutine, hR⟩⟩
  | print he =>
    obtain ⟨hr, hobeys⟩ := expression_obeys (R := R) he
    refine ⟨hr, fun hR _ => ⟨?_, hR⟩⟩
    rintro x ⟨⟩
    exact hobeys hR
  | printNone => exact ⟨List.suffix_refl _, fun hR _ => ⟨nofun, hR⟩⟩
  | notify => exact ⟨List.suffix_refl _, fun hR _ => ⟨trivial, hR⟩⟩
  | dialog hslots =>
    obtain ⟨hr, hslots⟩ := dialogSlots_obey (R := R) hslots
    exact ⟨hr, fun hR _ => ⟨hslots hR, hR⟩⟩
  | assign hname hrest _ hnames he =>
    subst hrest
    obtain ⟨hr, hobeys⟩ := expression_obeys (R := R) he
    refine ⟨suffix_cons hr, fun hR _ => ?_⟩
    have hoffers := checkAssignable_offers hnames hR
    exact ⟨⟨hs sym (List.mem_cons_self ..) hname, hobeys hoffers⟩, hoffers⟩
  | call _ hcall =>
    obtain ⟨hroutine, hargs, hlength⟩ := call_parts hcall
    obtain ⟨hr, hes⟩ := callArguments_obey (R := R) hargs
    exact ⟨hr, fun hR _ => ⟨⟨routineOf_obeys hR hroutine, hlength, hes hR⟩, hR⟩⟩

theorem block_complies {stops : List Word} {s : List Symbol} {p : Passed (Block × Scopes) s.length}
    (hlen : s.length ≤ n) (hs : R.Spells s) (h : block env at_ stops a s = .ok p) :
    BlockComplies R at_ a env.names s p := by
  obtain ⟨⟨b, names⟩, r, l⟩ := p
  cases block_form h with
  | nil => exact ⟨List.suffix_refl _, fun hR _ => ⟨trivial, hR⟩⟩
  | delimiter _ hb =>
    obtain ⟨hr, hrest⟩ := ih hlen (hs.suffix (List.suffix_cons ..)) hb
    exact ⟨suffix_cons hr, hrest⟩
  | @cons _ _ _ _ _ _ _ _ l₁ _ hfirst _ hmore =>
    obtain ⟨s₁, hfirst⟩ := statement_complies ih hlen hs hfirst
    obtain ⟨s₂, hmore⟩ := ih (Nat.lt_of_le_of_lt l₁ hlen) (hs.suffix (suffix_cons s₁)) hmore
    refine ⟨suffix_cons (s₂.trans s₁), fun hR hx => ?_⟩
    have hobeys := hfirst hR fun x hmem => hx x (List.mem_append_left _ hmem)
    have hobeys' := hmore hobeys.2 fun x hmem => hx x (List.mem_append_right _ hmem)
    exact ⟨⟨hobeys.1, hobeys'.1⟩, hobeys'.2⟩

end Blocks

theorem blocksComply (R : Rules) (n : Nat) : BlocksComply R n := by
  induction n with
  | zero => intro _ _ _ _ _ _ hlen; omega
  | succ n ih => intro _ _ _ _ _ _ hlen hs h; exact block_complies ih (by omega) hs h

/-! ## Scripts -/

/-- A script that sees no routine from outside obeys all rules under which the names in its text may have
values and the routines that it defines may be called. -/
theorem script_obeys {R : Rules} {text : Symbols} {explicit external : Bool} {shared : Scope} {body : Block}
    (h : script text explicit external shared = .ok body) (hshared : ∀ b ∈ shared.names, b.address = none)
    (hnames : R.Spells text.ahead) (hroutines : ∀ x ∈ body.routines 0, R.routine x) :
    body.Obeys R [] false := by
  obtain ⟨_, _, _, hblock⟩ := script_form h
  obtain ⟨_, hobeys⟩ := blocksComply R _ (Nat.lt_succ_self _) hnames hblock
  have hoffers : R.Offers (.onBottom shared.unbound) := by
    refine Rules.offers_onBottom fun b hb => ?_
    obtain ⟨b', hb', rfl⟩ := List.mem_map.1 hb
    exact hshared b' hb'
  exact (hobeys hoffers hroutines).1

end MacroBasic.Grammar
