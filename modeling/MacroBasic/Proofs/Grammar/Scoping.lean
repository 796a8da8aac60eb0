/-
The names that the parser sees, read off the tree. Where every name has to be declared, the scopes in which the
parser looks names up are those that the declarations before a place in the tree make. All names that are read or
given values there are found in them, and so is every routine that is called.
-/
import MacroBasic.Proofs.Grammar.Script
import MacroBasic.Proofs.Machine.Instruction

namespace MacroBasic

/-! ## Declarations -/

namespace Scopes

/-- Declares a variable. -/
def withVariable (names : Scopes) (x : String) : Scopes := names.allocate { name := x }

/-- Declares a name that is shared, unless it is visible. -/
def withShared (names : Scopes) (x : String) : Scopes := if (names.get? x).isSome then names else names.withVariable x

/-- Declares a constant. -/
def withConstant (names : Scopes) (d : String × Value) : Scopes :=
  names.allocate { name := d.1, kind := .constant, value := d.2 }

/-- Declares a routine at address `a`. -/
def withRoutine (names : Scopes) (a : Address) (isFunction : Bool) (name : String) (parameters : List String) :
    Scopes :=
  names.allocate (.routine name (if isFunction then .function else .sub) (a + routineHeadSize isFunction) parameters)

/-- The names inside of a routine with the given parameters. -/
def enter (names : Scopes) (parameters : List String) : Scopes := parameters.foldl withVariable names.inner

/-- A name is found and is not that of a sub, so that it can be read or given a value. -/
def Usable (names : Scopes) (x : String) : Prop := ∃ b, names.get? x = some b ∧ b.kind ≠ .sub

/-- Only the routines in some scopes may be called. -/
def visible (names : Scopes) : Rules where
  name _ := True
  routine r := ∃ frame ∈ names.frames, ∃ b ∈ frame.names, b.address = some r.entry ∧ b.parameters = r.parameters

end Scopes

mutual

/-- The names that are declared behind a statement at address `a`, given those before it. -/
def Stmt.declared (a : Address) (names : Scopes) : Stmt → Scopes
  | .share shared => shared.foldl Scopes.withShared names
  | .declare declared => declared.foldl Scopes.withVariable names
  | .constants definitions => definitions.foldl Scopes.withConstant names
  | .routine isFunction name parameters _ => names.withRoutine a isFunction name parameters
  | .branch c yes => yes.declared (a + c.size + 1) names
  | .branchElse c yes no =>
    let start := a + c.size + 1
    no.declared (start + yes.size + 1) (yes.declared start names)
  | .countLoop _ start limit step body => body.declared (a + countHeadSize start limit step) names
  | .guardLoop head body _ => body.declared (a + 1 + headSize head) names
  | .exitLoop _ _ | .exitRoutine | .print _ | .notify _ | .dialog _ _ | .assign _ _ _ | .call _ _ => names

/-- The names that are declared behind a block at address `a`, given those before it. -/
def Block.declared (a : Address) (names : Scopes) : Block → Scopes
  | .nil => names
  | .cons _ first rest => rest.declared (a + first.size) (first.declared a names)

end

/-- The names that an expression reads and the routines that it calls are visible. -/
structure Expr.Resolved (names : Scopes) (e : Expr) : Prop where
  calls : e.Obeys names.visible
  reads : ∀ a x, .pushVariable x ∈ e.code a → names.Usable x

mutual

/-- The names and routines that a statement at address `a` uses are visible there, and it defines a routine only if it
may. No statement inside of a branch or a loop may. -/
def Stmt.Resolved (declarations : Bool) (a : Address) (names : Scopes) : Stmt → Prop
  | .share _ | .declare _ | .constants _ | .exitLoop _ _ | .exitRoutine | .notify _ => True
  | .routine isFunction name parameters body =>
    declarations = true ∧ body.Resolved true (a + routineHeadSize isFunction)
      ((names.withRoutine a isFunction name parameters).enter parameters)
  | .branch c yes => c.Resolved names ∧ yes.Resolved false (a + c.size + 1) names
  | .branchElse c yes no =>
    let start := a + c.size + 1
    c.Resolved names ∧ yes.Resolved false start names ∧
      no.Resolved false (start + yes.size + 1) (yes.declared start names)
  | .countLoop counter start limit step body =>
    names.Usable counter ∧ start.Resolved names ∧ limit.Resolved names ∧ (∀ e ∈ step, e.Resolved names) ∧
      body.Resolved false (a + countHeadSize start limit step) names
  | .guardLoop head body tail =>
    let start := a + 1 + headSize head
    (∀ g ∈ head, g.condition.Resolved names) ∧ body.Resolved false start names ∧
      ∀ g ∈ tail, g.condition.Resolved (body.declared start names)
  | .print e => ∀ x ∈ e, x.Resolved names
  | .dialog _ slots => ∀ e, .given e ∈ slots → e.Resolved names
  | .assign x _ e => names.Usable x ∧ e.Resolved names
  | .call r arguments => names.visible.routine r ∧ ∀ e ∈ arguments, e.Resolved names

def Block.Resolved (declarations : Bool) (a : Address) (names : Scopes) : Block → Prop
  | .nil => True
  | .cons _ first rest => first.Resolved declarations a names ∧
    rest.Resolved declarations (a + first.size) (first.declared a names)

end

/-! ## Names that code reads -/

section Code

variable {x : String}

theorem not_reads_enter (r : Routine) : Instruction.pushVariable x ∉ r.enter := by
  simp [Routine.enter, bindParameters]

theorem exists_of_reads_all : ∀ {es : List Expr} {a : Address}, .pushVariable x ∈ codeOfAll a es →
    ∃ e ∈ es, ∃ b, .pushVariable x ∈ e.code b
  | [], _, h => nomatch h
  | e :: rest, a, h => by
    rcases List.mem_append.1 h with h | h
    · exact ⟨e, List.mem_cons_self, a, h⟩
    · obtain ⟨e', he', hread⟩ := exists_of_reads_all h
      exact ⟨e', List.mem_cons_of_mem _ he', hread⟩

theorem exists_of_reads_rest : ∀ {es : List Expr} {fails a : Address}, .pushVariable x ∈ codeOfRest fails a es →
    ∃ e ∈ es, ∃ b, .pushVariable x ∈ e.code b
  | [], _, _, h => nomatch h
  | e :: rest, fails, a, h => by
    rw [codeOfRest, List.cons_append, List.mem_cons, List.mem_append] at h
    rcases h with h | h | h
    · cases h
    · exact ⟨e, List.mem_cons_self, _, h⟩
    · obtain ⟨e', he', hread⟩ := exists_of_reads_rest h
      exact ⟨e', List.mem_cons_of_mem _ he', hread⟩

theorem exists_of_reads_slots : ∀ {slots : List Slot} {a : Address} {defaults : List Value},
    .pushVariable x ∈ codeOfSlots a defaults slots → ∃ e, .given e ∈ slots ∧ ∃ b, .pushVariable x ∈ e.code b
  | [], _, defaults, h => by simp [codeOfSlots] at h
  | slot :: rest, a, defaults, h => by
    rw [codeOfSlots, List.mem_append] at h
    rcases h with h | h
    · cases slot with
      | omitted => cases defaults <;> simp [Slot.code] at h
      | given e =>
        rw [Slot.code, List.mem_append] at h
        rcases h with h | h
        · exact ⟨e, List.mem_cons_self, a, h⟩
        · split at h <;> simp at h
    · obtain ⟨e, he, hread⟩ := exists_of_reads_slots h
      exact ⟨e, List.mem_cons_of_mem _ he, hread⟩

/-- What the code of a call reads is read by an argument, or it is the result. -/
theorem exists_of_reads_call {r : Routine} {arguments : List Expr} {a : Address}
    (h : .pushVariable x ∈ (Expr.call r arguments).code a) :
    x = r.name ∨ ∃ e ∈ arguments, ∃ b, .pushVariable x ∈ e.code b := by
  rw [Expr.code, List.mem_append, List.mem_append, List.mem_cons, List.mem_singleton] at h
  rcases h with ((h | h) | h) | h
  · cases h
  · exact .inr (exists_of_reads_all h)
  · exact absurd h (not_reads_enter r)
  · cases h
    exact .inl rfl

end Code

namespace Grammar

/-! ## Parts of statements -/

section Parts

variable {env : Context} {s : List Symbol}

theorem visible_offers (names : Scopes) : names.visible.Offers names :=
  fun frame hframe b hb _ ha => ⟨frame, hframe, b, hb, ha, rfl⟩

theorem Context.usable_of_readable {n : String} (hexplicit : env.explicit = true) (h : env.readable n = true) :
    env.names.Usable n := by
  unfold Context.readable at h
  cases hb : env.names.get? n with
  | some b =>
    rw [hb] at h
    refine ⟨b, hb, fun hkind => ?_⟩
    rw [Option.map_some, hkind] at h
    cases h
  | none => rw [hb, hexplicit] at h; cases h

theorem Context.usable_of_function? {n : String} {r : Routine} (h : env.function? n = some r) :
    r.name = n ∧ env.names.Usable n := by
  unfold Context.function? at h
  split at h
  · rename_i b hb
    split at h
    · rename_i hkind
      obtain ⟨entry, _, rfl⟩ := Option.map_eq_some_iff.1 h
      exact ⟨rfl, b, hb, by rw [hkind]; exact nofun⟩
    · cases h
  · cases h

mutual

/-- What a phrase means reads only visible names. -/
theorem Phrase.reads_of_meaning (hexplicit : env.explicit = true) : (p : Phrase) → ∀ {e : Expr},
    p.meaning? env = some e → ∀ a x, .pushVariable x ∈ e.code a → env.names.Usable x
  | .number _, _, h | .text _, _, h => by
    cases h
    intro a x hread
    simp [Expr.code] at hread
  | .word w, _, h => by
    rw [Phrase.meaning?] at h
    obtain ⟨v, _, rfl⟩ := Option.map_eq_some_iff.1 h
    intro a x hread
    simp [Expr.code] at hread
  | .name n, _, h => by
    intro a x hread
    rw [Phrase.meaning?, Context.name?] at h
    split at h
    · rename_i hn
      cases h
      cases List.mem_singleton.1 hread
      exact Context.usable_of_readable hexplicit hn
    · obtain ⟨r, hr, h⟩ := Option.bind_eq_some_iff.1 h
      unfold call? at h
      split at h
      · cases h
        obtain ⟨hname, hsome⟩ := Context.usable_of_function? hr
        -- a call reads what its arguments do and, for its result, the name of the function
        rcases exists_of_reads_call hread with rfl | ⟨e, he, _⟩
        · exact hname ▸ hsome
        · cases he
      · cases h
  | .apply n arguments, _, h => by
    intro a x hread
    rw [Phrase.meaning?] at h
    obtain ⟨r, hr, h⟩ := Option.bind_eq_some_iff.1 h
    obtain ⟨es, hes, h⟩ := Option.bind_eq_some_iff.1 h
    unfold call? at h
    split at h
    · cases h
      obtain ⟨hname, hsome⟩ := Context.usable_of_function? hr
      rcases exists_of_reads_call hread with rfl | ⟨e, he, b, hread⟩
      · exact hname ▸ hsome
      · exact reads_of_meanings hexplicit arguments hes e he b x hread
    · cases h
  | .group p, _, h => Phrase.reads_of_meaning hexplicit p h
  | .signed sign p, _, h => by
    rw [Phrase.meaning?] at h
    obtain ⟨e, he, rfl⟩ := Option.map_eq_some_iff.1 h
    intro a x hread
    refine Phrase.reads_of_meaning hexplicit p he a x ?_
    cases sign <;> simpa [signed, Sign.operator?, Expr.code] using hread
  | .factorial p, _, h => by
    rw [Phrase.meaning?] at h
    obtain ⟨e, he, rfl⟩ := Option.map_eq_some_iff.1 h
    intro a x hread
    exact Phrase.reads_of_meaning hexplicit p he a x (by simpa [Expr.code] using hread)
  | .binary op l r, _, h => by
    rw [Phrase.meaning?] at h
    obtain ⟨y, hy, h⟩ := Option.bind_eq_some_iff.1 h
    obtain ⟨z, hz, h⟩ := Option.bind_eq_some_iff.1 h
    cases h
    intro a x hread
    simp only [Expr.code, List.mem_append, List.mem_singleton, reduceCtorEq, or_false] at hread
    rcases hread with hread | hread
    · exact Phrase.reads_of_meaning hexplicit l hy _ x hread
    · exact Phrase.reads_of_meaning hexplicit r hz _ x hread
  | .conjunction first rest, _, h => by
    rw [Phrase.meaning?] at h
    obtain ⟨y, hy, h⟩ := Option.bind_eq_some_iff.1 h
    obtain ⟨ys, hys, h⟩ := Option.bind_eq_some_iff.1 h
    cases h
    intro a x hread
    simp only [Expr.code, List.mem_append, List.mem_cons, List.not_mem_nil, reduceCtorEq, or_false] at hread
    rcases hread with hread | hread
    · exact Phrase.reads_of_meaning hexplicit first hy _ x hread
    · obtain ⟨e, he, b, hread⟩ := exists_of_reads_rest hread
      exact reads_of_meanings hexplicit rest hys e he b x hread
  | .function w p, _, h => by
    rw [Phrase.meaning?] at h
    obtain ⟨op, _, h⟩ := Option.bind_eq_some_iff.1 h
    obtain ⟨y, hy, h⟩ := Option.bind_eq_some_iff.1 h
    cases h
    intro a x hread
    exact Phrase.reads_of_meaning hexplicit p hy a x (by simpa [Expr.code] using hread)
  | .choice c p q, _, h => by
    rw [Phrase.meaning?] at h
    obtain ⟨y, hy, h⟩ := Option.bind_eq_some_iff.1 h
    obtain ⟨z, hz, h⟩ := Option.bind_eq_some_iff.1 h
    obtain ⟨w, hw, h⟩ := Option.bind_eq_some_iff.1 h
    cases h
    intro a x hread
    simp only [Expr.code, List.mem_append, List.mem_cons, reduceCtorEq, false_or] at hread
    rcases hread with (hread | hread) | hread
    · exact Phrase.reads_of_meaning hexplicit c hy _ x hread
    · exact Phrase.reads_of_meaning hexplicit p hz _ x hread
    · exact Phrase.reads_of_meaning hexplicit q hw _ x hread
  | .dialog d gaps, _, h => by
    rw [Phrase.meaning?] at h
    obtain ⟨slots, hs, rfl⟩ := Option.map_eq_some_iff.1 h
    intro a x hread
    rw [Expr.code, List.mem_append] at hread
    rcases hread with hread | hread
    · obtain ⟨e, he, b, hread⟩ := exists_of_reads_slots hread
      exact reads_of_slotsOf hexplicit gaps hs e he b x hread
    · split at hread <;> simp at hread

theorem reads_of_meanings (hexplicit : env.explicit = true) : (ps : List Phrase) → ∀ {es : List Expr},
    meanings? env ps = some es → ∀ e ∈ es, ∀ a x, .pushVariable x ∈ e.code a → env.names.Usable x
  | [], _, h => by cases h; exact nofun
  | p :: rest, _, h => by
    rw [meanings?] at h
    obtain ⟨y, hy, h⟩ := Option.bind_eq_some_iff.1 h
    obtain ⟨ys, hys, h⟩ := Option.bind_eq_some_iff.1 h
    cases h
    exact List.forall_mem_cons.2 ⟨Phrase.reads_of_meaning hexplicit p hy, reads_of_meanings hexplicit rest hys⟩

theorem reads_of_slotsOf (hexplicit : env.explicit = true) : (gaps : List Gap) → ∀ {slots : List Slot},
    slotsOf? env gaps = some slots → ∀ e, .given e ∈ slots → ∀ a x, .pushVariable x ∈ e.code a →
      env.names.Usable x
  | [], _, h => by cases h; exact nofun
  | .omitted :: rest, _, h => by
    rw [slotsOf?] at h
    obtain ⟨y, hy, h⟩ := Option.bind_eq_some_iff.1 h
    obtain ⟨ys, hys, h⟩ := Option.bind_eq_some_iff.1 h
    cases h
    cases hy
    intro e he
    rcases List.mem_cons.1 he with he | he
    · cases he
    · exact reads_of_slotsOf hexplicit rest hys e he
  | .given p :: rest, _, h => by
    rw [slotsOf?] at h
    obtain ⟨y, hy, h⟩ := Option.bind_eq_some_iff.1 h
    obtain ⟨ys, hys, h⟩ := Option.bind_eq_some_iff.1 h
    cases h
    rw [Gap.slot?] at hy
    obtain ⟨e', he', rfl⟩ := Option.map_eq_some_iff.1 hy
    intro e he
    rcases List.mem_cons.1 he with he | he
    · cases he
      exact Phrase.reads_of_meaning hexplicit p he'
    · exact reads_of_slotsOf hexplicit rest hys e he

end

theorem resolved_of_meanings (hexplicit : env.explicit = true) {ps : List Phrase} {es : List Expr}
    (h : meanings? env ps = some es) : ∀ e ∈ es, e.Resolved env.names := by
  have hobeys := allObey_iff.1 (obeys_of_meanings (visible_offers env.names) ps h)
  exact fun e he => ⟨hobeys e he, reads_of_meanings hexplicit ps h e he⟩

theorem expression_resolved {p : Parsed Expr s.length} (hexplicit : env.explicit = true)
    (h : expression env s = .ok p) : p.value.Resolved env.names := by
  have hp : Parsed.plain (expression env s) = .ok (p.value, p.rest) := by rw [h]; rfl
  obtain ⟨_, _, phrase, _, _, _, hm⟩ := expression_reads hp
  exact ⟨phrase.obeys_of_meaning (visible_offers env.names) hm, phrase.reads_of_meaning hexplicit hm⟩

theorem arguments_resolved {es : List Expr} {r : List Symbol} (hexplicit : env.explicit = true)
    (h : Parsed.plain (arguments env s) = .ok (es, r)) : ∀ e ∈ es, e.Resolved env.names := by
  obtain ⟨_, _, _, _, _, _, hm⟩ := (readsBelow env (s.length + 1)).arguments s (Nat.lt_succ_self _) es r h
  exact resolved_of_meanings hexplicit hm

theorem slots_resolved {d : Dialog} {found : List Slot} {r : List Symbol} (hexplicit : env.explicit = true)
    (h : Passed.plain (slots env d 0 s) = .ok (found, r)) : ∀ e, .given e ∈ found → e.Resolved env.names := by
  obtain ⟨_, _, g, gaps, _, _, _, hm⟩ :=
    (readsBelow env (s.length + 1)).slots d 0 s (Nat.lt_succ_self _) (Nat.zero_le _) found r h
  have hobeys := slotsObey_iff.1 (obeys_of_slotsOf (visible_offers env.names) (g :: gaps) hm)
  exact fun e he => ⟨hobeys e he, reads_of_slotsOf hexplicit (g :: gaps) hm e he⟩

theorem callArguments_resolved {inExpression : Bool} {es : List Expr} {r : List Symbol} (hexplicit : env.explicit = true)
    (h : Passed.plain (callArguments env inExpression s) = .ok (es, r)) : ∀ e ∈ es, e.Resolved env.names := by
  cases callArguments_form h with
  | absent | empty => exact nofun
  | bare h | enclosed _ h => exact arguments_resolved hexplicit h

theorem dialogSlots_resolved {d : Dialog} {found : List Slot} {r : List Symbol} {l : r.length ≤ s.length}
    (hexplicit : env.explicit = true) (h : dialogSlots env d true s = .ok ⟨found, r, l⟩) :
    ∀ e, .given e ∈ found → e.Resolved env.names := by
  cases dialogSlots_form h with
  | absent | empty => rintro _ ⟨⟩
  | bare h | enclosed _ h => exact slots_resolved hexplicit h

theorem GuardForm.resolved {guard : Option Guard} {r : List Symbol} (hexplicit : env.explicit = true)
    (h : GuardForm env s guard r) : ∀ g ∈ guard, g.condition.Resolved env.names := by
  cases h with
  | absent => rintro _ ⟨⟩
  | given he =>
    rintro g ⟨⟩
    exact expression_resolved hexplicit he

theorem closeDo_resolved {hasHead optional : Bool} {guard : Option Guard} {r : List Symbol} {l : r.length ≤ s.length}
    (hexplicit : env.explicit = true) (h : closeDo env hasHead optional s = .ok ⟨guard, r, l⟩) :
    ∀ g ∈ guard, g.condition.Resolved env.names := by
  obtain ⟨rfl, rfl⟩ | ⟨word, rest, rfl, hguard⟩ := closeDo_form h
  · rintro _ ⟨⟩
  · exact hguard.resolved hexplicit

theorem StepForm.resolved {step : Option Expr} {r : List Symbol} (hexplicit : env.explicit = true)
    (h : StepForm env s step r) : ∀ e ∈ step, e.Resolved env.names := by
  cases h with
  | absent => rintro _ ⟨⟩
  | given he =>
    rintro x ⟨⟩
    exact expression_resolved hexplicit he

/-! ## Declarations in the text -/

theorem declareVariable_declared {names names' : Scopes} {sym : Symbol} (h : declareVariable names sym = .ok names') :
    names' = names.withVariable sym.text := by
  unfold declareVariable at h
  split at h
  · cases h
  · cases h
    rfl

theorem declareShared_declared {names names' : Scopes} {sym : Symbol} (h : declareShared names sym = .ok names') :
    names' = names.withShared sym.text := by
  unfold declareShared at h
  unfold Scopes.withShared
  split at h
  · cases h
  · split at h
    · cases h
      rw [if_pos (by assumption)]
    · cases h
      rw [if_neg (by assumption)]
      rfl

theorem NamesForm.declared {declare : Scopes → Symbol → Except Fault Scopes} {f : Scopes → String → Scopes}
    (hd : ∀ names sym names', declare names sym = .ok names' → names' = f names sym.text) {names names' : Scopes}
    {found : List String} {r : List Symbol} (h : NamesForm declare names s found names' r) :
    names' = found.foldl f names := by
  induction h with
  | one _ hdeclare => exact hd _ _ _ hdeclare
  | more _ hdeclare _ _ ih =>
    rw [hd _ _ _ hdeclare] at ih
    exact ih

theorem ConstantsForm.declared {names names' : Scopes} {found : List (String × Value)} {r : List Symbol}
    (h : ConstantsForm names s found names' r) : names' = found.foldl Scopes.withConstant names := by
  induction h with
  | one => rfl
  | more _ _ _ ih => exact ih

/-- Where names have to be declared, giving one a value declares none. -/
theorem checkAssignable_declared {sym : Symbol} {names : Scopes} (hexplicit : env.explicit = true)
    (h : checkAssignable env sym = .ok names) : names = env.names ∧ env.names.Usable sym.text := by
  unfold checkAssignable at h
  split at h
  · cases h
  · cases h
  · rename_i hsub hkind
    cases h
    obtain ⟨b, hb, rfl⟩ := Option.map_eq_some_iff.1 hkind
    exact ⟨rfl, b, hb, hsub⟩
  · rw [if_pos hexplicit] at h
    cases h

theorem enterRoutine_declared {names outside inside : Scopes} {b : Binding}
    (h : enterRoutine names b = .ok (outside, inside)) :
    outside = names.allocate b ∧ inside = (names.allocate b).enter b.parameters := by
  unfold enterRoutine at h
  simp only at h
  split at h
  · rename_i inner hpush
    cases h
    refine ⟨rfl, ?_⟩
    unfold Scopes.pushScope at hpush
    split at hpush
    · cases hpush
    · cases hpush
      rfl
  · cases h

end Parts

/-! ## Statements -/

/-- The names behind a statement are those that it declares, and what it calls is visible. -/
def Scoped (env : Context) (at_ : Place) (a : Address) {n : Nat} (p : Passed (Stmt × Scopes) n) : Prop :=
  p.value.2 = p.value.1.declared a env.names ∧ p.value.1.Resolved at_.declarations a env.names

section Simple

variable {env : Context} {a : Address} {s : List Symbol}

theorem CountForm.scoped {counter : String} {start limit : Expr} {step : Option Expr} {names : Scopes} {r : List Symbol}
    (hexplicit : env.explicit = true) (h : CountForm env names s counter start limit step r) :
    names = env.names ∧ env.names.Usable counter ∧ start.Resolved env.names ∧ limit.Resolved env.names ∧
      ∀ e ∈ step, e.Resolved env.names := by
  obtain ⟨_, hnames, hstart, hlimit, hstep⟩ := h
  obtain ⟨rfl, hcounter⟩ := checkAssignable_declared hexplicit hnames
  exact ⟨rfl, hcounter, expression_resolved (by exact hexplicit) hstart,
    expression_resolved (by exact hexplicit) hlimit, hstep.resolved (by exact hexplicit)⟩

end Simple

/-! ## Blocks -/

/-- The same of blocks of fewer than `n` symbols. -/
def BlocksScoped (n : Nat) : Prop :=
  ∀ {env : Context} {at_ : Place} {stops : List Word} {a : Address} {s : List Symbol} {b : Block} {names : Scopes}
    {r : List Symbol} {l : r.length ≤ s.length}, s.length < n → env.explicit = true →
    block env at_ stops a s = .ok ⟨(b, names), r, l⟩ → names = b.declared a env.names ∧
      b.Resolved at_.declarations a env.names

section Blocks

variable {n : Nat} (ih : BlocksScoped n) {env : Context} (hexplicit : env.explicit = true) {at_ : Place} {a : Address}
  {sym : Symbol} {rest : List Symbol}

include ih hexplicit

theorem statement_scoped {p : Passed (Stmt × Scopes) rest.length} (hlen : rest.length < n)
    (h : statement env at_ a sym rest = .ok p) : Scoped env at_ a p := by
  obtain ⟨⟨stmt, names⟩, r, l⟩ := p
  cases statement_form h with
  | @share shared _ _ _ hnames =>
    have hnames : names = shared.foldl Scopes.withShared env.names :=
      (nameList_form rest hnames).declared fun _ _ _ h => declareShared_declared h
    exact ⟨hnames, trivial⟩
  | @declare declared _ _ _ hnames =>
    have hnames : names = declared.foldl Scopes.withVariable env.names :=
      (nameList_form rest hnames).declared fun _ _ _ h => declareVariable_declared h
    exact ⟨hnames, trivial⟩
  | constants hnames => exact ⟨(constantList_form rest hnames).declared, trivial⟩
  | @routine _ _ _ _ _ l₁ _ _ _ _ _ _ _ hallowed _ henter hbody =>
    obtain ⟨rfl, rfl⟩ := enterRoutine_declared henter
    obtain ⟨_, hbody⟩ := ih (Nat.lt_of_le_of_lt l₁ hlen) (by exact hexplicit) hbody
    exact ⟨rfl, hallowed, hbody⟩
  | @branch _ _ _ l₁ word _ _ _ _ _ _ hcondition _ _ hyes =>
    obtain ⟨rfl, hyes'⟩ := ih (Nat.lt_trans word.shorter (Nat.lt_trans l₁ hlen)) hexplicit hyes
    exact ⟨rfl, expression_resolved hexplicit hcondition, hyes'⟩
  | @branchElse _ _ _ _ l₁ word _ _ _ _ _ l₃ _ _ _ _ hcondition _ _ hyes _ hno =>
    have hlt : word.rest.length < n := Nat.lt_trans word.shorter (Nat.lt_trans l₁ hlen)
    obtain ⟨rfl, hyes'⟩ := ih hlt hexplicit hyes
    obtain ⟨rfl, hno'⟩ := ih (Nat.lt_trans (Nat.lt_of_succ_le l₃) hlt) (by exact hexplicit) hno
    exact ⟨rfl, expression_resolved hexplicit hcondition, hyes', hno'⟩
  | @countLoop _ _ _ _ _ _ _ _ l₁ _ _ _ _ hhead hbody =>
    obtain ⟨rfl, hcounter, hstart, hlimit, hstep⟩ := (forHead_form hhead).scoped hexplicit
    obtain ⟨hnames, hbody⟩ := ih (Nat.lt_of_le_of_lt l₁ hlen) (by exact hexplicit) hbody
    exact ⟨hnames, hcounter, hstart, hlimit, hstep, hbody⟩
  | @guardLoop _ _ _ _ _ _ l₁ _ _ _ _ hhead hbody hclose =>
    obtain ⟨rfl, hbody'⟩ := ih (Nat.lt_of_le_of_lt l₁ hlen) (by exact hexplicit) hbody
    exact ⟨rfl, (loopGuard_form hhead).resolved hexplicit, hbody', closeDo_resolved (by exact hexplicit) hclose⟩
  | exitLoop | exitRoutine | notify => exact ⟨rfl, trivial⟩
  | print he =>
    refine ⟨rfl, ?_⟩
    rintro x ⟨⟩
    exact expression_resolved hexplicit he
  | printNone => exact ⟨rfl, nofun⟩
  | dialog hslots => exact ⟨rfl, dialogSlots_resolved hexplicit hslots⟩
  | assign _ _ _ hnames he =>
    obtain ⟨rfl, htarget⟩ := checkAssignable_declared hexplicit hnames
    exact ⟨rfl, htarget, expression_resolved hexplicit he⟩
  | call _ hcall =>
    obtain ⟨hroutine, hargs, _⟩ := call_parts hcall
    exact ⟨rfl, routineOf_obeys (visible_offers env.names) hroutine, callArguments_resolved hexplicit hargs⟩

theorem block_scoped {stops : List Word} {s : List Symbol} {p : Passed (Block × Scopes) s.length}
    (hlen : s.length ≤ n) (h : block env at_ stops a s = .ok p) :
    p.value.2 = p.value.1.declared a env.names ∧ p.value.1.Resolved at_.declarations a env.names := by
  obtain ⟨⟨b, names⟩, r, l⟩ := p
  cases block_form h with
  | nil => exact ⟨rfl, trivial⟩
  | delimiter _ hb => exact ih hlen hexplicit hb
  | @cons _ _ _ _ first _ names₁ _ l₁ _ hfirst _ hmore =>
    obtain ⟨hnames, hresolved⟩ : names₁ = first.declared a env.names ∧ first.Resolved at_.declarations a env.names :=
      statement_scoped ih hexplicit hlen hfirst
    subst hnames
    obtain ⟨hnames, hmore⟩ := ih (Nat.lt_of_le_of_lt l₁ hlen) (by exact hexplicit) hmore
    exact ⟨hnames, hresolved, hmore⟩

end Blocks

theorem blocksScoped (n : Nat) : BlocksScoped n := by
  induction n with
  | zero => intro _ _ _ _ _ _ _ _ _ hlen; omega
  | succ n ih => intro _ _ _ _ _ _ _ _ _ hlen hexplicit h; exact block_scoped ih hexplicit (by omega) h

/-- In a script whose names have to be declared, every call is that of a routine that is visible where it stands. -/
theorem script_resolved {text : Symbols} {external : Bool} {shared : Scope} {body : Block}
    (h : script text true external shared = .ok body) : body.Resolved true 0 (.onBottom shared.unbound) := by
  obtain ⟨_, _, _, hblock⟩ := script_form h
  exact (blocksScoped _ (Nat.lt_succ_self _) rfl hblock).2

end Grammar

end MacroBasic
