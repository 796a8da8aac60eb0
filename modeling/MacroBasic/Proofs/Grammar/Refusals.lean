/-
The faults of parsing. A script is refused for what the scanner cannot read, or with a place and a code of parsing,
unless too many routines are defined inside of each other: each definition takes a scope, and there is a limit to
their number.
-/
import MacroBasic.Proofs.Grammar.Identity
import MacroBasic.Proofs.Grammar.Reading
import MacroBasic.Proofs.Symbol.Refusals

namespace MacroBasic

/-- A fault of scanning, or one that has a place and a code of parsing. -/
def Fault.Regular (f : Fault) : Prop := f.OfScan ∨ f.position.isSome = true ∧ f.code.OfParse

namespace Grammar

/-! ## Regular faults -/

/-- A parse beside itself: names that stand for routines have addresses, and all faults are regular. The fault of
entering one scope too many may be allowed. -/
def Likeness.regular (deep : Prop) : Likeness where
  __ := Likeness.identical False
  binding b c := b.Resembles c ∧ (b.isRoutine = true → b.address.isSome = true)
  fault f _ := f.Regular ∨ deep ∧ f = Scopes.tooDeep
  outline h := h.1
  declared _ h := ⟨rfl, h⟩
  raised _ _ _ _ hcode _ := .inl (.inr ⟨rfl, hcode⟩)
  unaddressed _ hb hroutine hnone _ := by
    have haddress := hb.2 hroutine
    rw [hnone] at haddress
    cases haddress

theorem regular_keepsBreaks (deep : Prop) : (Likeness.regular deep).KeepsBreaks := fun h => congrArg Symbol.isNewline h

theorem not_regular_tooDeep : ¬ Scopes.tooDeep.Regular := by
  rintro (h | ⟨h, _⟩)
  · cases h.placed
  · cases h

theorem regular_of_alike {deep : Prop} {α β : Type} {R : α → β → Prop} {y : Except Fault β} {f : Fault}
    (h : (Likeness.regular deep).Alike R (.error f) y) : f.Regular ∨ deep ∧ f = Scopes.tooDeep := by
  cases h with
  | error h => exact h
  | refused h => exact h.elim

theorem ne_tooDeep_of_alike {α β : Type} {R : α → β → Prop} {y : Except Fault β}
    (h : (Likeness.regular False).Alike R (.error Scopes.tooDeep) y) : False := by
  rcases regular_of_alike h with h | ⟨h, _⟩
  · exact not_regular_tooDeep h
  · exact h

/-! ## The scopes around a statement -/

section Around

variable {env : Context} {at_ : Place} {a : Address}

theorem around_of_alike {α : Type} {u : Except Fault Symbol} {S : Scopes} {R : α → α → Prop} {n m : Nat}
    {p : Passed (α × Scopes) n} {y : Except Fault (Passed (α × Scopes) m)}
    (h : (Likeness.identical False).Alike
      ((Likeness.identical False).Passes u u ((Likeness.identical False).Beside S R)) (.ok p) y) :
    p.value.2.below = S.below := by
  cases h with
  | ok h => exact h.value.names.around

/-- A statement declares names in the innermost scope only. -/
theorem statement_around {sym : Symbol} {rest : List Symbol} {p : Passed (Stmt × Scopes) rest.length}
    (h : statement env at_ a sym rest = .ok p) : p.value.2.below = env.names.below := by
  have halike := Likeness.statement_alike (Likeness.identical_surrounds False env)
    (Likeness.identical_keepsBreaks False) at_ (fun _ => rfl) a
    (rfl : sym = sym) (Likeness.identical_left False env rest)
  rw [h] at halike
  exact around_of_alike halike

/-- So do the statements of a block. -/
theorem block_around {stops : List Word} {s : List Symbol} {p : Passed (Block × Scopes) s.length}
    (h : block env at_ stops a s = .ok p) : p.value.2.below = env.names.below := by
  have halike := Likeness.block_alike (Likeness.identical_surrounds False env)
    (Likeness.identical_keepsBreaks False) at_ (fun _ => rfl) stops a
    (Likeness.identical_left False env s)
  rw [h] at halike
  exact around_of_alike halike

theorem Scopes.depth_of_below {S T : Scopes} (h : S.below = T.below) : S.depth = T.depth := by
  rw [S.depth_eq, T.depth_eq, h]

/-- Entering a routine fails where there are too many scopes already. Otherwise the scope inside lies above those
outside. -/
theorem enterRoutine_cases (names : Scopes) (b : Binding) :
    enterRoutine names b = .error Scopes.tooDeep ∧ Scopes.limit ≤ names.depth ∨
      ∃ inside, enterRoutine names b = .ok (names.allocate b, inside) ∧ names.depth < Scopes.limit ∧
        inside.below = (names.allocate b).frames := by
  have hdepth : (names.allocate b).depth = names.depth := rfl
  have hbelow (parameters : List String) (S : Scopes) :
      (parameters.foldl (fun n p => n.allocate { name := p }) S).below = S.below := by
    induction parameters generalizing S with
    | nil => rfl
    | cons p rest ih => exact ih _
  unfold enterRoutine Scopes.pushScope
  dsimp only
  by_cases hlimit : Scopes.limit ≤ names.depth
  · rw [if_pos (hdepth ▸ hlimit)]
    exact .inl ⟨rfl, hlimit⟩
  · rw [if_neg (hdepth ▸ hlimit)]
    exact .inr ⟨_, rfl, Nat.lt_of_not_le hlimit, hbelow _ _⟩

theorem Scopes.popScope_of_below {S T : Scopes} (h : S.below = T.frames) : Scopes.popScope S = .ok S.top T := by
  obtain ⟨top, below, depth, hdepth⟩ := S
  obtain ⟨top', below', depth', hdepth'⟩ := T
  subst h hdepth hdepth'
  rfl

/-- Leaving the scope of a routine behind its body gives back the names around it. -/
theorem popScope_body {names outside inside : Scopes} {b : Binding} {stops : List Word} {s : List Symbol}
    {p : Passed (Block × Scopes) s.length} (henter : enterRoutine names b = .ok (outside, inside))
    (hbody : block { env with names := inside } at_ stops a s = .ok p) :
    Scopes.popScope p.value.2 = .ok p.value.2.top outside := by
  rcases enterRoutine_cases names b with ⟨h, _⟩ | ⟨inside', h, _, hinside⟩
  · rw [h] at henter
    cases henter
  · rw [h] at henter
    cases henter
    exact Scopes.popScope_of_below ((block_around hbody).trans hinside)

end Around

/-! ## Routines inside of routines -/

/-- Where the statements of a routine of the given kind stand, or those outside of all routines. -/
def Place.body (kind : Option Kind) : Place := ⟨false, true, [], kind⟩

/-- The words that end the body of a routine. Nothing ends the statements outside of all routines but the source. -/
def bodyEnds (kind : Option Kind) : List Word := if kind.isSome then routineEnds else []

/-- The statements of a body define a routine, with another one in its body, and so on for `n` routines inside of
each other, the last of which needs only a head. -/
inductive Nested : Nat → Context → Option Kind → Address → List Symbol → Prop
  | delimiter {n : Nat} {env : Context} {kind : Option Kind} {a : Address} {sym : Symbol} {rest : List Symbol} :
      sym.token = .delimiter → Nested n env kind a rest → Nested n env kind a (sym :: rest)
  | behind {n : Nat} {env : Context} {kind : Option Kind} {a : Address} {sym : Symbol} {rest : List Symbol}
      {p : Passed (Stmt × Scopes) rest.length} :
      statement env (.body kind) a sym rest = .ok p → endsStatement (bodyEnds kind) (env.token p.rest) = true →
      Nested n { env with names := p.value.2 } kind (a + p.value.1.size) p.rest → Nested n env kind a (sym :: rest)
  | head {env : Context} {kind : Option Kind} {a : Address} {sym : Symbol} {rest : List Symbol} {isFunction : Bool}
      {p : Passed (String × List String) rest.length} :
      lead sym.token = .routine isFunction → routineHead env rest = .ok p → Nested 1 env kind a (sym :: rest)
  | inside {n : Nat} {env : Context} {kind : Option Kind} {a : Address} {sym : Symbol} {rest : List Symbol}
      {isFunction : Bool} {p : Passed (String × List String) rest.length} {outside inside : Scopes} :
      lead sym.token = .routine isFunction → routineHead env rest = .ok p →
      enterRoutine env.names (.routine p.value.1 (if isFunction then .function else .sub)
        (a + routineHeadSize isFunction) p.value.2) = .ok (outside, inside) →
      Nested n { env with names := inside } (some (if isFunction then .function else .sub))
        (a + routineHeadSize isFunction) p.rest →
      Nested (n + 1) env kind a (sym :: rest)

section Nested

variable {env : Context} {kind : Option Kind} {a : Address} {sym : Symbol} {rest s : List Symbol}

/-- Surroundings in which a parse raises regular faults only. -/
structure Ready (env : Context) : Prop where
  names : (Likeness.regular False).Names env.names env.names
  ending : ∀ f, env.ending = .error f → f.Regular

namespace Ready

theorem surrounds (h : Ready env) (deep : Prop) : (Likeness.regular deep).Surrounds env env :=
  ⟨h.names, .inl rfl, .inl rfl⟩

theorem left (h : Ready env) (deep : Prop) (s : List Symbol) : (Likeness.regular deep).Left env env s s := by
  refine .refl (fun _ => rfl) ?_ s
  cases hending : env.ending with
  | ok e => exact .ok rfl
  | error f => exact .error (.inl (h.ending f hending))

theorem statement_alike (h : Ready env) (at_ : Place) (a : Address) (sym : Symbol) (rest : List Symbol) (deep : Prop)
    (hdeep : at_.declarations = true → deep) :
    (Likeness.regular deep).Passing env env ((Likeness.regular deep).SameStmt env.names)
      (statement env at_ a sym rest) (statement env at_ a sym rest) :=
  Likeness.statement_alike (h.surrounds deep) (regular_keepsBreaks deep) at_ (fun hat => .inr ⟨hdeep hat, rfl⟩) a rfl
    (h.left deep rest)

theorem statement {at_ : Place} {p : Passed (Stmt × Scopes) rest.length} (h : Ready env)
    (hp : statement env at_ a sym rest = .ok p) : Ready { env with names := p.value.2 } := by
  have halike := h.statement_alike at_ a sym rest True fun _ => trivial
  rw [hp] at halike
  cases halike with
  | ok halike => exact ⟨halike.value.names.names, h.ending⟩

theorem enter {b : Binding} {outside inside : Scopes} (h : Ready env)
    (hb : b.isRoutine = true → b.address.isSome = true)
    (henter : enterRoutine env.names b = .ok (outside, inside)) : Ready { env with names := inside } := by
  have halike := Likeness.enterRoutine_alike (h.surrounds True).names hb (.inr ⟨trivial, rfl⟩)
  rw [henter] at halike
  cases halike with
  | ok halike => exact ⟨halike.inside, h.ending⟩

end Ready

/-- Only the definition of a routine depends on whether routines may be defined. -/
theorem statement_closed {at_ : Place} (hlead : ∀ isFunction, lead sym.token ≠ .routine isFunction) :
    statement env at_ a sym rest = statement env { at_ with declarations := false } a sym rest := by
  rw [statement.eq_def, statement.eq_def]
  split <;> first | rfl | exact absurd ‹_› (hlead _)

theorem statement_ne_tooDeep {at_ : Place} (h : Ready env)
    (hlead : ∀ isFunction, lead sym.token ≠ .routine isFunction) :
    statement env at_ a sym rest ≠ .error Scopes.tooDeep := by
  intro hdeep
  have halike := h.statement_alike { at_ with declarations := false } a sym rest False nofun
  rw [← statement_closed hlead, hdeep] at halike
  exact ne_tooDeep_of_alike halike

/-- A statement that enters one scope too many is the definition of a routine. Either there is no scope for its body,
or its body enters one scope too many. -/
theorem nested_of_statement (h : Ready env) (hdepth : env.names.depth ≤ Scopes.limit)
    (ih : ∀ {env : Context} {kind : Option Kind} {a : Address} {s : List Symbol}, s.length ≤ rest.length → Ready env →
      env.names.depth ≤ Scopes.limit → block env (.body kind) (bodyEnds kind) a s = .error Scopes.tooDeep →
      Nested (Scopes.limit + 1 - env.names.depth) env kind a s)
    (hdeep : statement env (.body kind) a sym rest = .error Scopes.tooDeep) :
    Nested (Scopes.limit + 1 - env.names.depth) env kind a (sym :: rest) := by
  by_cases hlead : ∃ isFunction, lead sym.token = .routine isFunction
  case neg => exact absurd hdeep (statement_ne_tooDeep h fun isFunction hroutine => hlead ⟨isFunction, hroutine⟩)
  obtain ⟨isFunction, hlead⟩ := hlead
  rw [statement, hlead] at hdeep
  simp only [Place.body, Bool.not_true, Bool.false_eq_true, ↓reduceIte] at hdeep
  rcases bind_eq_error.1 hdeep with hdeep | ⟨_, _, hdeep⟩
  · exact (ne_tooDeep_of_alike (hdeep ▸ (h.left False rest).arrive)).elim
  rcases bind_eq_error.1 hdeep with hdeep | ⟨⟨⟨name, parameters⟩, r, hr⟩, hhead, hdeep⟩
  · exact (ne_tooDeep_of_alike (hdeep ▸ Likeness.routineHead_alike (h.surrounds False) (h.left False rest))).elim
  rcases bind_eq_error.1 hdeep with hdeep | ⟨⟨outside, inside⟩, henter, hdeep⟩
  · rcases enterRoutine_cases env.names _ with ⟨_, hlimit⟩ | ⟨_, hok, _⟩
    · have hone : Scopes.limit + 1 - env.names.depth = 1 := by omega
      rw [hone]
      exact .head hlead hhead
    · rw [hok] at hdeep
      cases hdeep
  · have hready : Ready { env with names := inside } := h.enter (fun _ => rfl) henter
    rcases bind_eq_error.1 hdeep with hdeep | ⟨⟨⟨body, names⟩, r', hr'⟩, hbody, hdeep⟩
    · rcases enterRoutine_cases env.names _ with ⟨hfails, _⟩ | ⟨_, hok, hlimit, hinside⟩
      · rw [hfails] at henter
        cases henter
      · rw [hok] at henter
        cases henter
        have hdepth' : inside.depth = env.names.depth + 1 := by
          rw [inside.depth_eq, hinside, env.names.depth_eq]
          rfl
        have hinner := ih hr hready (by show inside.depth ≤ _; omega) hdeep
        have hsucc : Scopes.limit + 1 - env.names.depth = Scopes.limit + 1 - inside.depth + 1 := by omega
        rw [hsucc]
        exact .inside hlead hhead hok hinner
    · rcases bind_eq_error.1 hdeep with hdeep | ⟨_, _, hdeep⟩
      · exact (ne_tooDeep_of_alike (hdeep ▸ Likeness.closeRoutine_alike isFunction (hready.left False r'))).elim
      · cases hdeep

/-- A body that enters one scope too many defines so many routines inside of each other. -/
theorem nested_of_block (s : List Symbol) {env : Context} {kind : Option Kind} {a : Address} (h : Ready env)
    (hdepth : env.names.depth ≤ Scopes.limit)
    (hdeep : block env (.body kind) (bodyEnds kind) a s = .error Scopes.tooDeep) :
    Nested (Scopes.limit + 1 - env.names.depth) env kind a s := by
  cases s with
  | nil =>
    rw [block] at hdeep
    cases hdeep
  | cons sym rest =>
    rw [block] at hdeep
    split at hdeep
    · rename_i hdelimiter
      split at hdeep
      · cases hdeep
      · rcases bind_eq_error.1 hdeep with hdeep | ⟨_, _, hdeep⟩
        · exact (ne_tooDeep_of_alike (hdeep ▸ (h.left False rest).arrive)).elim
        · rcases bind_eq_error.1 hdeep with hdeep | ⟨_, _, hdeep⟩
          · exact .delimiter hdelimiter (nested_of_block rest h hdepth hdeep)
          · cases hdeep
    · split at hdeep
      · cases hdeep
      -- the first statement enters the scope, or the statements behind it do with as many scopes entered as before
      · rcases bind_eq_error.1 hdeep with hdeep | ⟨⟨⟨first, names⟩, r, hr⟩, hp, hdeep⟩
        · refine nested_of_statement h hdepth (fun {_ _ _ s} hlen hready hdepth hdeep => ?_) hdeep
          exact nested_of_block s hready hdepth hdeep
        · dsimp only at hdeep
          split at hdeep
          · rename_i hends
            rcases bind_eq_error.1 hdeep with hdeep | ⟨_, _, hdeep⟩
            · have hsame : names.depth = env.names.depth := Scopes.depth_of_below (statement_around hp)
              have hinner := nested_of_block r (h.statement hp) (by show names.depth ≤ _; omega) hdeep
              rw [← hsame]
              exact .behind hp hends hinner
            · cases hdeep
          · rcases (h.left False r).unexpected "end of statement" with hregular | ⟨hfalse, _⟩
            · rw [Except.error.inj hdeep] at hregular
              exact absurd hregular not_regular_tooDeep
            · exact hfalse.elim
termination_by s.length
decreasing_by all_goals subst_vars; simp only [List.length_cons]; omega

theorem not_ends_of_lead {t : Token} (h : lead t ≠ .none) (kind : Option Kind) :
    t ≠ .delimiter ∧ endsBlock (bodyEnds kind) t = false := by
  refine ⟨by rintro rfl; exact h rfl, Bool.eq_false_iff.2 fun hends => ?_⟩
  cases t with
  | eof => exact h rfl
  | word w =>
    have hw : w ∈ routineEnds := by
      cases kind with
      | none => cases hends
      | some _ => exact List.contains_iff_mem.1 hends
    simp only [routineEnds, List.mem_cons, List.not_mem_nil, or_false] at hw
    rcases hw with rfl | rfl | rfl <;> exact h rfl
  | _ => cases hends

/-- A block fails where its first statement does, or the statements behind it. -/
theorem block_of_statement {f : Fault} (hlead : lead sym.token ≠ .none)
    (h : statement env (.body kind) a sym rest = .error f ∨ ∃ p, statement env (.body kind) a sym rest = .ok p ∧
      endsStatement (bodyEnds kind) (env.token p.rest) = true ∧
      block { env with names := p.value.2 } (.body kind) (bodyEnds kind) (a + p.value.1.size) p.rest = .error f) :
    block env (.body kind) (bodyEnds kind) a (sym :: rest) = .error f := by
  obtain ⟨hdelimiter, hends⟩ := not_ends_of_lead hlead kind
  rw [block, if_neg hdelimiter, if_neg (by rw [hends]; exact Bool.false_ne_true)]
  rcases h with h | ⟨p, hp, hends, h⟩
  · exact bind_eq_error.2 (.inl h)
  · refine bind_eq_error.2 (.inr ⟨p, hp, ?_⟩)
    dsimp only
    rw [if_pos hends]
    exact bind_eq_error.2 (.inl h)

theorem statement_of_head {isFunction : Bool} {p : Passed (String × List String) rest.length} {f : Fault}
    (hlead : lead sym.token = .routine isFunction) (hhead : routineHead env rest = .ok p)
    (h : enterRoutine env.names (.routine p.value.1 (if isFunction then .function else .sub)
        (a + routineHeadSize isFunction) p.value.2) = .error f ∨
      ∃ outside inside, enterRoutine env.names (.routine p.value.1 (if isFunction then .function else .sub)
          (a + routineHeadSize isFunction) p.value.2) = .ok (outside, inside) ∧
        block { env with names := inside } (.body (some (if isFunction then .function else .sub))) routineEnds
          (a + routineHeadSize isFunction) p.rest = .error f) :
    statement env (.body kind) a sym rest = .error f := by
  have harrive : env.arrive rest = .ok () := by
    cases rest with
    | nil => cases hhead
    | cons => exact arrive_cons ..
  rw [statement, hlead]
  simp only [Place.body, Bool.not_true, Bool.false_eq_true, ↓reduceIte]
  refine bind_eq_error.2 (.inr ⟨_, harrive, bind_eq_error.2 (.inr ⟨p, hhead, bind_eq_error.2 ?_⟩)⟩)
  rcases h with h | ⟨outside, inside, henter, h⟩
  · exact .inl h
  · exact .inr ⟨_, henter, bind_eq_error.2 (.inl h)⟩

/-- A body that defines so many routines inside of each other enters one scope too many. -/
theorem block_of_nested {n : Nat} (h : Nested n env kind a s) (hn : n + env.names.depth = Scopes.limit + 1) :
    block env (.body kind) (bodyEnds kind) a s = .error Scopes.tooDeep := by
  induction h with
  | @delimiter n env kind a sym rest hdelimiter hnested ih =>
    have harrive : env.arrive rest = .ok () := by
      cases hnested <;> exact arrive_cons ..
    rw [block, if_pos hdelimiter]
    exact bind_eq_error.2 (.inr ⟨_, harrive, bind_eq_error.2 (.inl (ih hn))⟩)
  | @behind n env kind a sym rest p hp hends hnested ih =>
    have hlead : lead sym.token ≠ .none := by
      intro hlead
      rw [statement, hlead] at hp
      cases hp
    have hsame : p.value.2.depth = env.names.depth := Scopes.depth_of_below (statement_around hp)
    exact block_of_statement hlead (.inr ⟨p, hp, hends, ih (by show n + p.value.2.depth = _; omega)⟩)
  | @head env kind a sym rest isFunction p hlead hhead =>
    refine block_of_statement (by simp [hlead]) (.inl (statement_of_head hlead hhead (.inl ?_)))
    rcases enterRoutine_cases env.names _ with ⟨h, _⟩ | ⟨_, _, hlimit, _⟩
    · exact h
    · omega
  | @inside n env kind a sym rest isFunction p outside inside hlead hhead henter hnested ih =>
    refine block_of_statement (by simp [hlead])
      (.inl (statement_of_head hlead hhead (.inr ⟨outside, inside, henter, ih ?_⟩)))
    rcases enterRoutine_cases env.names _ with ⟨h, _⟩ | ⟨_, h, _, hinside⟩
    · rw [h] at henter
      cases henter
    · rw [h] at henter
      cases henter
      have hdepth : inside.depth = env.names.depth + 1 := by
        rw [inside.depth_eq, hinside, env.names.depth_eq]
        rfl
      show n + inside.depth = _
      omega

end Nested

/-! ## Scripts -/

/-- What is known when the parse of a text begins. -/
abbrev Context.ofText (text : Symbols) (explicit external : Bool) (shared : Scope) : Context :=
  ⟨.onBottom shared.unbound, explicit, external, text.ending⟩

section Scripts

variable {text : Symbols} {explicit external : Bool} {shared : Scope}

theorem regular_frames (hshared : ∀ b ∈ shared.names, b.isRoutine = false) :
    (Likeness.regular False).Frames shared.unbound shared.unbound := by
  refine .refl fun b hb => ⟨rfl, fun hroutine => ?_⟩
  obtain ⟨b', hb', rfl⟩ := List.mem_map.1 hb
  exact absurd ((hshared b' hb').symm.trans hroutine) Bool.false_ne_true

theorem ready_ofText (hshared : ∀ b ∈ shared.names, b.isRoutine = false)
    (hending : ∀ f, text.ending = .error f → f.OfScan) : Ready (.ofText text explicit external shared) :=
  ⟨.cons (fun _ => .none) (.cons (regular_frames hshared) .nil), fun f hf => .inl (hending f hf)⟩

/-- The fault of a script is regular, or that of entering one scope too many. -/
theorem regular_of_script (hshared : ∀ b ∈ shared.names, b.isRoutine = false)
    (hending : ∀ f, text.ending = .error f → f.OfScan) {f : Fault}
    (h : script text explicit external shared = .error f) : f.Regular ∨ f = Scopes.tooDeep := by
  have hready : Ready (.ofText text explicit external shared) := ready_ofText hshared hending
  have halike := Likeness.script_alike (hready.left True text.ahead) (regular_keepsBreaks True)
    (regular_frames hshared) (.inl rfl : explicit = explicit ∨ _) (.inl rfl : external = external ∨ _) (.inr ⟨trivial, rfl⟩)
  rw [h] at halike
  exact (regular_of_alike halike).imp_right And.right

/-- A script enters one scope too many exactly if more than 65533 routines are defined inside of each other. -/
theorem script_tooDeep_iff (hshared : ∀ b ∈ shared.names, b.isRoutine = false)
    (hending : ∀ f, text.ending = .error f → f.OfScan) :
    script text explicit external shared = .error Scopes.tooDeep ↔
      Nested (65533 + 1) (.ofText text explicit external shared) none 0 text.ahead := by
  have hready : Ready (.ofText text explicit external shared) := ready_ofText hshared hending
  have hdepth : (Context.ofText text explicit external shared).names.depth = 2 := rfl
  have harrive := hready.left False text.ahead
  constructor
  · intro h
    rcases bind_eq_error.1 h with h | ⟨_, _, h⟩
    · exact (ne_tooDeep_of_alike (h ▸ harrive.arrive)).elim
    rcases bind_eq_error.1 h with h | ⟨⟨⟨body, names⟩, r, hr⟩, _, h⟩
    · exact nested_of_block text.ahead hready (by rw [hdepth]; decide) h
    · dsimp only at h
      split at h
      · cases h
      · rcases (hready.left False r).unexpected "end of source" with hregular | ⟨hfalse, _⟩
        · rw [Except.error.inj h] at hregular
          exact absurd hregular not_regular_tooDeep
        · exact hfalse.elim
  · intro h
    have harrive : (Context.ofText text explicit external shared).arrive text.ahead = .ok () := by
      cases hahead : text.ahead with
      | nil =>
        rw [hahead] at h
        cases h
      | cons => exact arrive_cons ..
    have hblock := block_of_nested h (by rw [hdepth]; rfl)
    exact bind_eq_error.2 (.inr ⟨_, harrive, bind_eq_error.2 (.inl hblock)⟩)

end Scripts

end Grammar

end MacroBasic
