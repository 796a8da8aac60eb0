/-
Two parses side by side. Where the symbols of two sources may take each other's place and the names that can be
seen stand for the same, the parser cannot tell the sources apart: it gives the same tree, up to what the
symbols differ in, or raises faults that are reported alike. What it takes is stated once, as a likeness. Behind
the end symbol the second source may go on as it likes, since nothing there is asked for.
-/
import MacroBasic.Grammar.Statement
import MacroBasic.Proofs.Grammar.Reading
import Mathlib.Data.List.Forall2

namespace MacroBasic

/-- The codes of the faults that parsing raises. -/
def FaultCode.OfParse (c : FaultCode) : Prop := c.phase = .parse ∧ c ≠ .notYetImplemented

instance (c : FaultCode) : Decidable c.OfParse := inferInstanceAs (Decidable (_ ∧ _))

/-- What a parse asks about a binding: its kind and, if it has an address, what it takes to call it. -/
def Binding.outline (b : Binding) : Kind × Option (Address × List String) :=
  (b.kind, b.address.map fun a => (a, b.parameters))

/-- Bindings that look the same to all that a parse asks. -/
def Binding.Resembles (b c : Binding) : Prop := b.outline = c.outline

theorem Binding.Resembles.refl (b : Binding) : b.Resembles b := rfl

/-- The fault of entering one scope too many. -/
def Scopes.tooDeep : Fault := .because .stackOverflow s!"Call depth exceeds {limit} frames"

namespace Grammar

/-! ## Likenesses -/

/-- A way in which sources and their surroundings may differ without a difference to the parser. -/
structure Likeness where
  /-- The symbols that may take each other's place. -/
  symbol : Symbol → Symbol → Prop
  /-- The bindings that may stand for the same name. -/
  binding : Binding → Binding → Prop
  /-- The faults that are reported alike. -/
  fault : Fault → Fault → Prop
  /-- What is the same about places. -/
  place : Position → Position
  /-- Whether the second parse may go on where the first one fails. -/
  lenient : Prop
  /-- The symbol that stands for the end of a text that cannot be scanned takes its own place. -/
  symbol_eof : ∀ {s}, s.token = .eof → symbol s s
  token : ∀ {s t}, symbol s t → s.token = t.token
  /-- Literals have the same values. -/
  value : ∀ {s t}, symbol s t → s.token = .number ∨ s.token = .string → s.value = t.value
  /-- Names are never exchanged. -/
  name : ∀ {s t}, symbol s t → s.token = .name → s.text = t.text
  position : ∀ {s t}, symbol s t → place s.position = place t.position
  outline : ∀ {b c}, binding b c → b.outline = c.outline
  /-- What a script declares is the same for both parses. -/
  declared : ∀ b : Binding, (b.isRoutine = true → b.address.isSome = true) → binding b b
  raised : ∀ {s t}, symbol s t → ∀ {code : FaultCode} {m n : String}, code.OfParse → (s.text = t.text → m = n) →
    fault (s.fault code m) (t.fault code n)
  unaddressed : ∀ {s t b c}, symbol s t → binding b c → b.isRoutine = true → b.address = none →
    ∀ m, fault (s.fault .internal m) (t.fault .internal m)

namespace Likeness

variable (L : Likeness)

/-- Outcomes that are results in relation or faults reported alike. -/
inductive Alike {α β : Type} (R : α → β → Prop) : Except Fault α → Except Fault β → Prop
  | ok {a : α} {b : β} : R a b → Alike R (.ok a) (.ok b)
  | error {f g : Fault} : L.fault f g → Alike R (.error f) (.error g)
  | refused {f : Fault} {y : Except Fault β} : L.lenient → Alike R (.error f) y

/-- Scans that end with symbols that may take each other's place, or that are stopped by faults reported alike. -/
inductive Endings : Except Fault Symbol → Except Fault Symbol → Prop
  | ok {a b : Symbol} : L.symbol a b → Endings (.ok a) (.ok b)
  | error {f g : Fault} : L.fault f g → Endings (.error f) (.error g)

/-- What is left of two texts whose scans end with `u` and `v`: symbols that may take each other's place, up to
the end of both or up to an end symbol in the second. -/
inductive Symbols (u v : Except Fault Symbol) : List Symbol → List Symbol → Prop
  | nil : L.Endings u v → Symbols u v [] []
  | cons {a b : Symbol} {s t : List Symbol} : L.symbol a b → Symbols u v s t → Symbols u v (a :: s) (b :: t)
  | ended {e b : Symbol} {more : List Symbol} : u = .ok e → L.symbol e b → b.token = .eof → Symbols u v [] (b :: more)

/-- Parses with results in relation that leave symbols which may take each other's place. -/
structure Parses {α β : Type} (u v : Except Fault Symbol) (R : α → β → Prop) {n m : Nat} (p : Parsed α n)
    (q : Parsed β m) : Prop where
  value : R p.value q.value
  rest : L.Symbols u v p.rest q.rest

/-- The same of parses that may pass nothing. -/
structure Passes {α β : Type} (u v : Except Fault Symbol) (R : α → β → Prop) {n m : Nat} (p : Passed α n)
    (q : Passed β m) : Prop where
  value : R p.value q.value
  rest : L.Symbols u v p.rest q.rest

/-- What is left of two texts in two surroundings. -/
abbrev Left (env env' : Context) : List Symbol → List Symbol → Prop := L.Symbols env.ending env'.ending

/-- What two parses in two surroundings come to. -/
abbrev Parsing {α β : Type} (env env' : Context) (R : α → β → Prop) {n m : Nat} :
    Except Fault (Parsed α n) → Except Fault (Parsed β m) → Prop := L.Alike (L.Parses env.ending env'.ending R)

/-- The same of parses that may pass nothing. -/
abbrev Passing {α β : Type} (env env' : Context) (R : α → β → Prop) {n m : Nat} :
    Except Fault (Passed α n) → Except Fault (Passed β m) → Prop := L.Alike (L.Passes env.ending env'.ending R)

/-- Line breaks take the place of line breaks only. -/
def KeepsBreaks : Prop := ∀ {s t}, L.symbol s t → s.isNewline = t.isNewline

/-- Symbols of one class that may take each other's place. -/
def Both (k : Token) (a b : Symbol) : Prop := L.symbol a b ∧ a.token = k

/-- Scopes in which each name has bindings that may stand for it, or none in both. -/
def Frames (f g : Scope) : Prop := ∀ name, Option.Rel L.binding (f.get? name) (g.get? name)

/-- The same of chains of scopes. -/
def Names (S T : Scopes) : Prop := List.Forall₂ L.Frames S.frames T.frames

/-- Surroundings in which names stand for the same and the rules are the same; for a lenient likeness the second
rules may allow more. -/
structure Surrounds (env env' : Context) : Prop where
  names : L.Names env.names env'.names
  explicit : env.explicit = env'.explicit ∨ L.lenient ∧ env'.explicit = false
  external : env.external = env'.external ∨ L.lenient ∧ env'.external = true

variable {L}

theorem Alike.bind {α β γ δ : Type} {R : α → β → Prop} {S : γ → δ → Prop} {x : Except Fault α}
    {y : Except Fault β} {k : α → Except Fault γ} {k' : β → Except Fault δ} (h : L.Alike R x y)
    (hk : ∀ a b, R a b → L.Alike S (k a) (k' b)) : L.Alike S (x >>= k) (y >>= k') := by
  cases h with
  | ok h => exact hk _ _ h
  | error h => exact .error h
  | refused h => exact .refused h

section Bind

variable {u v : Except Fault Symbol}

/-- Goes on from two parses with one result. -/
theorem Alike.parsed {α γ δ : Type} {n m : Nat} {S : γ → δ → Prop} {x : Except Fault (Parsed α n)}
    {y : Except Fault (Parsed α m)} {k : Parsed α n → Except Fault γ} {k' : Parsed α m → Except Fault δ}
    (h : L.Alike (L.Parses u v Eq) x y)
    (hk : ∀ a r r' (hr : r.length < n) (hr' : r'.length < m), L.Symbols u v r r' →
      L.Alike S (k ⟨a, r, hr⟩) (k' ⟨a, r', hr'⟩)) : L.Alike S (x >>= k) (y >>= k') :=
  h.bind fun ⟨a, r, hr⟩ ⟨_, r', hr'⟩ ⟨hv, hrest⟩ => by cases hv; exact hk a r r' hr hr' hrest

/-- Goes on from two required symbols. -/
theorem Alike.required {γ δ : Type} {n m : Nat} {R : Symbol → Symbol → Prop} {S : γ → δ → Prop}
    {x : Except Fault (Parsed Symbol n)} {y : Except Fault (Parsed Symbol m)}
    {k : Parsed Symbol n → Except Fault γ} {k' : Parsed Symbol m → Except Fault δ}
    (h : L.Alike (L.Parses u v R) x y)
    (hk : ∀ a b r r' (hr : r.length < n) (hr' : r'.length < m), R a b → L.Symbols u v r r' →
      L.Alike S (k ⟨a, r, hr⟩) (k' ⟨b, r', hr'⟩)) : L.Alike S (x >>= k) (y >>= k') :=
  h.bind fun ⟨a, r, hr⟩ ⟨b, r', hr'⟩ ⟨hab, hrest⟩ => hk a b r r' hr hr' hab hrest

theorem Alike.passed {α γ δ : Type} {n m : Nat} {S : γ → δ → Prop} {x : Except Fault (Passed α n)}
    {y : Except Fault (Passed α m)} {k : Passed α n → Except Fault γ} {k' : Passed α m → Except Fault δ}
    (h : L.Alike (L.Passes u v Eq) x y)
    (hk : ∀ a r r' (hr : r.length ≤ n) (hr' : r'.length ≤ m), L.Symbols u v r r' →
      L.Alike S (k ⟨a, r, hr⟩) (k' ⟨a, r', hr'⟩)) : L.Alike S (x >>= k) (y >>= k') :=
  h.bind fun ⟨a, r, hr⟩ ⟨_, r', hr'⟩ ⟨hv, hrest⟩ => by cases hv; exact hk a r r' hr hr' hrest

end Bind

/-! ## Names -/

theorem kind_of_outline {b c : Binding} (h : b.outline = c.outline) : b.kind = c.kind := congrArg Prod.fst h

theorem isRoutine_of_outline {b c : Binding} (h : b.outline = c.outline) : b.isRoutine = c.isRoutine := by
  rw [Binding.isRoutine, kind_of_outline h]
  rfl

theorem map_kind {o o' : Option Binding} (h : Option.Rel L.binding o o') :
    o.map Binding.kind = o'.map Binding.kind := by
  cases h with
  | some h => exact congrArg some (kind_of_outline (L.outline h))
  | none => rfl

theorem map_isRoutine {o o' : Option Binding} (h : Option.Rel L.binding o o') :
    o.map Binding.isRoutine = o'.map Binding.isRoutine := by
  cases h with
  | some h => exact congrArg some (isRoutine_of_outline (L.outline h))
  | none => rfl

theorem isSome_eq {o o' : Option Binding} (h : Option.Rel L.binding o o') : o.isSome = o'.isSome := by
  cases h <;> rfl

theorem Frames.allocate {f g : Scope} (h : L.Frames f g) {b : Binding} (hb : L.binding b b) :
    L.Frames (f.allocate b) (g.allocate b) := by
  intro name
  by_cases hname : b.name = name
  · subst hname
    rw [Scope.get?_allocate_self, Scope.get?_allocate_self]
    exact .some hb
  · rw [Scope.get?_allocate_of_ne hname, Scope.get?_allocate_of_ne hname]
    exact h name

/-- A scope whose bindings may all stand for themselves. -/
theorem Frames.refl {f : Scope} (h : ∀ b ∈ f.names, L.binding b b) : L.Frames f f := by
  intro name
  cases hb : f.get? name with
  | none => exact .none
  | some b => exact .some (h b (List.mem_of_find?_eq_some hb))

namespace Names

variable {S T : Scopes}

theorem getTop? (h : L.Names S T) (name : String) : Option.Rel L.binding (S.getTop? name) (T.getTop? name) := by
  cases h with
  | cons htop _ => exact htop name

theorem get? (h : L.Names S T) (name : String) : Option.Rel L.binding (S.get? name) (T.get? name) := by
  unfold Scopes.get?
  unfold Names at h
  generalize S.frames = frames, T.frames = frames' at h
  -- the first scope that binds the name is the same in both chains
  induction h with
  | nil => exact .none
  | @cons f g _ _ htop _ ih =>
    rw [List.findSome?_cons, List.findSome?_cons]
    have hfirst := htop name
    revert hfirst
    generalize f.get? name = o, g.get? name = o'
    rintro (hb | _)
    · exact .some hb
    · exact ih

theorem allocate (h : L.Names S T) {b : Binding} (hb : b.isRoutine = true → b.address.isSome = true) :
    L.Names (S.allocate b) (T.allocate b) := by
  cases h with
  | cons htop hbelow => exact .cons (htop.allocate (L.declared b hb)) hbelow

theorem declare (h : L.Names S T) (name : String) :
    L.Names (S.allocate { name := name }) (T.allocate { name := name }) :=
  h.allocate nofun

theorem depth_eq (h : L.Names S T) : S.depth = T.depth := by
  rw [S.depth_eq, T.depth_eq]
  exact h.length_eq

end Names

namespace Surrounds

variable {env env' : Context}

/-- The same surroundings with other names. -/
theorem withNames (he : L.Surrounds env env') {S T : Scopes} (h : L.Names S T) :
    L.Surrounds { env with names := S } { env' with names := T } :=
  ⟨h, he.explicit, he.external⟩

theorem known (he : L.Surrounds env env') (name : String) :
    (env.names.get? name).map Binding.kind = (env'.names.get? name).map Binding.kind :=
  map_kind (he.names.get? name)

theorem declared (he : L.Surrounds env env') (name : String) :
    (env.names.getTop? name).isSome = (env'.names.getTop? name).isSome :=
  isSome_eq (he.names.getTop? name)

end Surrounds

/-! ## Symbols that are left -/

namespace Symbols

variable {env env' : Context} {s t : List Symbol}

theorem current (h : L.Left env env' s t) : L.symbol (env.current s) (env'.current t) := by
  cases h with
  | cons h _ => exact h
  | nil h =>
    show L.symbol env.eof env'.eof
    unfold Context.eof
    generalize env.ending = u, env'.ending = v at h
    cases h with
    | ok h => exact h
    | error => exact L.symbol_eof rfl
  | ended hu hs _ =>
    show L.symbol env.eof _
    unfold Context.eof
    rw [hu]
    exact hs

theorem token (h : L.Left env env' s t) : env.token s = env'.token t := L.token h.current

theorem arrive (h : L.Left env env' s t) : L.Alike Eq (env.arrive s) (env'.arrive t) := by
  cases h with
  | cons => exact .ok rfl
  | nil h =>
    unfold Context.arrive
    generalize env.ending = u, env'.ending = v at h
    cases h with
    | ok => exact .ok rfl
    | error h => exact .error h
  | ended hu _ _ =>
    unfold Context.arrive
    rw [hu]
    exact .ok rfl

theorem unexpected (h : L.Left env env' s t) (expected : String) :
    L.fault (env.unexpected s expected) (env'.unexpected t expected) := by
  have hc := h.current
  unfold Context.unexpected
  refine L.raised hc (by decide) fun htext => ?_
  rw [Symbol.isNewline, L.token hc, htext]
  rfl

theorem missingOperand (h : L.Left env env' s t) :
    L.fault (env.missingOperand s) (env'.missingOperand t) := by
  have hc := h.current
  unfold Context.missingOperand
  dsimp only
  rw [L.token hc]
  split
  · exact L.raised hc (by decide) fun _ => rfl
  · exact h.unexpected _

theorem require (h : L.Left env env' s t) (k : Token) (hk : k ≠ .eof) {f g : Fault} (hf : L.fault f g) :
    L.Parsing env env' (L.Both k) (env.require k s f) (env'.require k t g) := by
  cases h with
  | nil => exact .error hf
  | ended _ _ hb =>
    unfold Context.require
    dsimp only
    rw [if_neg (by rw [hb]; exact hk.symm)]
    exact .error hf
  | @cons a b rest rest' hs hr =>
    unfold Context.require
    dsimp only
    rw [L.token hs]
    split
    · rename_i hk
      exact hr.arrive.bind fun _ _ _ => .ok ⟨⟨hs, (L.token hs).trans hk⟩, hr⟩
    · exact .error hf

theorem violation (h : L.Left env env' s t) (message : String) :
    L.fault (env.violation s message) (env'.violation t message) :=
  L.raised h.current (by decide) fun _ => rfl

theorem missingOpen (h : L.Left env env' s t) (place : String) :
    L.fault (env.missingOpen s place) (env'.missingOpen t place) :=
  L.raised h.current (by decide) fun _ => rfl

theorem missingComma (h : L.Left env env' s t) (place : String) :
    L.fault (env.missingComma s place) (env'.missingComma t place) :=
  L.raised h.current (by decide) fun _ => rfl

theorem missingClose (h : L.Left env env' s t) (place : String) :
    L.fault (env.missingClose s place) (env'.missingClose t place) :=
  L.raised h.current (by decide) fun _ => rfl

theorem requireClose (h : L.Left env env' s t) (place : String) :
    L.Parsing env env' (L.Both .closeParen) (env.requireClose s place) (env'.requireClose t place) :=
  h.require .closeParen nofun (h.missingClose place)

end Symbols

/-! ## Operands without parts -/

variable {env env' : Context} {a b : Symbol} {s t : List Symbol}

theorem operator? (h : L.symbol a b) (l : Level) : l.operator? a = l.operator? b := by
  unfold Level.operator?
  rw [L.token h]

theorem operator?_eof (l : Level) (h : a.token = .eof) : l.operator? a = none := by
  unfold Level.operator?
  rw [h]

theorem opening (h : L.symbol a b) : Grammar.opening a = Grammar.opening b := by
  have hvalue := L.value h
  rw [L.token h] at hvalue
  unfold Grammar.opening
  rw [L.token h]
  split
  · rename_i ht
    rw [hvalue (.inl ht)]
  · rename_i ht
    rw [hvalue (.inr ht)]
  all_goals rfl

theorem opening_eof (h : a.token = .eof) : Grammar.opening a = .none := by
  unfold Grammar.opening
  rw [h]

theorem name_of_opening (h : Grammar.opening a = .name) : a.token = .name := by
  unfold Grammar.opening at h
  split at h <;> try cases h
  · assumption
  · split at h <;> try cases h
    split at h <;> cases h

theorem factorials_alike (e : Expr) (h : L.Left env env' s t) :
    L.Passing env env' Eq (factorials env e s) (factorials env' e t) := by
  induction h generalizing e with
  | nil hx => exact .ok ⟨rfl, .nil hx⟩
  | ended hu hs hb =>
    simp only [factorials, hb, reduceCtorEq, ↓reduceIte]
    exact .ok ⟨rfl, .ended hu hs hb⟩
  | @cons a b rest rest' hs hr ih =>
    unfold factorials
    rw [L.token hs]
    split
    · exact hr.arrive.bind fun _ _ _ => (ih _).bind fun p q hpq => .ok ⟨hpq.value, hpq.rest⟩
    · exact .ok ⟨rfl, .cons hs hr⟩

theorem routineOf_alike (he : L.Surrounds env env') (h : L.symbol a b) (hname : a.token = .name) :
    L.Alike Eq (routineOf env a) (routineOf env' b) := by
  have hunknown : L.fault (Context.unknownRoutine a) (Context.unknownRoutine b) :=
    L.raised h (by decide) fun ht => by rw [ht]
  have hbound := he.names.get? b.text
  unfold routineOf
  rw [L.name h hname]
  revert hbound
  generalize env.names.get? b.text = o, env'.names.get? b.text = o'
  rintro (hbinding | _)
  · rename_i c d
    have houtline := L.outline hbinding
    dsimp only
    rw [isRoutine_of_outline houtline]
    split
    · rename_i hroutine
      have hsame : c.address.map (fun x => (x, c.parameters)) = d.address.map (fun x => (x, d.parameters)) :=
        congrArg Prod.snd houtline
      cases hc : c.address with
      | some entry =>
        cases hd : d.address with
        | some entry' =>
          rw [hc, hd] at hsame
          obtain ⟨rfl, hparameters⟩ := Prod.mk.inj (Option.some.inj hsame)
          exact .ok (by rw [hparameters])
        | none => rw [hc, hd] at hsame; cases hsame
      | none =>
        cases hd : d.address with
        | some entry' => rw [hc, hd] at hsame; cases hsame
        | none =>
          exact .error (L.unaddressed h hbinding ((isRoutine_of_outline houtline).trans hroutine) hc _)
    · exact .error hunknown
  · exact .error hunknown

/-! ## Expressions -/

mutual

theorem expression_alike (he : L.Surrounds env env') {s t : List Symbol} (h : L.Left env env' s t) :
    L.Parsing env env' Eq (expression env s) (expression env' t) := by
  rw [expression, expression]
  exact (conjunction_alike he h).parsed fun first r r' _ _ hrest =>
    (alternatives_alike he first hrest).passed fun _ _ _ _ _ hrest => .ok ⟨rfl, hrest⟩
termination_by 16 * s.length + 11

theorem alternatives_alike (he : L.Surrounds env env') (left : Expr) {s t : List Symbol} (h : L.Left env env' s t) :
    L.Passing env env' Eq (alternatives env left s) (alternatives env' left t) := by
  rw [alternatives.eq_def env, alternatives.eq_def env']
  cases h with
  | nil hx => exact .ok ⟨rfl, .nil hx⟩
  | ended hu hs hb =>
    simp only [hb, reduceCtorEq, ↓reduceIte]
    exact .ok ⟨rfl, .ended hu hs hb⟩
  | cons hs hr =>
    dsimp only
    rw [L.token hs]
    split
    · exact hr.arrive.bind fun _ _ _ => (conjunction_alike he hr).parsed fun right r r' _ _ hrest =>
        (alternatives_alike he _ hrest).passed fun _ _ _ _ _ hrest => .ok ⟨rfl, hrest⟩
    · exact .ok ⟨rfl, .cons hs hr⟩
termination_by 16 * s.length

theorem conjunction_alike (he : L.Surrounds env env') {s t : List Symbol} (h : L.Left env env' s t) :
    L.Parsing env env' Eq (conjunction env s) (conjunction env' t) := by
  rw [conjunction, conjunction]
  exact (chain_alike he .relation h).parsed fun first r r' _ _ hrest =>
    (conjuncts_alike he hrest).passed fun _ _ _ _ _ hrest => .ok ⟨rfl, hrest⟩
termination_by 16 * s.length + 10
decreasing_by all_goals have := Level.relation.rank_le; omega

theorem conjuncts_alike (he : L.Surrounds env env') {s t : List Symbol} (h : L.Left env env' s t) :
    L.Passing env env' Eq (conjuncts env s) (conjuncts env' t) := by
  rw [conjuncts.eq_def env, conjuncts.eq_def env']
  cases h with
  | nil hx => exact .ok ⟨rfl, .nil hx⟩
  | ended hu hs hb =>
    simp only [hb, reduceCtorEq, ↓reduceIte]
    exact .ok ⟨rfl, .ended hu hs hb⟩
  | cons hs hr =>
    dsimp only
    rw [L.token hs]
    split
    · exact hr.arrive.bind fun _ _ _ => (chain_alike he .relation hr).parsed fun e r r' _ _ hrest =>
        (conjuncts_alike he hrest).passed fun _ _ _ _ _ hrest => .ok ⟨rfl, hrest⟩
    · exact .ok ⟨rfl, .cons hs hr⟩
termination_by 16 * s.length
decreasing_by all_goals have := Level.relation.rank_le; simp only [List.length_cons]; omega

theorem chain_alike (he : L.Surrounds env env') (l : Level) {s t : List Symbol} (h : L.Left env env' s t) :
    L.Parsing env env' Eq (chain env l s) (chain env' l t) := by
  rw [chain, chain]
  exact (chainOperand_alike he l h).parsed fun first r r' _ _ hrest =>
    (chainRest_alike he l first hrest).passed fun _ _ _ _ _ hrest => .ok ⟨rfl, hrest⟩
termination_by 16 * s.length + l.rank + 1

theorem chainOperand_alike (he : L.Surrounds env env') (l : Level) {s t : List Symbol} (h : L.Left env env' s t) :
    L.Parsing env env' Eq (chainOperand env l s) (chainOperand env' l t) := by
  cases hl : l.tighter? with
  | some m =>
    have := Level.rank_tighter hl
    rw [chainOperand_of_some env hl, chainOperand_of_some env' hl]
    exact chain_alike he m h
  | none =>
    have := l.one_lt_rank
    rw [chainOperand_of_none env hl, chainOperand_of_none env' hl]
    exact factorial_alike he h
termination_by 16 * s.length + l.rank

theorem chainRest_alike (he : L.Surrounds env env') (l : Level) (left : Expr) {s t : List Symbol}
    (h : L.Left env env' s t) : L.Passing env env' Eq (chainRest env l left s) (chainRest env' l left t) := by
  rw [chainRest.eq_def env, chainRest.eq_def env']
  cases h with
  | nil hx => exact .ok ⟨rfl, .nil hx⟩
  | ended hu hs hb =>
    simp only [operator?_eof l hb]
    exact .ok ⟨rfl, .ended hu hs hb⟩
  | cons hs hr =>
    dsimp only
    rw [L.operator? hs]
    split
    · exact hr.arrive.bind fun _ _ _ => (chainOperand_alike he l hr).parsed fun right r r' _ _ hrest =>
        (chainRest_alike he l _ hrest).passed fun _ _ _ _ _ hrest => .ok ⟨rfl, hrest⟩
    · exact .ok ⟨rfl, .cons hs hr⟩
termination_by 16 * s.length
decreasing_by all_goals have := l.rank_le; simp only [List.length_cons]; omega

theorem factorial_alike (he : L.Surrounds env env') {s t : List Symbol} (h : L.Left env env' s t) :
    L.Parsing env env' Eq (factorial env s) (factorial env' t) := by
  rw [factorial, factorial]
  exact (operand_alike he h).parsed fun first r r' _ _ hrest =>
    (factorials_alike first hrest).passed fun _ _ _ _ _ hrest => .ok ⟨rfl, hrest⟩
termination_by 16 * s.length + 1

theorem operand_alike (he : L.Surrounds env env') {s t : List Symbol} (h : L.Left env env' s t) :
    L.Parsing env env' Eq (operand env s) (operand env' t) := by
  rw [operand.eq_def env, operand.eq_def env']
  cases h with
  | nil hx => exact .error (Symbols.missingOperand (.nil hx))
  | ended hu hs hb =>
    simp only [opening_eof hb]
    exact .error (Symbols.missingOperand (.ended hu hs hb))
  | @cons a b rest rest' hs hr =>
    dsimp only
    rw [L.opening hs]
    split
    · exact hr.arrive.bind fun _ _ _ => .ok ⟨rfl, hr⟩
    · exact hr.arrive.bind fun _ _ _ => (operand_alike he hr).parsed fun _ _ _ _ _ hrest => .ok ⟨rfl, hrest⟩
    · exact hr.arrive.bind fun _ _ _ =>
        (hr.require _ (by decide) (hr.missingOpen _)).required fun _ _ _ _ _ _ _ hr =>
        (expression_alike he hr).parsed fun _ _ _ _ _ hr =>
        (hr.requireClose _).required fun _ _ _ _ _ _ _ hr => .ok ⟨rfl, hr⟩
    · exact hr.arrive.bind fun _ _ _ =>
        (hr.require _ (by decide) (hr.missingOpen _)).required fun _ _ _ _ _ _ _ hr =>
        (expression_alike he hr).parsed fun _ _ _ _ _ hr =>
        (hr.require _ (by decide) (hr.missingComma _)).required fun _ _ _ _ _ _ _ hr =>
        (expression_alike he hr).parsed fun _ _ _ _ _ hr =>
        (hr.require _ (by decide) (hr.missingComma _)).required fun _ _ _ _ _ _ _ hr =>
        (expression_alike he hr).parsed fun _ _ _ _ _ hr =>
        (hr.requireClose _).required fun _ _ _ _ _ _ _ hr => .ok ⟨rfl, hr⟩
    · exact hr.arrive.bind fun _ _ _ =>
        (dialogSlots_alike he _ false hr).passed fun _ _ _ _ _ hrest => .ok ⟨rfl, hrest⟩
    · exact hr.arrive.bind fun _ _ _ => (expression_alike he hr).parsed fun _ _ _ _ _ hr =>
        (hr.requireClose _).required fun _ _ _ _ _ _ _ hr => .ok ⟨rfl, hr⟩
    · rename_i hopening
      have hname : a.token = .name := name_of_opening (L.opening hs ▸ hopening)
      rw [L.name hs hname, he.known]
      split
      · exact hr.arrive.bind fun _ _ _ =>
          (call_alike he hs hname true hr).passed fun _ _ _ _ _ hrest => .ok ⟨rfl, hrest⟩
      · exact .error (L.raised hs (by decide) fun _ => rfl)
      · rename_i known _ _
        have hread : L.Parsing env env' Eq (do env.arrive rest; return .one (Expr.variable b.text) a rest)
            (do env'.arrive rest'; return .one (Expr.variable b.text) b rest') :=
          hr.arrive.bind fun _ _ _ => .ok ⟨rfl, hr⟩
        rcases he.explicit with hx | ⟨hlenient, hx⟩
        · rw [hx]
          split
          · exact .error (L.raised hs (by decide) fun _ => rfl)
          · exact hread
        · -- the second parse does not ask for a declaration
          rw [hx, Bool.and_false, if_neg Bool.false_ne_true]
          split
          · exact .refused hlenient
          · exact hread
    · exact .error (Symbols.missingOperand (.cons hs hr))
termination_by 16 * s.length

theorem arguments_alike (he : L.Surrounds env env') {s t : List Symbol} (h : L.Left env env' s t) :
    L.Parsing env env' Eq (arguments env s) (arguments env' t) := by
  rw [arguments, arguments]
  exact (expression_alike he h).parsed fun _ _ _ _ _ hrest =>
    (moreArguments_alike he hrest).passed fun _ _ _ _ _ hrest => .ok ⟨rfl, hrest⟩
termination_by 16 * s.length + 12

theorem moreArguments_alike (he : L.Surrounds env env') {s t : List Symbol} (h : L.Left env env' s t) :
    L.Passing env env' Eq (moreArguments env s) (moreArguments env' t) := by
  rw [moreArguments.eq_def env, moreArguments.eq_def env']
  cases h with
  | nil hx => exact .ok ⟨rfl, .nil hx⟩
  | ended hu hs hb =>
    simp only [hb, reduceCtorEq, ↓reduceIte]
    exact .ok ⟨rfl, .ended hu hs hb⟩
  | cons hs hr =>
    dsimp only
    rw [L.token hs]
    split
    · exact hr.arrive.bind fun _ _ _ =>
        (arguments_alike he hr).parsed fun _ _ _ _ _ hrest => .ok ⟨rfl, hrest⟩
    · exact .ok ⟨rfl, .cons hs hr⟩
termination_by 16 * s.length

theorem callArguments_alike (he : L.Surrounds env env') (inExpression : Bool) {s t : List Symbol}
    (h : L.Left env env' s t) :
    L.Passing env env' Eq (callArguments env inExpression s) (callArguments env' inExpression t) := by
  rw [callArguments.eq_def env, callArguments.eq_def env']
  cases h with
  | nil hx => exact .ok ⟨rfl, .nil hx⟩
  | ended hu hs hb =>
    simp only [hb, Token.startsExpression, reduceCtorEq, Bool.and_false, Bool.false_eq_true, ↓reduceIte]
    exact .ok ⟨rfl, .ended hu hs hb⟩
  | cons hs hr =>
    dsimp only
    rw [L.token hs]
    split
    · refine hr.arrive.bind fun _ _ _ => ?_
      rw [hr.token]
      split
      · exact (hr.requireClose _).required fun _ _ _ _ _ _ _ hr => .ok ⟨rfl, hr⟩
      · exact (arguments_alike he hr).parsed fun _ _ _ _ _ hr =>
          (hr.requireClose _).required fun _ _ _ _ _ _ _ hr => .ok ⟨rfl, hr⟩
    · split
      · exact (arguments_alike he (.cons hs hr)).parsed fun _ _ _ _ _ hrest => .ok ⟨rfl, hrest⟩
      · exact .ok ⟨rfl, .cons hs hr⟩
termination_by 16 * s.length + 13

theorem call_alike (he : L.Surrounds env env') {a b : Symbol} (hs : L.symbol a b) (hname : a.token = .name)
    (inExpression : Bool) {s t : List Symbol} (h : L.Left env env' s t) :
    L.Passing env env' Eq (call env a inExpression s) (call env' b inExpression t) := by
  rw [call, call]
  refine (routineOf_alike he hs hname).bind fun routine _ hroutine => ?_
  subst hroutine
  refine (callArguments_alike he inExpression h).passed fun found r r' _ _ hrest => ?_
  dsimp only
  split
  · exact .ok ⟨rfl, hrest⟩
  · exact .error (L.raised hs (by decide) fun ht => by rw [ht])
termination_by 16 * s.length + 14

theorem dialogSlots_alike (he : L.Surrounds env env') (d : Dialog) (asStatement : Bool) {s t : List Symbol}
    (h : L.Left env env' s t) :
    L.Passing env env' Eq (dialogSlots env d asStatement s) (dialogSlots env' d asStatement t) := by
  rw [dialogSlots.eq_def env, dialogSlots.eq_def env']
  cases h with
  | nil hx =>
    dsimp only
    split
    · exact .ok ⟨rfl, .nil hx⟩
    · exact .error (Symbols.missingOpen (.nil hx) _)
  | ended hu hs hb =>
    simp only [hb, reduceCtorEq, ↓reduceIte]
    cases asStatement with
    | true => exact .ok ⟨rfl, .ended hu hs hb⟩
    | false => exact .error (Symbols.missingOpen (.ended hu hs hb) _)
  | cons hs hr =>
    dsimp only
    rw [L.token hs]
    split
    · refine hr.arrive.bind fun _ _ _ => ?_
      rw [hr.token]
      split
      · exact (hr.requireClose _).required fun _ _ _ _ _ _ _ hr => .ok ⟨rfl, hr⟩
      · exact (slots_alike he d 0 hr).passed fun _ _ _ _ _ hr =>
          (hr.requireClose _).required fun _ _ _ _ _ _ _ hr => .ok ⟨rfl, hr⟩
    · split
      · exact .error (Symbols.missingOpen (.cons hs hr) _)
      · split
        · exact slots_alike he d 0 (.cons hs hr)
        · exact .ok ⟨rfl, .cons hs hr⟩
termination_by 16 * s.length + 13

theorem slots_alike (he : L.Surrounds env env') (d : Dialog) (count : Nat) {s t : List Symbol}
    (h : L.Left env env' s t) : L.Passing env env' Eq (slots env d count s) (slots env' d count t) := by
  rw [slots, slots]
  split
  · exact .error (L.raised h.current (by decide) fun _ => rfl)
  · rw [h.token]
    split
    · exact (expression_alike he h).parsed fun _ _ _ _ _ hrest =>
        (moreSlots_alike he d _ hrest).passed fun _ _ _ _ _ hrest => .ok ⟨rfl, hrest⟩
    · exact (moreSlots_alike he d _ h).passed fun _ _ _ _ _ hrest => .ok ⟨rfl, hrest⟩
termination_by 16 * s.length + 12

theorem moreSlots_alike (he : L.Surrounds env env') (d : Dialog) (count : Nat) {s t : List Symbol}
    (h : L.Left env env' s t) : L.Passing env env' Eq (moreSlots env d count s) (moreSlots env' d count t) := by
  rw [moreSlots.eq_def env, moreSlots.eq_def env']
  cases h with
  | nil hx => exact .ok ⟨rfl, .nil hx⟩
  | ended hu hs hb =>
    simp only [hb, reduceCtorEq, ↓reduceIte]
    exact .ok ⟨rfl, .ended hu hs hb⟩
  | cons hs hr =>
    dsimp only
    rw [L.token hs]
    split
    · exact hr.arrive.bind fun _ _ _ =>
        (slots_alike he d count hr).passed fun _ _ _ _ _ hrest => .ok ⟨rfl, hrest⟩
    · exact .ok ⟨rfl, .cons hs hr⟩
termination_by 16 * s.length

end

end Likeness

end Grammar

end MacroBasic
