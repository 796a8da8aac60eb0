/-
Passages of runs: what a run comes through before it gets anywhere else. The passages of parts of code are put
together to those of longer code. A call comes back to the second address behind it, with the scopes that were
around its own as they were but for the values of variables, whatever the routine does in between.
-/
import Mathlib.Logic.Relation
import MacroBasic.Proofs.Machine.Termination

namespace MacroBasic

/-- Whether an instruction works on the values of the innermost scope only and leads to addresses that it names. -/
def Instruction.isPlain : Instruction → Bool
  | .allocConst _ _ | .allocVar _ | .assign _ | .jumpPop | .pushScope | .popScope | .call _ | .ret => false
  | _ => true

/-- Names bound to values in the innermost scope, one after the other. -/
def Scopes.bindAll (bs : List (String × Value)) (S : Scopes) : Scopes :=
  bs.foldl (fun S b => S.allocate { name := b.1, value := b.2 }) S

namespace Machine

open Relation

/-! ## Moments -/

/-- A moment of a run: the machine, the state of the host, and the addresses that the activations are to return
to. -/
structure Moment (σ : Type) where
  machine : Machine
  state : σ
  calls : List Address

namespace Moment

variable {σ : Type}

/-- The address of the next instruction. -/
def pc (m : Moment σ) : Nat := m.machine.pc

def scopes (m : Moment σ) : Scopes := m.machine.scopes

/-- The scopes are as a table says. -/
def Laid (L : Address → Option Layout) (m : Moment σ) : Prop := Machine.Laid L ⟨m.pc, m.scopes⟩ m.calls

end Moment

section Steps

variable {σ : Type} (host : Host (StateM σ)) (options : Options) (lines : Array Line)

/-- A turn leads from one moment to the next. -/
def Step (m m' : Moment σ) : Prop :=
  ∃ line, lines[m.pc]? = some line ∧ turn host options line m.machine m.state = (.ok () m'.machine, m'.state) ∧
    m'.calls = track m.pc m.calls line.instruction

/-- The moment that a step leads to, if the run does not end. -/
def Moment.next? (m : Moment σ) : Option (Moment σ) :=
  lines[m.pc]?.bind fun line =>
    match turn host options line m.machine m.state with
    | (.ok _ M, st) => some ⟨M, st, track m.pc m.calls line.instruction⟩
    | (.error _ _, _) => none

/-- The moment that so many steps lead to. -/
def Moment.after? : Nat → Moment σ → Option (Moment σ)
  | 0, m => some m
  | n + 1, m => (m.next? host options lines).bind (after? n)

/-- The same from a moment where something holds. -/
def StepWhile (stay : Moment σ → Prop) (m m' : Moment σ) : Prop := stay m ∧ Step host options lines m m'

/-- Every run from a moment either has stayed where it may be or has come from there through a good moment. -/
def Passes (L : Address → Option Layout) (m : Moment σ) (stay good : Moment σ → Prop) : Prop :=
  ∀ m', ReflTransGen (Step host options lines) m m' →
    ReflTransGen (StepWhile host options lines stay) m m' ∧ stay m' ∨
    ∃ mid, mid.Laid L ∧ good mid ∧ ReflTransGen (StepWhile host options lines stay) m mid ∧
      ReflTransGen (Step host options lines) mid m'

end Steps

section Steps

variable {σ : Type} {host : Host (StateM σ)} {options : Options} {lines : Array Line} {L : Address → Option Layout}
  {m m' mid : Moment σ} {stay stay' good good' : Moment σ → Prop} {i : Instruction}
  {rest : List Instruction}

theorem step_of_next? (h : m.next? host options lines = some m') : Step host options lines m m' := by
  obtain ⟨line, hline, h⟩ := Option.bind_eq_some_iff.1 h
  refine ⟨line, hline, ?_⟩
  generalize turn host options line m.machine m.state = x at h ⊢
  obtain ⟨o, st⟩ := x
  cases o with
  | ok _ M =>
    cases h
    exact ⟨rfl, rfl⟩
  | error f M => cases h

theorem steps_of_after? {n : Nat} (h : m.after? host options lines n = some m') :
    ReflTransGen (Step host options lines) m m' := by
  induction n generalizing m with
  | zero =>
    cases h
    exact .refl
  | succ n ih =>
    obtain ⟨m₁, hnext, hrest⟩ := Option.bind_eq_some_iff.1 h
    exact .head (step_of_next? hnext) (ih hrest)

/-- Steps lead from what a run reaches to what it reaches. -/
theorem Reaches.steps {M₀ : Machine} {st₀ : σ} (h : Reaches host options lines M₀ st₀ m.machine m.state m.calls)
    (hsteps : ReflTransGen (Step host options lines) m m') :
    Reaches host options lines M₀ st₀ m'.machine m'.state m'.calls := by
  induction hsteps with
  | refl => exact h
  | tail _ hstep ih =>
    obtain ⟨line, hline, hturn, hcalls⟩ := hstep
    rw [hcalls]
    exact ih.turn hline hturn

theorem Step.laid (hL : Describes L lines) (h : Step host options lines m m') (hm : m.Laid L) : m'.Laid L := by
  obtain ⟨line, hline, hturn, hcalls⟩ := h
  obtain ⟨t, hyields⟩ := turn_yields hturn
  have hlaid := Machine.Laid.advance hL hm hline t _ hyields
  rw [← hcalls] at hlaid
  exact hlaid

/-- What a step does, given the instruction that it executes. -/
theorem Step.effect (hL : Describes L lines) (h : Step host options lines m m') (hm : m.Laid L)
    (hcode : CodeAt lines m.pc (i :: rest)) :
    Effect i m.pc m.scopes m'.pc m'.scopes ∧ m'.calls = track m.pc m.calls i := by
  obtain ⟨line, hline, hturn, hcalls⟩ := h
  obtain ⟨line', hline', rfl⟩ := hcode.head
  rw [hline] at hline'
  cases hline'
  exact ⟨turn_effect hL hm hline hturn, hcalls⟩

theorem laid_of_steps (hL : Describes L lines) (h : ReflTransGen (Step host options lines) m m') (hm : m.Laid L) :
    m'.Laid L := by
  induction h with
  | refl => exact hm
  | tail _ hstep ih => exact hstep.laid hL ih

/-! ## Putting passages together -/

theorem Passes.here (hm : m.Laid L) (h : good m) : Passes host options lines L m stay good :=
  fun _ hsteps => .inr ⟨m, hm, h, .refl, hsteps⟩

theorem Passes.mono (h : Passes host options lines L m stay good) (hstay : ∀ m', stay m' → stay' m') :
    Passes host options lines L m stay' good := by
  have hwhile (m' : Moment σ) (hpath : ReflTransGen (StepWhile host options lines stay) m m') :
      ReflTransGen (StepWhile host options lines stay') m m' :=
    ReflTransGen.mono (fun m₁ _ hstep => ⟨hstay m₁ hstep.1, hstep.2⟩) m m' hpath
  intro m' hsteps
  rcases h m' hsteps with ⟨hpath, hm'⟩ | ⟨mid, hlaid, hmid, hbefore, hafter⟩
  · exact .inl ⟨hwhile m' hpath, hstay m' hm'⟩
  · exact .inr ⟨mid, hlaid, hmid, hwhile mid hbefore, hafter⟩

theorem Passes.imp (h : Passes host options lines L m stay good) (hgood : ∀ m', good m' → good' m') :
    Passes host options lines L m stay good' := by
  intro m' hsteps
  rcases h m' hsteps with hstay | ⟨mid, hlaid, hmid, hpath⟩
  · exact .inl hstay
  · exact .inr ⟨mid, hlaid, hgood mid hmid, hpath⟩

theorem Passes.bind (h : Passes host options lines L m stay good)
    (hnext : ∀ mid, mid.Laid L → good mid → ReflTransGen (StepWhile host options lines stay) m mid →
      Passes host options lines L mid stay good') :
    Passes host options lines L m stay good' := by
  intro m' hsteps
  rcases h m' hsteps with hstay | ⟨mid, hlaid, hgood, hbefore, hafter⟩
  · exact .inl hstay
  · rcases hnext mid hlaid hgood hbefore m' hafter with ⟨hpath, hm'⟩ | ⟨mid', hlaid', hgood', hbefore', hafter'⟩
    · exact .inl ⟨hbefore.trans hpath, hm'⟩
    · exact .inr ⟨mid', hlaid', hgood', hbefore.trans hbefore', hafter'⟩

/-- The same where the first part of the way stays in a place of its own. -/
theorem Passes.follow (h : Passes host options lines L m stay' good) (hstay : ∀ m', stay' m' → stay m')
    (hnext : ∀ mid, mid.Laid L → good mid → ReflTransGen (StepWhile host options lines stay') m mid →
      Passes host options lines L mid stay good') :
    Passes host options lines L m stay good' := by
  have hboth : Passes host options lines L m stay' fun mid =>
      good mid ∧ ReflTransGen (StepWhile host options lines stay') m mid := by
    intro m' hsteps
    rcases h m' hsteps with hlingers | ⟨mid, hlaid, hgood, hbefore, hafter⟩
    · exact .inl hlingers
    · exact .inr ⟨mid, hlaid, ⟨hgood, hbefore⟩, hbefore, hafter⟩
  exact (hboth.mono hstay).bind fun mid hlaid hmid _ => hnext mid hlaid hmid.1 hmid.2

theorem Passes.step (hL : Describes L lines) (hm : m.Laid L) (hstay : stay m)
    (hnext : ∀ m', Step host options lines m m' → m'.Laid L → Passes host options lines L m' stay good) :
    Passes host options lines L m stay good := by
  intro m' hsteps
  rcases hsteps.cases_head with rfl | ⟨m₁, hstep, hsteps⟩
  · exact .inl ⟨.refl, hstay⟩
  · rcases hnext m₁ hstep (hstep.laid hL hm) m' hsteps with ⟨hpath, hm'⟩ | ⟨mid, hlaid, hgood, hbefore, hafter⟩
    · exact .inl ⟨.head ⟨hstay, hstep⟩ hpath, hm'⟩
    · exact .inr ⟨mid, hlaid, hgood, .head ⟨hstay, hstep⟩ hbefore, hafter⟩

/-- An instruction that only works on values takes some and puts others in their place. -/
theorem Step.plain {base : Scopes} {taken : List Value} (hL : Describes L lines) (h : Step host options lines m m')
    (hm : m.Laid L) (hcode : CodeAt lines m.pc (i :: rest)) (hi : i.isPlain = true) (htaken : taken.length = i.takes)
    (hS : m.scopes = base.pushAll taken) :
    i.Leads m.pc m'.pc ∧ ∃ given, given.length = i.gives ∧ m'.scopes = base.pushAll given := by
  obtain ⟨heffect, _⟩ := h.effect hL hm hcode
  cases heffect with
  | values base' taken' given _ hpc htaken' hgiven hS₁ hS' =>
    obtain ⟨rfl, _⟩ := Scopes.pushAll_inj (htaken'.trans htaken.symm) (hS₁.symm.trans hS)
    exact ⟨hpc, given, hgiven, hS'⟩
  | binds b hb =>
    cases i with
    | allocConst | allocVar | call => cases hi
    | _ => cases hb
  | gives _ _ _ _ hassign => rw [hassign] at hi; cases hi
  | hands _ _ _ hassign => rw [hassign] at hi; cases hi
  | creates _ _ _ hassign => rw [hassign] at hi; cases hi
  | enters hpush => rw [hpush] at hi; cases hi
  | leaves hpop => rw [hpop] at hi; cases hi

theorem Passes.plain {base : Scopes} {taken : List Value} (hL : Describes L lines) (hm : m.Laid L)
    (hstay : stay m) (hcode : CodeAt lines m.pc (i :: rest))
    (hi : i.isPlain = true) (htaken : taken.length = i.takes) (hS : m.scopes = base.pushAll taken)
    (hnext : ∀ m' given, m'.Laid L → i.Leads m.pc m'.pc → given.length = i.gives →
      m'.scopes = base.pushAll given → Passes host options lines L m' stay good) :
    Passes host options lines L m stay good := by
  refine .step hL hm hstay fun m' hstep hlaid => ?_
  obtain ⟨hpc, given, hgiven, hS'⟩ := hstep.plain hL hm hcode hi htaken hS
  exact hnext m' given hlaid hpc hgiven hS'

end Steps

/-! ## Calls -/

/-- How many scopes wait for a call that returns to a place with the given layout. -/
def Layout.held : Layout → Nat
  | .shaped _ => 0
  | .returned s => s.waiting.length + 1

/-- How many scopes are around the outermost one of the innermost activation. -/
def height (L : Address → Option Layout) : List Address → Nat
  | [] => 1
  | a :: calls => ((L a).map Layout.held).getD 0 + height L calls

section Height

variable {L : Address → Option Layout} {calls : List Address}

theorem height_le_append (calls' : List Address) : height L calls ≤ height L (calls' ++ calls) := by
  induction calls' with
  | nil => exact Nat.le_refl _
  | cons a calls' ih => exact ih.trans (Nat.le_add_left _ _)

theorem height_cons {a : Address} {s : Shape} (h : L a = some (.returned s)) :
    height L (a :: calls) = s.waiting.length + 1 + height L calls := by
  rw [height, h]
  rfl

/-- The activations and the scopes that wait in the innermost one tell how many scopes there are. -/
theorem Around.height_eq {inside : Bool} {waiting : List (List Cell)} {back : Option Value} {below : List Scope}
    (h : Around L inside waiting back below calls) : below.length = waiting.length + height L calls := by
  induction h with
  | script => rfl
  | routine hl _ ih => rw [ih, height_cons hl, List.length_cons, List.length_nil, Nat.zero_add]
  | waiting _ _ ih => rw [List.length_cons, List.length_cons, ih]; omega

theorem Laid.height_le {c : Config} (h : Laid L c calls) : height L calls ≤ c.scopes.below.length := by
  obtain ⟨l, _, hS⟩ := h
  cases l with
  | shaped s => exact hS.2.height_eq ▸ Nat.le_add_left _ _
  | returned s => exact Around.height_eq hS ▸ Nat.le_add_left _ _

end Height

section Calls

variable {σ : Type} {host : Host (StateM σ)} {options : Options} {lines : Array Line} {L : Address → Option Layout}
  {m : Moment σ} {b : Address} {rest : List Instruction}

/-- While a routine has not returned to the given address, it keeps the scopes around its own. -/
structure Inside (lower : List Scope) (back : Address) (calls : List Address) (m : Moment σ) : Prop where
  calls : ∃ further, m.calls = further ++ back :: calls
  retains : Retains lower m.scopes

/-- The routine has returned to the given address, and its scope is to be left. -/
structure Returned (lower : List Scope) (back : Address) (m : Moment σ) : Prop where
  pc : m.pc = back
  retains : Retains lower m.scopes
  length : m.scopes.below.length = lower.length

theorem Inside.step {m' : Moment σ} {lower : List Scope} {back : Address} {calls : List Address} {s : Shape}
    (hL : Describes L lines) (hl : L back = some (.returned s)) (hlower : lower.length = height L (back :: calls))
    (hm : m.Laid L) (h : Inside lower back calls m) (hstep : Step host options lines m m') :
    Inside lower back calls m' ∨ Returned lower back m' := by
  obtain ⟨further, hfurther⟩ := h.calls
  have hnext := hstep.laid hL hm
  obtain ⟨line, hline, hturn, hcalls⟩ := hstep
  have heffect : Effect line.instruction m.pc m.scopes m'.pc m'.scopes := turn_effect hL hm hline hturn
  -- the number of scopes that the activations need
  have hdeep (further' : List Address) (hcalls' : m'.calls = further' ++ back :: calls) :
      lower.length ≤ m'.scopes.below.length := by
    have hheight := Machine.Laid.height_le hnext
    rw [hcalls'] at hheight
    exact hlower ▸ (height_le_append further').trans hheight
  cases hi : line.instruction with
  | ret =>
    have hretains := heffect.retains (by rw [hi]; exact nofun) h.retains
    have hreturn := turn_ret hL hm hline hturn hi
    rw [hi] at hcalls
    cases further with
    | nil =>
      rw [hfurther] at hreturn hcalls
      right
      have hpc : m'.pc = back := (List.cons.inj hreturn).1.symm
      refine ⟨hpc, hretains, ?_⟩
      obtain ⟨l, hl', hS⟩ := hnext
      change L m'.pc = some l at hl'
      rw [hpc, hl] at hl'
      cases hl'
      have hheight := Around.height_eq hS
      rw [hcalls] at hheight
      rw [hlower, height_cons hl]
      exact hheight
    | cons a further =>
      left
      exact ⟨⟨further, by rw [hcalls, hfurther]; rfl⟩, hretains⟩
  | popScope =>
    rw [hi] at hcalls heffect
    have hsame : m'.calls = further ++ back :: calls := hcalls.trans hfurther
    rcases heffect.retains_leaving h.retains with hretains | hall
    · exact .inl ⟨⟨further, hsame⟩, hretains⟩
    · -- one scope fewer than the activations need would be left
      have hlength : lower.length = m'.scopes.below.length + 1 := hall.length_eq
      have := hdeep further hsame
      omega
  | call a =>
    rw [hi] at hcalls heffect
    exact .inl ⟨⟨(m.pc + 1) :: further, by rw [hcalls, hfurther]; rfl⟩, heffect.retains nofun h.retains⟩
  | _ =>
    rw [hi] at hcalls heffect
    exact .inl ⟨⟨further, hcalls.trans hfurther⟩, heffect.retains nofun h.retains⟩

/-- From there the next instruction leaves the scope of the call. -/
theorem Returned.step {m' : Moment σ} {lower : List Scope} {back : Address} {s : Shape} (hL : Describes L lines)
    (hl : L back = some (.returned s)) (hm : m.Laid L) (h : Returned lower back m)
    (hstep : Step host options lines m m') :
    m'.pc = back + 1 ∧ List.Forall₂ Scope.Similar lower m'.scopes.frames := by
  obtain ⟨line, hline, hturn, _⟩ := hstep
  have heffect : Effect line.instruction m.pc m.scopes m'.pc m'.scopes := turn_effect hL hm hline hturn
  obtain ⟨l, hl', hfits⟩ := hL.fits m.pc line hline
  rw [h.pc, hl] at hl'
  cases hl'
  rw [hfits.1] at heffect
  cases heffect with
  | leaves _ hpc hframes =>
    refine ⟨by rw [hpc, h.pc], ?_⟩
    have hsimilar := h.retains.similar h.length
    rw [hframes] at hsimilar
    exact hsimilar
  | values _ _ _ hi => cases hi
  | binds b hb => cases hb
  | gives _ _ _ _ hi => cases hi
  | hands _ _ _ hi => cases hi
  | creates _ _ _ hi => cases hi
  | enters hi => cases hi

/-- A call comes back to the second address behind it, with the scopes around its own as they were but for the
values of variables. -/
theorem Passes.call (hL : Describes L lines) (hm : m.Laid L) (hcode : CodeAt lines m.pc (.call b :: rest)) :
    Passes host options lines L m (fun m' => m.scopes.below.length ≤ m'.scopes.below.length)
      (fun m' => m'.pc = m.pc + 2 ∧ List.Forall₂ Scope.Similar m.scopes.below m'.scopes.frames) := by
  obtain ⟨s, hb, hback⟩ : ∃ s, L b = some (.shaped .routine) ∧ L (m.pc + 1) = some (.returned s) := by
    obtain ⟨line, hline, hi⟩ := hcode.head
    obtain ⟨l, _, hfits⟩ := hL.fits m.pc line hline
    rw [hi] at hfits
    cases l with
    | shaped t =>
      obtain ⟨s, _, hb, hback⟩ := hfits
      exact ⟨s, hb, hback⟩
    | returned t => cases hfits.1
  refine .step hL hm (Nat.le_refl _) fun m₁ hstep hlaid₁ => ?_
  obtain ⟨heffect, hcalls⟩ := hstep.effect hL hm hcode
  obtain ⟨hpc₁, hbelow₁⟩ : m₁.pc = b ∧ m₁.scopes.below = m.scopes.below := by
    cases heffect with
    | binds _ _ hpc hS' => exact ⟨hpc, by rw [hS']; rfl⟩
    | values _ _ _ hi => cases hi
    | gives _ _ _ _ hi => cases hi
    | hands _ _ _ hi => cases hi
    | creates _ _ _ hi => cases hi
    | enters hi => cases hi
    | leaves hi => cases hi
  have hlower : m.scopes.below.length = height L ((m.pc + 1) :: m.calls) := by
    obtain ⟨l, hl, hS⟩ := hlaid₁
    change L m₁.pc = some l at hl
    rw [hpc₁, hb] at hl
    cases hl
    have hheight := hS.2.height_eq
    rw [hcalls, hbelow₁] at hheight
    exact hheight.trans (Nat.zero_add _)
  have hinside₁ : Inside m.scopes.below (m.pc + 1) m.calls m₁ := by
    refine ⟨⟨[], hcalls⟩, ?_⟩
    rw [← hbelow₁]
    exact retains_below m₁.scopes
  -- the routine is left once, by returning to the address behind the call
  intro m' hsteps
  have hphase : (Inside m.scopes.below (m.pc + 1) m.calls m' ∨ Returned m.scopes.below (m.pc + 1) m') ∧
        ReflTransGen (StepWhile host options lines fun m' => m.scopes.below.length ≤ m'.scopes.below.length) m₁ m' ∨
      ∃ mid, mid.Laid L ∧ (mid.pc = m.pc + 2 ∧ List.Forall₂ Scope.Similar m.scopes.below mid.scopes.frames) ∧
        ReflTransGen (StepWhile host options lines fun m' => m.scopes.below.length ≤ m'.scopes.below.length) m₁ mid ∧
        ReflTransGen (Step host options lines) mid m' := by
    induction hsteps with
    | refl => exact .inl ⟨.inl hinside₁, .refl⟩
    | tail hbefore hstep ih =>
      have hlaid := laid_of_steps hL hbefore hlaid₁
      rcases ih with ⟨hinside | hreturned, hpath⟩ | ⟨mid, hmid, hgood, hpath, hafter⟩
      · have hnext := hinside.step hL hback hlower hlaid hstep
        exact .inl ⟨hnext, hpath.tail ⟨hinside.retains.length_le, hstep⟩⟩
      · have hnext := hreturned.step hL hback hlaid hstep
        exact .inr ⟨_, hstep.laid hL hlaid, hnext, hpath.tail ⟨hreturned.retains.length_le, hstep⟩, .refl⟩
      · exact .inr ⟨mid, hmid, hgood, hpath, hafter.tail hstep⟩
  rcases hphase with ⟨hinside | hreturned, hpath⟩ | hpassed
  · exact .inl ⟨hpath, hinside.retains.length_le⟩
  · exact .inl ⟨hpath, hreturned.retains.length_le⟩
  · exact .inr hpassed

end Calls

/-! ## Binding parameters -/

theorem replace?_put {b : Binding} {v : Value} : ∀ {names : List Binding},
    Scope.replace? b.name v (Scope.put b names) = some (Scope.put { b with value := v } names)
  | [] => by
    unfold Scope.put Scope.replace?
    rw [if_pos rfl]
  | first :: rest => by
    unfold Scope.put
    by_cases hfirst : first.name = b.name
    · rw [if_pos hfirst, if_pos hfirst, Scope.replace?, if_pos rfl]
    · rw [if_neg hfirst, if_neg hfirst, Scope.replace?, if_neg hfirst, replace?_put]
      rfl

/-- A name that has just been bound is the one that a value is given to. -/
theorem assign?_allocate (b : Binding) (v : Value) (S : Scopes) :
    (S.allocate b).assign? b.name v = some (S.allocate { b with value := v }) := by
  unfold Scopes.assign?
  have htop : (S.allocate b).top.assign? b.name v = some (S.top.allocate { b with value := v }) := by
    show (Scope.replace? b.name v (Scope.put b S.top.names)).map _ = _
    rw [replace?_put]
    rfl
  rw [htop]
  rfl

theorem below_bindAll (bs : List (String × Value)) (S : Scopes) : (S.bindAll bs).below = S.below := by
  induction bs generalizing S with
  | nil => rfl
  | cons b bs ih => exact ih (S.allocate { name := b.1, value := b.2 })

theorem stack_bindAll (bs : List (String × Value)) (S : Scopes) : (S.bindAll bs).top.stack = S.top.stack := by
  induction bs generalizing S with
  | nil => rfl
  | cons b bs ih => exact ih (S.allocate { name := b.1, value := b.2 })

/-- A name that is not bound is bound behind all others. -/
theorem put_of_free {b : Binding} : ∀ {names : List Binding}, (∀ x ∈ names, x.name ≠ b.name) →
    Scope.put b names = names ++ [b]
  | [], _ => rfl
  | first :: rest, h => by
    rw [Scope.put, if_neg (h first (List.mem_cons_self ..)), put_of_free fun x hx => h x (List.mem_cons_of_mem _ hx)]
    rfl

/-- Different names that are not bound are bound in their order. -/
theorem names_bindAll : ∀ (bs : List (String × Value)) {S : Scopes}, (bs.map Prod.fst).Nodup →
    (∀ x ∈ S.top.names, x.name ∉ bs.map Prod.fst) →
    (S.bindAll bs).top.names = S.top.names ++ bs.map fun b => { name := b.1, value := b.2 }
  | [], S, _, _ => (List.append_nil S.top.names).symm
  | (p, v) :: bs, S, hnodup, hfree => by
    obtain ⟨hp, hnodup⟩ := List.nodup_cons.1 hnodup
    have hput : (S.allocate { name := p, value := v }).top.names = S.top.names ++ [{ name := p, value := v }] :=
      put_of_free fun x hx heq => hfree x hx (by rw [show x.name = p from heq]; exact List.mem_cons_self ..)
    have hrest : ∀ x ∈ (S.allocate { name := p, value := v }).top.names, x.name ∉ bs.map Prod.fst := by
      intro x hx
      rw [hput, List.mem_append, List.mem_singleton] at hx
      rcases hx with hx | rfl
      · exact fun hmem => hfree x hx (List.mem_cons_of_mem _ hmem)
      · exact hp
    have hbound := names_bindAll bs hnodup hrest
    rw [hput, List.append_assoc] at hbound
    exact hbound

section Binding

variable {σ : Type} {host : Host (StateM σ)} {options : Options} {lines : Array Line} {L : Address → Option Layout}

theorem allocate_pushAll (b : Binding) (vs : List Value) (S : Scopes) :
    (S.pushAll vs).allocate b = (S.allocate b).pushAll vs := by
  induction vs generalizing S with
  | nil => rfl
  | cons v vs ih => exact ih (S.cons v)

/-- A parameter is bound to the top value. -/
theorem Passes.bindOne {m : Moment σ} {S : Scopes} {p : String} {v : Value} {rest : List Instruction}
    (hL : Describes L lines) (hm : m.Laid L)
    (hcode : CodeAt lines m.pc (.allocVar p :: .assign p :: rest)) (hS : m.scopes = S.cons v) :
    Passes host options lines L m (fun m' => m'.scopes.below = S.below ∧ m.pc ≤ m'.pc ∧ m'.pc < m.pc + 2)
      (fun m' => m'.pc = m.pc + 2 ∧ m'.scopes = S.allocate { name := p, value := v }) := by
  refine .step hL hm ⟨by rw [hS]; rfl, by omega, by omega⟩ fun m₁ hstep₁ hm₁ => ?_
  obtain ⟨heffect₁, _⟩ := hstep₁.effect hL hm hcode
  obtain ⟨hpc₁, hS₁⟩ : m₁.pc = m.pc + 1 ∧ m₁.scopes = (S.allocate { name := p }).cons v := by
    cases heffect₁ with
    | binds b hb hpc hS' => cases hb; exact ⟨hpc, by rw [hS', hS]; rfl⟩
    | values _ _ _ hi => cases hi
    | gives _ _ _ _ hi => cases hi
    | hands _ _ _ hi => cases hi
    | creates _ _ _ hi => cases hi
    | enters hi => cases hi
    | leaves hi => cases hi
  have hcode₁ := hcode.tail
  rw [← hpc₁] at hcode₁
  refine .step hL hm₁ ⟨by rw [hS₁]; rfl, by omega, by omega⟩ fun m₂ hstep₂ hm₂ => ?_
  obtain ⟨heffect₂, _⟩ := hstep₂.effect hL hm₁ hcode₁
  -- the name is bound, and no scope is nearer than the one that binds it
  have hbound : (S.allocate { name := p }).get? p = some { name := p } := by
    rw [Scopes.get?, Scopes.frames, List.findSome?_cons,
      show (S.allocate { name := p }).top.get? p = _ from Scope.get?_allocate_self { name := p } S.top]
  refine .here hm₂ ?_
  cases heffect₂ with
  | gives name w S₃ b hi hpc hS₃ hb hk hS' =>
    cases hi
    obtain ⟨rfl, rfl⟩ := Scopes.cons_inj (hS₁.symm.trans hS₃)
    refine ⟨by rw [show m₂.pc = m₁.pc + 1 from hpc, hpc₁], ?_⟩
    rw [hS', show (S.allocate { name := p }).assign? p v = _ from assign?_allocate { name := p } v S]
    rfl
  | creates name w S₃ hi hpc hS₃ hfree =>
    cases hi
    obtain ⟨rfl, rfl⟩ := Scopes.cons_inj (hS₁.symm.trans hS₃)
    rw [hbound] at hfree
    cases hfree
  | hands name w S₃ hi hpc hS₃ hfree =>
    cases hi
    obtain ⟨rfl, rfl⟩ := Scopes.cons_inj (hS₁.symm.trans hS₃)
    rw [hbound] at hfree
    cases hfree
  | values _ _ _ hi => cases hi
  | binds _ hb => cases hb
  | enters hi => cases hi
  | leaves hi => cases hi

/-- Parameters are bound to the values on the stack, the first one to the top. -/
theorem Passes.bindAll (hL : Describes L lines) : ∀ (bs : List (String × Value)) {m : Moment σ} {S : Scopes},
    m.Laid L →
    CodeAt lines m.pc ((bs.map Prod.fst).flatMap fun p => [.allocVar p, .assign p]) →
    m.scopes = S.pushAll (bs.map Prod.snd).reverse →
    Passes host options lines L m
      (fun m' => m'.scopes.below = S.below ∧ m.pc ≤ m'.pc ∧ m'.pc < m.pc + 2 * bs.length)
      (fun m' => m'.pc = m.pc + 2 * bs.length ∧ m'.scopes = S.bindAll bs)
  | [], m, S, hm, _, hS => .here hm ⟨rfl, hS⟩
  | (p, v) :: bs, m, S, hm, hcode, hS => by
    simp only [List.map_cons, List.flatMap_cons, List.cons_append, List.nil_append] at hcode
    rw [List.map_cons, List.reverse_cons, Scopes.pushAll_append] at hS
    have hbelow := Scopes.below_pushAll (bs.map Prod.snd).reverse S
    rw [List.length_cons]
    refine (Passes.bindOne hL hm hcode hS).mono (fun m' h => ⟨h.1.trans hbelow, h.2.1, by omega⟩) |>.bind ?_
    rintro m₁ hm₁ ⟨hpc₁, hS₁⟩ _
    have hcode₁ := hcode.tail.tail
    rw [Nat.add_assoc, ← hpc₁] at hcode₁
    rw [allocate_pushAll] at hS₁
    have hrest : Passes host options lines L m₁ _ _ := Passes.bindAll hL bs hm₁ hcode₁ hS₁
    rw [hpc₁] at hrest
    have hgoal : m.pc + 2 * (bs.length + 1) = m.pc + 2 + 2 * bs.length := by omega
    rw [hgoal]
    exact hrest.mono fun m' h => ⟨h.1, by omega, h.2.2⟩

end Binding

end Machine

end MacroBasic
