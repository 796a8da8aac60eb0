/-
Names that are certain to be bound. A table gives for each address the names that are to be bound whenever a run comes
there. It is enough that no instruction leads to where more names are certain than at its own address, except for the
one that it binds, and that a routine is called only where the names that are certain in it are certain too or have
just been bound as its parameters. Then the scopes of a run bind all names that are certain where it has come to, in
whatever order its routines have been called.
-/
import MacroBasic.Proofs.Machine.Realms

namespace MacroBasic

namespace Machine

/-! ## Bound names -/

/-- Some scopes bind all of the given names. -/
def Binds (frames : List Scope) (names : List String) : Prop := ∀ x ∈ names, ∃ f ∈ frames, f.get? x ≠ none

/-- A scope binds all names that an earlier one has bound, and it says to return to the same address. -/
structure Extends (f f' : Scope) : Prop where
  bound : ∀ x, f.get? x ≠ none → f'.get? x ≠ none
  back : returnOf f' = returnOf f

section Extends

variable {f f' f'' : Scope} {frames frames' : List Scope} {names : List String} {b : Binding} {x : String}

theorem Extends.refl (f : Scope) : Extends f f := ⟨fun _ h => h, rfl⟩

theorem Extends.trans (h : Extends f f') (h' : Extends f' f'') : Extends f f'' :=
  ⟨fun x hx => h'.bound x (h.bound x hx), h'.back.trans h.back⟩

theorem Alike.extends (h : Alike f f') : Extends f f' := ⟨fun x hx hnone => hx ((h.bound x).1 hnone), h.back⟩

theorem get?_allocate_ne_none (b : Binding) (hx : f.get? x ≠ none) : (f.allocate b).get? x ≠ none := by
  by_cases hname : b.name = x
  · rw [← hname, Scope.get?_allocate_self]
    exact Option.some_ne_none b
  · rwa [Scope.get?_allocate_of_ne hname]

theorem extends_allocate (hb : b.name ≠ returnName) (f : Scope) : Extends f (f.allocate b) :=
  ⟨fun _ hx => get?_allocate_ne_none b hx, returnOf_allocate_of_ne hb f⟩

theorem forall₂_extends_of_alike (h : List.Forall₂ Alike frames frames') : List.Forall₂ Extends frames frames' :=
  h.imp fun _ _ halike => halike.extends

theorem forall₂_extends_trans {frames'' : List Scope} (h : List.Forall₂ Extends frames frames')
    (h' : List.Forall₂ Extends frames' frames'') : List.Forall₂ Extends frames frames'' :=
  forall₂_trans (fun _ _ _ hf hf' => hf.trans hf') h h'

theorem forall₂_extends_allocate (hb : b.name ≠ returnName) (S : Scopes) :
    List.Forall₂ Extends S.frames (S.allocate b).frames :=
  .cons (extends_allocate hb S.top) (List.forall₂_same.2 fun f _ => .refl f)

theorem Binds.extends (h : Binds frames names) (hframes : List.Forall₂ Extends frames frames') :
    Binds frames' names := by
  intro x hx
  obtain ⟨f, hf, hbound⟩ := h x hx
  clear h
  induction hframes with
  | nil => cases hf
  | @cons g g' frames frames' hg _ ih =>
    rcases List.mem_cons.1 hf with rfl | hf
    · exact ⟨g', List.mem_cons_self, hg.bound x hbound⟩
    · obtain ⟨f', hf', hbound'⟩ := ih hf
      exact ⟨f', List.mem_cons_of_mem _ hf', hbound'⟩

/-- An instruction that remains in its scope takes no name from any scope. -/
theorem Effect.extends {L : Address → Option Layout} {s : Shape} {i : Instruction} {pc pc' : Address} {S S' : Scopes}
    (h : Effect i pc S pc' S') (hfits : s.Fits L pc i) (hi : i.remains) :
    List.Forall₂ Extends S.frames S'.frames := by
  have hassign {name : String} (hassign : i = .assign name) : name ≠ returnName := by
    rw [hassign] at hfits
    exact hfits.1
  cases h with
  | values base taken given _ _ _ _ hS hS' =>
    subst hS hS'
    exact forall₂_extends_of_alike (alike_pushAll base taken given)
  | binds b hb _ hS' =>
    subst hS'
    exact forall₂_extends_allocate (hfits.binding_name hi hb) S
  | gives name v S₁ _ hname _ hS _ _ hS' =>
    subst hS hS'
    exact forall₂_extends_trans (forall₂_extends_of_alike (alike_uncons v S₁))
      (forall₂_extends_of_alike (alike_assign? (hassign hname) v S₁))
  | hands _ v S₁ _ _ hS _ hS' =>
    subst hS
    rw [hS']
    exact forall₂_extends_of_alike (alike_uncons v S₁)
  | creates name v S₁ hname _ hS _ hS' =>
    subst hS hS'
    exact forall₂_extends_trans (forall₂_extends_of_alike (alike_uncons v S₁))
      (forall₂_extends_allocate (hassign hname) S₁)
  | enters hpush => rw [hpush] at hi; cases hi
  | leaves hpop => rw [hpop] at hi; cases hi

theorem Effect.binds_name {i : Instruction} {pc pc' : Address} {S S' : Scopes} (h : Effect i pc S pc' S')
    (hb : i.binding? pc = some b) : S'.top.get? b.name = some b := by
  cases h with
  | binds b' hb' _ hS' =>
    rw [hb] at hb'
    cases hb'
    rw [hS']
    exact Scope.get?_allocate_self b S.top
  | values _ _ _ hi =>
    cases i with
    | allocConst | allocVar | call => cases hi
    | _ => cases hb
  | gives _ _ _ _ hi | hands _ _ _ hi | creates _ _ _ hi | enters hi | leaves hi => rw [hi] at hb; cases hb

end Extends

/-! ## Certain names -/

section Secured

variable (lines : Array Line) (L : Address → Option Layout) (K : Address → List String)

/-- The instructions right before an address bind a name: nothing but parameters has been bound or given values
since. -/
inductive Readied (x : String) : Address → Prop
  | here {a : Address} {line : Line} (hline : lines[a]? = some line) (hi : line.instruction = .allocVar x) :
    Readied x (a + 1)
  | later {a : Address} {line : Line} {p : String} (hline : lines[a]? = some line)
      (hi : line.instruction = .allocVar p ∨ line.instruction = .assign p) (h : Readied x a) : Readied x (a + 1)

/-- A jump does not lead into the preparation of a call. -/
def Lands (a b : Address) : Prop := ∀ x, Readied lines x b → Idle L a

/-- An instruction at an address leads to where only such names are certain as are at that address, or that it binds
outside of calls. A routine that it calls may also count on its parameters. -/
def Secures (a : Address) : Instruction → Prop
  | .allocConst x _ | .allocVar x => K (a + 1) ⊆ K a ∨ Idle L a ∧ K (a + 1) ⊆ x :: K a
  | .jump b => K b ⊆ K a ∧ Lands lines L a b
  | .jumpTrue b | .jumpFalse b => K (a + 1) ⊆ K a ∧ K b ⊆ K a ∧ Lands lines L a b
  | .jumpPop => ∀ (b : Address) (s : Shape), L a = some (.shaped (s.push (.exit b))) → K b ⊆ K a ∧ s.waiting = []
  | .call b => K (a + 1) ⊆ K a ∧ ∀ x ∈ K b, x ∈ K a ∨ Readied lines x a
  | .ret => True
  | _ => K (a + 1) ⊆ K a

/-- Below so many scopes that wait for calls, the scopes bind all of the given names; and for each routine to return
from, the scopes below its own bind the names that are certain where it returns to. -/
inductive Secured : Nat → List String → List Scope → Prop
  | script {names : List String} {f shared : Scope} (hback : returnOf f = none) (hbinds : Binds [f, shared] names) :
    Secured 0 names [f, shared]
  | routine {names : List String} {f : Scope} {below : List Scope} {a : Address} {s : Shape}
      (hback : returnOf f = some (.address a)) (hL : L a = some (.returned s))
      (h : Secured s.waiting.length (K a) below) (hbinds : Binds (f :: below) names) : Secured 0 names (f :: below)
  | waiting {n : Nat} {names : List String} {below : List Scope} (f : Scope) (h : Secured n names below) :
    Secured (n + 1) names (f :: below)

/-- The names that are certain at an address are bound, and so are the parameters that a call has been prepared with. -/
def Layout.Assured (pc : Address) (S : Scopes) : Layout → Prop
  | .shaped s => Secured L K s.waiting.length (K pc) S.frames ∧
    (s.waiting ≠ [] → ∀ x, Readied lines x pc → S.top.get? x ≠ none)
  | .returned s => Secured L K s.waiting.length (K pc) S.below

/-- The scopes of a configuration bind the names that are certain at its address. -/
def Assured (c : Config) : Prop := ∃ l, L c.pc = some l ∧ l.Assured lines L K c.pc c.scopes

end Secured

section Secured

variable {lines : Array Line} {L : Address → Option Layout} {K : Address → List String} {n : Nat}
  {names names' : List String} {f : Scope} {frames frames' below : List Scope} {x : String} {a pc pc' : Address}
  {line : Line} {i : Instruction}

theorem Readied.inv (h : Readied lines x (a + 1)) (hline : lines[a]? = some line) :
    line.instruction = .allocVar x ∨
      (∃ p, line.instruction = .allocVar p ∨ line.instruction = .assign p) ∧ Readied lines x a := by
  cases h with
  | here hline' hi =>
    rw [hline] at hline'
    cases hline'
    exact .inl hi
  | later hline' hi h =>
    rw [hline] at hline'
    cases hline'
    exact .inr ⟨⟨_, hi⟩, h⟩

/-- Behind an instruction that neither binds a name nor gives one a value, no call has been prepared. -/
theorem not_readied (hline : lines[a]? = some line)
    (hi : ∀ p, line.instruction ≠ .allocVar p ∧ line.instruction ≠ .assign p) : ¬ Readied lines x (a + 1) := by
  intro h
  rcases h.inv hline with halloc | ⟨⟨p, halloc | hassign⟩, _⟩
  · exact (hi x).1 halloc
  · exact (hi p).1 halloc
  · exact (hi p).2 hassign

theorem Secured.fewer (h : Secured L K n names frames) (hnames : names' ⊆ names) : Secured L K n names' frames := by
  induction h with
  | script hback hbinds => exact .script hback fun x hx => hbinds x (hnames hx)
  | routine hback hL h hbinds _ => exact .routine hback hL h fun x hx => hbinds x (hnames hx)
  | waiting f _ ih => exact .waiting f (ih hnames)

theorem Secured.binds (h : Secured L K n names frames) : Binds frames names := by
  induction h with
  | script _ hbinds => exact hbinds
  | routine _ _ _ hbinds => exact hbinds
  | waiting f _ ih =>
    intro x hx
    obtain ⟨g, hg, hbound⟩ := ih x hx
    exact ⟨g, List.mem_cons_of_mem _ hg, hbound⟩

theorem Secured.extends (h : Secured L K n names frames) (hframes : List.Forall₂ Extends frames frames') :
    Secured L K n names frames' := by
  induction h generalizing frames' with
  | script hback hbinds =>
    have hbinds' := hbinds.extends hframes
    cases hframes with
    | cons hf hrest =>
      cases hrest with
      | cons _ hnil =>
        cases hnil
        exact .script (hf.back.trans hback) hbinds'
  | routine hback hL _ hbinds ih =>
    have hbinds' := hbinds.extends hframes
    cases hframes with
    | cons hf hrest => exact .routine (hf.back.trans hback) hL (ih hrest) hbinds'
  | waiting _ _ ih =>
    cases hframes with
    | cons _ hrest => exact .waiting _ (ih hrest)

/-- Outside of calls, a name that the innermost scope binds can become certain. -/
theorem Secured.learns (h : Secured L K 0 names (f :: below)) (hx : f.get? x ≠ none) (hnames : names' ⊆ x :: names) :
    Secured L K 0 names' (f :: below) := by
  have hmore (hbinds : Binds (f :: below) names) : Binds (f :: below) names' := by
    intro y hy
    rcases List.mem_cons.1 (hnames hy) with rfl | hy
    · exact ⟨f, List.mem_cons_self, hx⟩
    · exact hbinds y hy
  cases h with
  | script hback hbinds => exact .script hback (hmore hbinds)
  | routine hback hL h hbinds => exact .routine hback hL h (hmore hbinds)

theorem Secured.get?_ne_none {S : Scopes} (h : Secured L K n names S.frames) (hx : x ∈ names) : S.get? x ≠ none := by
  obtain ⟨f, hf, hbound⟩ := h.binds x hx
  intro hnone
  exact hbound (List.findSome?_eq_none_iff.1 hnone f hf)

/-! ## One instruction -/

/-- Where an instruction leads that remains in its scope, fewer names are certain, or it has bound one outside of
calls. -/
theorem Secures.onward (h : Secures lines L K pc i) (hi : i.remains) (hpc : i.Leads pc pc') :
    K pc' ⊆ K pc ∨ Idle L pc ∧ ∃ b, i.binding? pc = some b ∧ K pc' ⊆ b.name :: K pc := by
  cases i with
  | allocConst | allocVar =>
    cases hpc
    rcases h with h | ⟨hidle, h⟩
    · exact .inl h
    · exact .inr ⟨hidle, _, rfl, h⟩
  | jump => cases hpc; exact .inl h.1
  | jumpTrue | jumpFalse =>
    rcases hpc with rfl | rfl
    · exact .inl h.1
    · exact .inl h.2.1
  | jumpPop | pushScope | popScope | call | ret => cases hi
  | pushValue | pushVariable | pop | copy | assign | binary | unary | print | notify | dialog => cases hpc; exact .inl h

/-- Where an instruction leads in the preparation of a call, the parameters have been bound before, or by it. -/
theorem Secures.readied (h : Secures lines L K pc line.instruction) (hline : lines[pc]? = some line)
    (hi : line.instruction.remains) (hpc : line.instruction.Leads pc pc') (hx : Readied lines x pc') :
    Idle L pc ∨ Readied lines x pc ∨ ∃ b, line.instruction.binding? pc = some b ∧ b.name = x := by
  have hnext (hpc : pc' = pc + 1) :
      Readied lines x pc ∨ ∃ b, line.instruction.binding? pc = some b ∧ b.name = x := by
    subst hpc
    rcases hx.inv hline with halloc | ⟨_, hx⟩
    · exact .inr ⟨{ name := x }, by rw [halloc]; rfl, rfl⟩
    · exact .inl hx
  cases hi' : line.instruction with
  | jump b =>
    rw [hi'] at h hpc
    cases hpc
    exact .inl (h.2 x hx)
  | jumpTrue b | jumpFalse b =>
    rw [hi'] at h hpc hnext
    rcases hpc with hpc | rfl
    · exact .inr (hnext hpc)
    · exact .inl (h.2.2 x hx)
  | jumpPop | pushScope | popScope | call | ret => rw [hi'] at hi; cases hi
  | _ =>
    rw [hi'] at hpc hnext
    exact .inr (hnext hpc)

/-- The names that are certain after an instruction that remains in its scope. -/
theorem Secured.remains {s s' : Shape} {S S' : Scopes} (hs : L pc = some (.shaped s))
    (h : (Layout.shaped s).Assured lines L K pc S) (hline : lines[pc]? = some line)
    (hsecures : Secures lines L K pc line.instruction) (hfits : s.Fits L pc line.instruction)
    (hi : line.instruction.remains) (heffect : Effect line.instruction pc S pc' S')
    (hwaiting : s'.waiting = s.waiting) : (Layout.shaped s').Assured lines L K pc' S' := by
  obtain ⟨hsecured, hready⟩ := h
  have hextends := heffect.extends hfits hi
  have hidle (hidle : Idle L pc) : s.waiting = [] := by
    obtain ⟨s₁, hs₁, hnil⟩ := hidle
    rw [hs] at hs₁
    cases hs₁
    exact hnil
  refine ⟨?_, fun hne x hx => ?_⟩
  · rw [hwaiting]
    have hafter := hsecured.extends hextends
    rcases hsecures.onward hi heffect.leads with hfewer | ⟨hstill, b, hb, hmore⟩
    · exact hafter.fewer hfewer
    · rw [hidle hstill] at hafter ⊢
      refine hafter.learns ?_ hmore
      rw [heffect.binds_name hb]
      exact Option.some_ne_none b
  · rw [hwaiting] at hne
    rcases hsecures.readied hline hi heffect.leads hx with hstill | hbefore | ⟨b, hb, rfl⟩
    · exact absurd (hidle hstill) hne
    · cases hextends with
      | cons htop _ => exact htop.bound x (hready hne x hbefore)
    · rw [heffect.binds_name hb]
      exact Option.some_ne_none b

/-- The names that are certain after a call. -/
theorem Secured.calls {s : Shape} {S : Scopes} {entry : Address}
    (h : Secured L K (s.waiting.length + 1) (K pc) S.frames)
    (hready : ∀ x, Readied lines x pc → S.top.get? x ≠ none) (hL : L (pc + 1) = some (.returned s))
    (hsecures : Secures lines L K pc (.call entry)) :
    Secured L K 0 (K entry)
      (S.allocate { name := returnName, kind := .constant, value := .address (pc + 1) }).frames := by
  cases h with
  | waiting _ h =>
    refine .routine (returnOf_allocate _ _) hL (h.fewer hsecures.1) fun x hx => ?_
    rcases hsecures.2 x hx with hx | hx
    · obtain ⟨g, hg, hbound⟩ := h.binds x hx
      exact ⟨g, List.mem_cons_of_mem _ hg, hbound⟩
    · exact ⟨_, List.mem_cons_self, get?_allocate_ne_none _ (hready x hx)⟩

/-- The names that are certain where a routine returns to. -/
theorem Secured.returns {S : Scopes} {back : Address} (h : Secured L K 0 names S.frames)
    (hback : returnOf S.top = some (.address back)) :
    ∃ s, L back = some (.returned s) ∧ Secured L K s.waiting.length (K back) S.below := by
  obtain ⟨top, below, depth, hdepth⟩ := S
  cases h with
  | script hnone =>
    rw [hnone] at hback
    cases hback
  | routine hreturn hL h =>
    rw [hreturn] at hback
    cases hback
    exact ⟨_, hL, h⟩

end Secured

/-! ## Runs -/

section Runs

variable {σ : Type} {host : Host (StateM σ)} {options : Options} {lines : Array Line} {M₀ M M' : Machine}
  {st₀ st st' : σ} {calls : List Address} {L : Address → Option Layout} {K : Address → List String} {line : Line}

theorem assured_at {a : Address} {l : Layout} (hpc : M.pc = a) (hl : L a = some l)
    (hS : l.Assured lines L K a M.scopes) : Assured lines L K M.config := by
  subst hpc
  exact ⟨l, hl, hS⟩

/-- An instruction leads from where all certain names are bound to where they are again. -/
theorem Assured.turn (hL : Describes L lines)
    (hK : ∀ (a : Address) (line : Line), lines[a]? = some line → Secures lines L K a line.instruction)
    (hlaid : Laid L M.config calls) (h : Assured lines L K M.config) (hline : lines[M.pc]? = some line)
    (hturn : turn host options line M st = (.ok () M', st')) : Assured lines L K M'.config := by
  obtain ⟨l, hl, hS⟩ := h
  have hsecures := hK M.pc line hline
  have heffect := turn_effect hL hlaid hline hturn
  obtain ⟨l', hl', hfits⟩ := hL.fits M.pc line hline
  obtain ⟨l'', hl'', hstands⟩ := hlaid
  change L M.pc = some l at hl
  change L M.pc = some l'' at hl''
  rw [hl] at hl' hl''
  cases hl'
  cases hl''
  -- what neither binds a name nor gives one a value has prepared no call
  have hnone (hi : ∀ p, line.instruction ≠ .allocVar p ∧ line.instruction ≠ .assign p) (P : String → Prop) :
      ∀ x, Readied lines x (M.pc + 1) → P x := fun _ hx => absurd hx (not_readied hline hi)
  cases l with
  | returned s =>
    obtain ⟨hi, hnext⟩ := hfits
    rw [hi] at heffect hsecures hnone
    have hbelow : Secured L K s.waiting.length (K M.pc) M.scopes.below := hS
    rw [heffect.outer] at hbelow
    exact assured_at heffect.leads hnext ⟨hbelow.fewer hsecures, fun _ => hnone (fun _ => ⟨nofun, nofun⟩) _⟩
  | shaped s =>
    by_cases hi : line.instruction.remains = true
    · obtain ⟨s', hs', hwaiting⟩ := hfits.waiting_eq hi heffect.leads
      exact assured_at rfl hs' (Secured.remains hl hS hline hsecures hfits hi heffect hwaiting)
    · cases hi' : line.instruction with
      | jumpPop =>
        rw [hi'] at hfits hsecures
        obtain ⟨b, s', rfl, hb⟩ := hfits
        obtain ⟨hpc, hscopes⟩ := turn_jumpPop hstands hturn hi'
        obtain ⟨hfewer, hidle⟩ := hsecures b s' hl
        have hsecured : Secured L K s'.waiting.length (K M.pc) M.scopes.frames := hS.1
        rw [hscopes] at hsecured
        have hafter := hsecured.extends (forall₂_extends_of_alike (alike_uncons _ _))
        exact assured_at hpc hb ⟨hafter.fewer hfewer, fun hne => absurd hidle hne⟩
      | pushScope =>
        rw [hi'] at hfits hsecures heffect hnone
        refine assured_at heffect.leads hfits ⟨?_, fun _ => hnone (fun _ => ⟨nofun, nofun⟩) _⟩
        rw [heffect.inner]
        exact .waiting _ (hS.1.fewer hsecures)
      | call entry =>
        rw [hi'] at hfits hsecures heffect
        obtain ⟨s', rfl, hentry, hreturn⟩ := hfits
        refine assured_at heffect.leads hentry ⟨?_, fun hne => absurd rfl hne⟩
        rw [heffect.records]
        exact Secured.calls hS.1 (hS.2 (List.cons_ne_nil _ _)) hreturn hsecures
      | ret =>
        rw [hi'] at hfits heffect
        obtain ⟨back, _, calls', hback, hcalls, _, _⟩ := hstands.returns hfits
        have hpc : M'.pc = back := by
          have htop := turn_ret hL ⟨_, hl, hstands⟩ hline hturn hi'
          rw [hcalls] at htop
          exact (List.cons.inj htop).1.symm
        have hsecured := hS.1
        rw [hfits.2] at hsecured
        obtain ⟨s', hs', hrest⟩ := hsecured.returns hback
        refine assured_at hpc hs' ?_
        rw [heffect.unchanged]
        exact hrest
      | popScope =>
        rw [hi'] at hfits
        exact hfits.elim
      | _ => rw [hi'] at hi; exact absurd rfl hi

/-- In every state that a run reaches the certain names are bound. -/
theorem Reaches.assured (hL : Describes L lines)
    (hK : ∀ (a : Address) (line : Line), lines[a]? = some line → Secures lines L K a line.instruction)
    (hlaid : Laid L M₀.config []) (h₀ : Assured lines L K M₀.config)
    (h : Reaches host options lines M₀ st₀ M st calls) : Assured lines L K M.config := by
  induction h with
  | start => exact h₀
  | turn h hline hturn ih => exact ih.turn hL hK (h.laid hL hlaid) hline hturn

end Runs

end Machine

end MacroBasic
