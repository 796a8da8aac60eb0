/-
The scopes that a run finds around an instruction. A script and each of its routines is a realm with names of its
own. Given which realms are around each address, the scopes of a run stand as the realms do: below the scope of an
activation there is, further down, one of each realm around it. In between there can be scopes of other realms, for
a routine can be called from where it is not around; but a scope never binds a name that is bound below it, unless
that name belongs to its own realm.
-/
import MacroBasic.Proofs.Machine.Passage

namespace MacroBasic

/-! ## Realms -/

/-- Where a name can be at home: in what surrounds a script, in the script itself, or in the routine whose code
begins at an address. -/
inductive Home where
  | surroundings
  | script
  | routine (entry : Address)
deriving DecidableEq

/-- A part of a script that has a scope of its own, with the names that it can bind there by itself. -/
structure Realm where
  home : Home
  names : List String

/-- Whether an instruction leaves the scopes that wait as they are and leads to addresses that it names. -/
def Instruction.remains : Instruction → Bool
  | .jumpPop | .pushScope | .popScope | .call _ | .ret => false
  | _ => true

/-- A scope binds no name that one of the scopes below it binds, except for the given names. -/
def Scope.HidesOnly (names : List String) (below : List Scope) (f : Scope) : Prop :=
  ∀ x, f.get? x ≠ none → x ∈ names ∨ ∀ g ∈ below, g.get? x = none

namespace Machine

/-- Two scopes bind the same names, and they say to return to the same address. -/
structure Alike (f f' : Scope) : Prop where
  bound : ∀ x, f'.get? x = none ↔ f.get? x = none
  back : returnOf f' = returnOf f

section Alike

variable {f f' : Scope} {frames frames' below below' : List Scope} {names names' : List String} {x : String}

theorem Alike.refl (f : Scope) : Alike f f := ⟨fun _ => Iff.rfl, rfl⟩

theorem alike_of_names (h : f'.names = f.names) : Alike f f' := by
  have hget (x : String) : f'.get? x = f.get? x := by rw [Scope.get?, h, Scope.get?]
  exact ⟨fun x => by rw [hget], by rw [returnOf, hget, returnOf]⟩

theorem forall₂_alike_refl (l : List Scope) : List.Forall₂ Alike l l := List.forall₂_same.2 fun f _ => .refl f

theorem find?_replace?_eq_none {name : String} {v : Value} : ∀ {bs bs' : List Binding},
    Scope.replace? name v bs = some bs' → (bs'.find? (·.name == x) = none ↔ bs.find? (·.name == x) = none)
  | [], _, h => nomatch h
  | first :: rest, _, h => by
    unfold Scope.replace? at h
    split at h
    · cases h
      rw [List.find?_eq_none, List.find?_eq_none, List.forall_mem_cons, List.forall_mem_cons]
    · obtain ⟨rest', hrest, rfl⟩ := Option.map_eq_some_iff.1 h
      have ih := find?_replace?_eq_none hrest
      rw [List.find?_eq_none, List.find?_eq_none] at ih
      rw [List.find?_eq_none, List.find?_eq_none, List.forall_mem_cons, List.forall_mem_cons, ih]

/-- Giving a name a value leaves all scopes alike. -/
theorem alike_assignFirst? {name : String} (hname : name ≠ returnName) {v : Value} :
    ∀ {frames frames' : List Scope}, Scopes.assignFirst? name v frames = some frames' →
      List.Forall₂ Alike frames frames'
  | [], _, h => nomatch h
  | f :: frames, _, h => by
    unfold Scopes.assignFirst? at h
    split at h
    · rename_i f' hf
      cases h
      obtain ⟨_, hback⟩ := assign?_frame hname hf
      obtain ⟨names, hnames, rfl⟩ := Option.map_eq_some_iff.1 hf
      exact .cons ⟨fun x => find?_replace?_eq_none hnames, hback⟩ (forall₂_alike_refl frames)
    · obtain ⟨frames', hframes, rfl⟩ := Option.map_eq_some_iff.1 h
      exact .cons (.refl f) (alike_assignFirst? hname hframes)

theorem alike_assign? {name : String} (hname : name ≠ returnName) (v : Value) (S : Scopes) :
    List.Forall₂ Alike S.frames ((S.assign? name v).getD S).frames := by
  cases h : S.assign? name v with
  | none => exact forall₂_alike_refl _
  | some S' => exact alike_assignFirst? hname (Scopes.assign?_frames h)

theorem forall_unbound_alike (h : List.Forall₂ Alike below below') (hx : ∀ g ∈ below, g.get? x = none) :
    ∀ g ∈ below', g.get? x = none := by
  induction h with
  | nil => exact nofun
  | cons hfirst _ ih =>
    rw [List.forall_mem_cons] at hx ⊢
    exact ⟨(hfirst.bound x).2 hx.1, ih hx.2⟩

end Alike

/-! ## Names that scopes hide -/

section HidesOnly

variable {f f' : Scope} {below below' : List Scope} {names names' : List String} {b : Binding}

theorem hidesOnly_empty : Scope.HidesOnly names below .empty := fun _ hx => absurd rfl hx

theorem hidesOnly_mono (h : f.HidesOnly names below) (hnames : names ⊆ names') : f.HidesOnly names' below :=
  fun x hx => (h x hx).imp (hnames ·) id

theorem hidesOnly_alike (h : f.HidesOnly names below) (hf : Alike f f') (hbelow : List.Forall₂ Alike below below') :
    f'.HidesOnly names below' := by
  intro x hx
  rcases h x (fun hnone => hx ((hf.bound x).2 hnone)) with hname | hfree
  · exact .inl hname
  · exact .inr (forall_unbound_alike hbelow hfree)

/-- A name may be bound that belongs to the scope, or that is bound nowhere below. -/
theorem hidesOnly_allocate (h : f.HidesOnly names below) (hb : b.name ∈ names ∨ ∀ g ∈ below, g.get? b.name = none) :
    (f.allocate b).HidesOnly names below := by
  intro x hx
  by_cases hname : b.name = x
  · exact hname ▸ hb
  · rw [Scope.get?_allocate_of_ne hname] at hx
    exact h x hx

theorem returnOf_allocate_of_ne (hb : b.name ≠ returnName) (f : Scope) : returnOf (f.allocate b) = returnOf f :=
  congrArg (Option.map Binding.value) (Scope.get?_allocate_of_ne hb f)

end HidesOnly

/-! ## Scopes and realms -/

section Standing

variable (lines : Array Line) (L : Address → Option Layout) (T : Address → Option (List Realm))

/-- A realm is around some address. -/
def Listed (u : Realm) : Prop := ∃ a us, T a = some us ∧ u ∈ us

/-- No scope waits for a call at an address. -/
def Idle (a : Address) : Prop := ∃ s : Shape, L a = some (.shaped s) ∧ s.waiting = []

/-- From an address on, parameters of a routine are bound until it is called. -/
inductive Prepares (r : Routine) : Address → Prop
  | call {a : Address} {line : Line} (hline : lines[a]? = some line) (hi : line.instruction = .call r.entry) :
    Prepares r a
  | bind {a : Address} {line : Line} {p : String} (hp : p ∈ r.parameters) (hline : lines[a]? = some line)
      (hi : line.instruction = .allocVar p ∨ line.instruction = .assign p) (h : Prepares r (a + 1)) : Prepares r a

/-- The parameters of a routine are names of its realm. -/
def Takes (r : Routine) : Prop := ∀ u around, T r.entry = some (u :: around) → r.parameters ⊆ u.names

/-- An instruction at an address keeps to the realms there: it leads to where the same realms are around, it calls
only routines whose realms stand in one of these, and it binds only names of the innermost one, or parameters for a
call. -/
def Placed (a : Address) : Instruction → Prop
  | .jump b => T b = T a
  | .jumpTrue b | .jumpFalse b => T (a + 1) = T a ∧ T b = T a
  | .jumpPop => ∀ (b : Address) (s : Shape), L a = some (.shaped (s.push (.exit b))) → T b = T a
  | .call b => T (a + 1) = T a ∧ ∃ us u around, T a = some us ∧ T b = some (u :: around) ∧ around <:+ us ∧
    u.home = .routine b ∧ returnName ∈ u.names
  | .allocConst x _ | .allocVar x => T (a + 1) = T a ∧
    ((∃ s u around, L a = some (.shaped s) ∧ s.waiting = [] ∧ T a = some (u :: around) ∧ x ∈ u.names) ∨
      ∃ r, Prepares lines r a ∧ Takes T r)
  | .ret => True
  | _ => T (a + 1) = T a

/-- The scopes stand as realms do, the innermost one first, but for so many scopes that wait for calls. -/
inductive Standing : Nat → List Realm → List Scope → Prop
  | script {u v : Realm} {f shared : Scope} (hu : u.home = .script) (hv : v.home = .surroundings) (hlisted : Listed T u)
      (hback : returnOf f = none) (hf : f.HidesOnly u.names [shared]) : Standing 0 [u, v] [f, shared]
  | routine {u : Realm} {around us : List Realm} {f : Scope} {below : List Scope} {a entry : Address} {line : Line}
      {s : Shape} (hback : returnOf f = some (.address (a + 1))) (hline : lines[a]? = some line)
      (hcall : line.instruction = .call entry) (hu : u.home = .routine entry) (hlisted : Listed T u)
      (hf : f.HidesOnly u.names below) (hT : T (a + 1) = some us) (hL : L (a + 1) = some (.returned s))
      (haround : around <:+ us) (h : Standing s.waiting.length us below) : Standing 0 (u :: around) (f :: below)
  | waiting {n : Nat} {us : List Realm} {f : Scope} {below : List Scope} (hback : returnOf f = none)
      (hf : f.HidesOnly [] below) (h : Standing n us below) : Standing (n + 1) us (f :: below)

/-- The innermost scope is one for a call that is being prepared, inside of scopes that stand as realms do. -/
structure Preparing (n : Nat) (us : List Realm) (pc : Address) (S : Scopes) : Prop where
  back : returnOf S.top = none
  hides : S.top.HidesOnly [] S.below ∨
    ∃ r, Prepares lines r pc ∧ Takes T r ∧ S.top.HidesOnly r.parameters S.below
  below : Standing lines L T n us S.below

/-- The scopes stand as the realms at an address do, given what waits in the innermost activation. -/
def Amid (us : List Realm) (pc : Address) (S : Scopes) : List (List Cell) → Prop
  | [] => Standing lines L T 0 us S.frames
  | _ :: rest => Preparing lines L T rest.length us pc S

/-- The same for any layout: nothing is said about the scope of a call that has returned. -/
def Layout.Situated (us : List Realm) (pc : Address) (S : Scopes) : Layout → Prop
  | .shaped s => Amid lines L T us pc S s.waiting
  | .returned s => Standing lines L T s.waiting.length us S.below

/-- The scopes of a configuration stand as the realms at its address do. -/
def Situated (c : Config) : Prop :=
  ∃ l us, L c.pc = some l ∧ T c.pc = some us ∧ l.Situated lines L T us c.pc c.scopes

end Standing

section Standing

variable {lines : Array Line} {L : Address → Option Layout} {T : Address → Option (List Realm)}
  {n : Nat} {us : List Realm} {f : Scope} {frames frames' below : List Scope} {b : Binding} {r : Routine}
  {a pc : Address} {S S' : Scopes} {i : Instruction}

theorem Standing.alike (h : Standing lines L T n us frames) (hframes : List.Forall₂ Alike frames frames') :
    Standing lines L T n us frames' := by
  induction h generalizing frames' with
  | script hu hv hlisted hback hf =>
    cases hframes with
    | cons halike hrest =>
      cases hrest with
      | cons hshared hnil =>
        cases hnil
        exact .script hu hv hlisted (halike.back.trans hback) (hidesOnly_alike hf halike (.cons hshared .nil))
  | routine hback hline hcall hu hlisted hf hT hL haround _ ih =>
    cases hframes with
    | cons halike hrest =>
      exact .routine (halike.back.trans hback) hline hcall hu hlisted (hidesOnly_alike hf halike hrest) hT hL haround
        (ih hrest)
  | waiting hback hf _ ih =>
    cases hframes with
    | cons halike hrest => exact .waiting (halike.back.trans hback) (hidesOnly_alike hf halike hrest) (ih hrest)

/-- In the innermost scope of an activation a name of its realm may be bound, or one that is bound nowhere. -/
theorem Standing.allocate (h : Standing lines L T 0 us (f :: below)) (hb : b.name ≠ returnName)
    (hname : (∃ u around, us = u :: around ∧ b.name ∈ u.names) ∨ ∀ g ∈ below, g.get? b.name = none) :
    Standing lines L T 0 us (f.allocate b :: below) := by
  have hback := returnOf_allocate_of_ne hb f
  cases h with
  | script hu hv hlisted hnone hf =>
    refine .script hu hv hlisted (hback.trans hnone) (hidesOnly_allocate hf (hname.imp_left ?_))
    rintro ⟨_, _, ⟨⟩, hmem⟩
    exact hmem
  | routine hreturn hline hcall hu hlisted hf hT hL haround hrest =>
    refine .routine (hback.trans hreturn) hline hcall hu hlisted (hidesOnly_allocate hf (hname.imp_left ?_)) hT hL
      haround hrest
    rintro ⟨_, _, ⟨⟩, hmem⟩
    exact hmem

/-! ## Preparing calls -/

/-- What an instruction does that is part of the preparation of a call. -/
theorem Prepares.inv {line : Line} (h : Prepares lines r a) (hline : lines[a]? = some line) :
    (∃ p ∈ r.parameters, (line.instruction = .allocVar p ∨ line.instruction = .assign p) ∧
      Prepares lines r (a + 1)) ∨ line.instruction = .call r.entry := by
  cases h with
  | call hline' hi =>
    rw [hline] at hline'
    cases hline'
    exact .inr hi
  | bind hp hline' hi h =>
    rw [hline] at hline'
    cases hline'
    exact .inl ⟨_, hp, hi, h⟩

/-- Where a call is prepared, a scope waits. -/
theorem Prepares.waiting_ne_nil (hL : Describes L lines) {s : Shape} (h : Prepares lines r a)
    (hs : L a = some (.shaped s)) : s.waiting ≠ [] := by
  induction h generalizing s with
  | @call a line hline hi =>
    obtain ⟨l, hl, hfits⟩ := hL.fits a line hline
    rw [hs] at hl
    cases hl
    rw [hi] at hfits
    obtain ⟨s', rfl, _⟩ := hfits
    exact List.cons_ne_nil _ _
  | @bind a line p hp hline hi _ ih =>
    obtain ⟨l, hl, hfits⟩ := hL.fits a line hline
    rw [hs] at hl
    cases hl
    rcases hi with hi | hi
    · rw [hi] at hfits
      exact ih hfits.2
    · rw [hi] at hfits
      obtain ⟨_, s', rfl, hnext⟩ := hfits
      have hne : s'.waiting ≠ [] := ih hnext
      exact hne

/-! ## One instruction -/

theorem Prepares.onward {line : Line} {pc' : Address} (h : Prepares lines r pc) (hline : lines[pc]? = some line)
    (hi : line.instruction.remains) (hpc : line.instruction.Leads pc pc') : Prepares lines r pc' := by
  rcases h.inv hline with ⟨p, _, hbind | hbind, hnext⟩ | hcall
  · rw [hbind] at hpc
    exact (show pc' = pc + 1 from hpc) ▸ hnext
  · rw [hbind] at hpc
    exact (show pc' = pc + 1 from hpc) ▸ hnext
  · rw [hcall] at hi
    cases hi

theorem Shape.waiting_values (n : Nat) (s : Shape) : (s.values n).waiting = s.waiting := by
  induction n with
  | zero => rfl
  | succ n ih => exact ih

/-- Where an instruction leads that remains in its scope, the same scopes wait. -/
theorem Shape.Fits.waiting_eq {s : Shape} {pc' : Address} (h : s.Fits L pc i) (hi : i.remains)
    (hpc : i.Leads pc pc') : ∃ s' : Shape, L pc' = some (.shaped s') ∧ s'.waiting = s.waiting := by
  cases i with
  | allocConst | allocVar => cases hpc; exact ⟨s, h.2, rfl⟩
  | pushValue v =>
    obtain ⟨c, _, hl⟩ := h
    cases hpc
    exact ⟨_, hl, rfl⟩
  | pushVariable | notify => cases hpc; exact ⟨_, h, rfl⟩
  | copy => cases hpc; exact ⟨_, h.2, rfl⟩
  | pop =>
    obtain ⟨c, s', rfl, hl⟩ := h
    cases hpc
    exact ⟨s', hl, rfl⟩
  | assign =>
    obtain ⟨_, s', rfl, hl⟩ := h
    cases hpc
    exact ⟨s', hl, rfl⟩
  | unary | print =>
    obtain ⟨s', rfl, hl⟩ := h
    cases hpc
    exact ⟨_, hl, rfl⟩
  | binary =>
    obtain ⟨s', rfl, hl⟩ := h
    cases hpc
    exact ⟨_, hl, rfl⟩
  | dialog d =>
    obtain ⟨s', rfl, hl⟩ := h
    cases hpc
    refine ⟨_, hl, ?_⟩
    rw [Shape.waiting_values]
    split <;> rfl
  | jump => cases hpc; exact ⟨s, h, rfl⟩
  | jumpTrue | jumpFalse =>
    obtain ⟨s', rfl, hl, hb⟩ := h
    rcases hpc with rfl | rfl
    · exact ⟨s', hl, rfl⟩
    · exact ⟨s', hb, rfl⟩
  -- these do not remain in their scope
  | jumpPop | pushScope | popScope | call | ret => cases hi

theorem Placed.onward {pc' : Address} (h : Placed lines L T pc i) (hi : i.remains) (hpc : i.Leads pc pc') :
    T pc' = T pc := by
  cases i with
  | allocConst | allocVar => cases hpc; exact h.1
  | jump => cases hpc; exact h
  | jumpTrue | jumpFalse =>
    rcases hpc with rfl | rfl
    · exact h.1
    · exact h.2
  | jumpPop | pushScope | popScope | call | ret => cases hi
  | pushValue | pushVariable | pop | copy | assign | binary | unary | print | notify | dialog => cases hpc; exact h

/-- Where the scopes stay alike, they stand as before. -/
theorem Amid.alike {pc' : Address} {waiting : List (List Cell)} (h : Amid lines L T us pc S waiting)
    (hframes : List.Forall₂ Alike S.frames S'.frames) (hprepares : ∀ r, Prepares lines r pc → Prepares lines r pc') :
    Amid lines L T us pc' S' waiting := by
  cases waiting with
  | nil => exact Standing.alike h hframes
  | cons cells rest =>
    obtain ⟨hback, hhides, hbelow⟩ := h
    cases hframes with
    | cons htop hrest =>
      refine ⟨htop.back.trans hback, ?_, hbelow.alike hrest⟩
      rcases hhides with hnone | ⟨r, hr, htakes, hparameters⟩
      · exact .inl (hidesOnly_alike hnone htop hrest)
      · exact .inr ⟨r, hprepares r hr, htakes, hidesOnly_alike hparameters htop hrest⟩

/-- Any name may be bound that is bound nowhere. -/
theorem Amid.create {pc' : Address} {waiting : List (List Cell)} (h : Amid lines L T us pc S waiting)
    (hb : b.name ≠ returnName) (hfree : ∀ g ∈ S.below, g.get? b.name = none)
    (hprepares : ∀ r, Prepares lines r pc → Prepares lines r pc') :
    Amid lines L T us pc' (S.allocate b) waiting := by
  cases waiting with
  | nil => exact Standing.allocate h hb (.inr hfree)
  | cons cells rest =>
    obtain ⟨hback, hhides, hbelow⟩ := h
    refine ⟨(returnOf_allocate_of_ne hb S.top).trans hback, ?_, hbelow⟩
    rcases hhides with hnone | ⟨r, hr, htakes, hparameters⟩
    · exact .inl (hidesOnly_allocate hnone (.inr hfree))
    · exact .inr ⟨r, hprepares r hr, htakes, hidesOnly_allocate hparameters (.inr hfree)⟩

/-- Where a call is prepared, its parameters may be bound. -/
theorem Preparing.allocate {pc' : Address} (h : Preparing lines L T n us pc S) (hb : b.name ≠ returnName)
    (hsome : ∃ r, Prepares lines r pc ∧ Takes T r) (hparameter : ∀ r, Prepares lines r pc → b.name ∈ r.parameters)
    (hprepares : ∀ r, Prepares lines r pc → Prepares lines r pc') :
    Preparing lines L T n us pc' (S.allocate b) := by
  obtain ⟨hback, hhides, hbelow⟩ := h
  obtain ⟨r, hr, htakes, hparameters⟩ :
      ∃ r, Prepares lines r pc ∧ Takes T r ∧ S.top.HidesOnly r.parameters S.below := by
    rcases hhides with hnone | hsome'
    · obtain ⟨r, hr, htakes⟩ := hsome
      exact ⟨r, hr, htakes, hidesOnly_mono hnone (List.nil_subset _)⟩
    · exact hsome'
  exact ⟨(returnOf_allocate_of_ne hb S.top).trans hback,
    .inr ⟨r, hprepares r hr, htakes, hidesOnly_allocate hparameters (.inl (hparameter r hr))⟩, hbelow⟩

/-- Where nothing but the preparation of a call can bind names, the new scope binds none that is bound below. -/
theorem Preparing.hides_nothing {line : Line} (h : Preparing lines L T n us pc S)
    (hline : lines[pc]? = some line) (hbind : ∀ p, line.instruction ≠ .allocVar p ∧ line.instruction ≠ .assign p)
    (hcall : ∀ e, line.instruction ≠ .call e) : S.top.HidesOnly [] S.below := by
  rcases h.hides with hnone | ⟨r, hr, _⟩
  · exact hnone
  · rcases hr.inv hline with ⟨p, _, hi | hi, _⟩ | hi
    · exact absurd hi (hbind p).1
    · exact absurd hi (hbind p).2
    · exact absurd hi (hcall _)

/-- A name that an instruction binds is a parameter where a call is prepared. -/
theorem Prepares.mem_of_binding {line : Line} (h : Prepares lines r pc) (hline : lines[pc]? = some line)
    (hi : line.instruction.remains) (hb : line.instruction.binding? pc = some b) : b.name ∈ r.parameters := by
  rcases h.inv hline with ⟨p, hp, hbind | hbind, _⟩ | hcall
  · rw [hbind] at hb
    cases hb
    exact hp
  · rw [hbind] at hb
    cases hb
  · rw [hcall] at hi
    cases hi

theorem Placed.binding (h : Placed lines L T pc i) (hi : i.remains) (hb : i.binding? pc = some b) :
    (∃ s u around, L pc = some (.shaped s) ∧ s.waiting = [] ∧ T pc = some (u :: around) ∧ b.name ∈ u.names) ∨
      ∃ r, Prepares lines r pc ∧ Takes T r := by
  cases i with
  | allocConst | allocVar => cases hb; exact h.2
  | call => cases hi
  | _ => cases hb

theorem Shape.Fits.binding_name {s : Shape} (h : s.Fits L pc i) (hi : i.remains) (hb : i.binding? pc = some b) :
    b.name ≠ returnName := by
  cases i with
  | allocConst | allocVar => cases hb; exact h.1
  | call => cases hi
  | _ => cases hb

/-- The scopes after an instruction that binds a name and remains in its scope. -/
theorem Amid.binding {s : Shape} {line : Line} {pc' : Address} (hL : Describes L lines)
    (h : Amid lines L T us pc S s.waiting) (hs : L pc = some (.shaped s)) (hus : T pc = some us)
    (hline : lines[pc]? = some line) (hfits : s.Fits L pc line.instruction)
    (hplaced : Placed lines L T pc line.instruction) (hi : line.instruction.remains)
    (hleads : line.instruction.Leads pc pc') (hb : line.instruction.binding? pc = some b) :
    Amid lines L T us pc' (S.allocate b) s.waiting := by
  have hname := hfits.binding_name hi hb
  cases hwaiting : s.waiting with
  | nil =>
    rw [hwaiting] at h
    rcases hplaced.binding hi hb with ⟨_, u, around, _, _, hT, hmem⟩ | ⟨r, hr, _⟩
    · rw [hus] at hT
      cases hT
      exact Standing.allocate h hname (.inl ⟨u, around, rfl, hmem⟩)
    · exact absurd hwaiting (hr.waiting_ne_nil hL hs)
  | cons cells rest =>
    rw [hwaiting] at h
    rcases hplaced.binding hi hb with ⟨s', _, _, hs', hnil, _⟩ | hsome
    · rw [hs] at hs'
      cases hs'
      rw [hwaiting] at hnil
      cases hnil
    · exact Preparing.allocate h hname hsome (fun r hr => hr.mem_of_binding hline hi hb)
        fun r hr => hr.onward hline hi hleads

theorem alike_pushAll (base : Scopes) (vs ws : List Value) :
    List.Forall₂ Alike (base.pushAll vs).frames (base.pushAll ws).frames := by
  refine .cons (alike_of_names ?_) ?_
  · rw [Scopes.names_pushAll, Scopes.names_pushAll]
  · rw [Scopes.below_pushAll, Scopes.below_pushAll]
    exact forall₂_alike_refl _

theorem alike_uncons (v : Value) (S : Scopes) : List.Forall₂ Alike (S.cons v).frames S.frames :=
  alike_pushAll S [v] []

/-- The scopes after an instruction that remains in its scope. -/
theorem Amid.remains {s : Shape} {line : Line} {pc' : Address} (hL : Describes L lines)
    (h : Amid lines L T us pc S s.waiting) (hs : L pc = some (.shaped s)) (hus : T pc = some us)
    (hline : lines[pc]? = some line) (hfits : s.Fits L pc line.instruction)
    (hplaced : Placed lines L T pc line.instruction) (hi : line.instruction.remains)
    (heffect : Effect line.instruction pc S pc' S') : Amid lines L T us pc' S' s.waiting := by
  have hleads := heffect.leads
  have hprepares (r : Routine) (hr : Prepares lines r pc) : Prepares lines r pc' := hr.onward hline hi hleads
  have hassign {name : String} (hassign : line.instruction = .assign name) : name ≠ returnName := by
    rw [hassign] at hfits
    exact hfits.1
  cases heffect with
  | values base taken given _ _ _ _ hS hS' =>
    subst hS hS'
    exact h.alike (alike_pushAll base taken given) hprepares
  | binds b hb _ hS' =>
    subst hS'
    exact h.binding hL hs hus hline hfits hplaced hi hleads hb
  | gives name v S₁ _ hname _ hS _ _ hS' =>
    subst hS hS'
    exact (h.alike (alike_uncons v S₁) fun _ hr => hr).alike (alike_assign? (hassign hname) v S₁) hprepares
  | hands _ v S₁ _ _ hS _ hS' =>
    subst hS
    rw [hS']
    exact h.alike (alike_uncons v S₁) hprepares
  | creates name v S₁ hname _ hS hfree hS' =>
    subst hS hS'
    refine (h.alike (alike_uncons v S₁) fun _ hr => hr).create (hassign hname) ?_ hprepares
    exact fun g hg => List.findSome?_eq_none_iff.1 hfree g (List.mem_cons_of_mem _ hg)
  | enters hpush => rw [hpush] at hi; cases hi
  | leaves hpop => rw [hpop] at hi; cases hi

/-- The scopes after a new one has been entered. -/
theorem Amid.enters {s : Shape} {line : Line} (h : Amid lines L T us pc S s.waiting)
    (hline : lines[pc]? = some line) (hi : line.instruction = .pushScope) :
    Amid lines L T us (pc + 1) S.inner s.enter.waiting := by
  refine ⟨rfl, .inl hidesOnly_empty, ?_⟩
  show Standing lines L T s.waiting.length us S.frames
  cases hwaiting : s.waiting with
  | nil =>
    rw [hwaiting] at h
    exact h
  | cons cells rest =>
    rw [hwaiting] at h
    have hnone := Preparing.hides_nothing h hline (fun p => by rw [hi]; exact ⟨nofun, nofun⟩)
      fun e => by rw [hi]; exact nofun
    exact .waiting h.back hnone h.below

/-- The scopes after the one of a call has been left. -/
theorem Standing.leaves {s : Shape} (h : Standing lines L T s.waiting.length us S.frames) (pc : Address) :
    Amid lines L T us pc S s.waiting := by
  cases hwaiting : s.waiting with
  | nil =>
    rw [hwaiting] at h
    exact h
  | cons cells rest =>
    rw [hwaiting] at h
    cases h with
    | waiting hback hf h => exact ⟨hback, .inl hf, h⟩

/-- The scopes after a call. -/
theorem Preparing.calls {s : Shape} {line : Line} {entry : Address}
    (h : Preparing lines L T s.waiting.length us pc S) (hus : T pc = some us) (hline : lines[pc]? = some line)
    (hi : line.instruction = .call entry) (hL : L (pc + 1) = some (.returned s))
    (hplaced : Placed lines L T pc (.call entry)) : ∃ us', T entry = some us' ∧
      Standing lines L T 0 us'
        (S.allocate { name := returnName, kind := .constant, value := .address (pc + 1) }).frames := by
  obtain ⟨hnext, us', u, around, hus', hentry, haround, hhome, hreturn⟩ := hplaced
  rw [hus] at hus'
  cases hus'
  have hhides : S.top.HidesOnly u.names S.below := by
    rcases h.hides with hnone | ⟨r, hr, htakes, hparameters⟩
    · exact hidesOnly_mono hnone (List.nil_subset _)
    · rcases hr.inv hline with ⟨p, _, hbind | hbind, _⟩ | hcall
      · rw [hi] at hbind; cases hbind
      · rw [hi] at hbind; cases hbind
      · rw [hi] at hcall
        cases hcall
        exact hidesOnly_mono hparameters (htakes u around hentry)
  exact ⟨u :: around, hentry, .routine (returnOf_allocate _ _) hline hi hhome ⟨entry, _, hentry, List.mem_cons_self⟩
    (hidesOnly_allocate hhides (.inl hreturn)) (hnext.trans hus) hL haround h.below⟩

/-- Where a routine returns to, the scopes below its own stand as the realms there do. -/
theorem Standing.returns {back : Address} (h : Standing lines L T 0 us S.frames)
    (hback : returnOf S.top = some (.address back)) : ∃ us' s, T back = some us' ∧ L back = some (.returned s) ∧
      Standing lines L T s.waiting.length us' S.below := by
  obtain ⟨top, below, depth, hdepth⟩ := S
  cases h with
  | script _ _ _ hnone =>
    rw [hnone] at hback
    cases hback
  | routine hreturn _ _ _ _ _ hT hL _ h =>
    rw [hreturn] at hback
    cases hback
    exact ⟨_, _, hT, hL, h⟩

end Standing

/-! ## Runs -/

section Runs

variable {σ : Type} {host : Host (StateM σ)} {options : Options} {lines : Array Line} {M₀ M M' : Machine}
  {st₀ st st' : σ} {calls : List Address} {L : Address → Option Layout} {T : Address → Option (List Realm)}
  {line : Line} {s : Shape} {us : List Realm}

/-- What leaves a loop goes on at the address that is on the stack for it. -/
theorem turn_jumpPop {b : Address} (h : (s.push (.exit b)).Stands L M.scopes calls)
    (hturn : turn host options line M st = (.ok () M', st')) (hi : line.instruction = .jumpPop) :
    M'.pc = b ∧ M.scopes = M'.scopes.cons (.address b) := by
  obtain ⟨v, S, hS, rfl, _⟩ := h.uncons
  obtain ⟨t, hyields⟩ := turn_yields hturn
  change (advance _ _ ⟨M.pc, M.scopes⟩).Yields t (.ok M'.config) at hyields
  rw [hi, hS, advance_jumpPop, Talk.yields_done] at hyields
  have hconfig := Except.ok.inj hyields.2
  have hscopes : M'.scopes = S := congrArg Config.scopes hconfig
  exact ⟨congrArg Config.pc hconfig, by rw [hS, hscopes]⟩

theorem situated_at {a : Address} {l : Layout} (hpc : M.pc = a) (hl : L a = some l) (hus : T a = some us)
    (hS : l.Situated lines L T us a M.scopes) : Situated lines L T M.config := by
  subst hpc
  exact ⟨l, us, hl, hus, hS⟩

/-- An instruction leads from where the scopes stand as the realms do to where they do so again. -/
theorem Situated.turn (hL : Describes L lines)
    (hT : ∀ (a : Address) (line : Line), lines[a]? = some line → Placed lines L T a line.instruction)
    (hlaid : Laid L M.config calls) (h : Situated lines L T M.config) (hline : lines[M.pc]? = some line)
    (hturn : turn host options line M st = (.ok () M', st')) : Situated lines L T M'.config := by
  obtain ⟨l, us, hl, hus, hS⟩ := h
  have hplaced := hT M.pc line hline
  have heffect := turn_effect hL hlaid hline hturn
  obtain ⟨l', hl', hfits⟩ := hL.fits M.pc line hline
  obtain ⟨l'', hl'', hstands⟩ := hlaid
  change L M.pc = some l at hl
  change L M.pc = some l'' at hl''
  change T M.pc = some us at hus
  rw [hl] at hl' hl''
  cases hl'
  cases hl''
  cases l with
  | returned s =>
    -- the routine has returned, and the scope of its call is left
    obtain ⟨hi, hnext⟩ := hfits
    rw [hi] at heffect hplaced
    have hbelow : Standing lines L T s.waiting.length us M.scopes.below := hS
    rw [heffect.outer] at hbelow
    exact situated_at heffect.leads hnext (hplaced.trans hus) (hbelow.leaves _)
  | shaped s =>
    change Amid lines L T us M.pc M.scopes s.waiting at hS
    -- what remains in its scope keeps the realms, so that few instructions are looked at one by one
    by_cases hi : line.instruction.remains = true
    · obtain ⟨s', hs', hwaiting⟩ := hfits.waiting_eq hi heffect.leads
      refine situated_at rfl hs' ((hplaced.onward hi heffect.leads).trans hus) ?_
      have hafter := hS.remains hL hl hus hline hfits hplaced hi heffect
      rw [← hwaiting] at hafter
      exact hafter
    · cases hi' : line.instruction with
      | jumpPop =>
        rw [hi'] at hfits hplaced
        obtain ⟨b, s', rfl, hb⟩ := hfits
        obtain ⟨hpc, hscopes⟩ := turn_jumpPop hstands hturn hi'
        rw [hscopes] at hS
        refine situated_at hpc hb ((hplaced b s' hl).trans hus) (hS.alike (alike_uncons _ _) fun r hr => ?_)
        have hnot := hr.inv hline
        rw [hi'] at hnot
        rcases hnot with ⟨_, _, hbind | hbind, _⟩ | hcall
        · cases hbind
        · cases hbind
        · cases hcall
      | pushScope =>
        rw [hi'] at hfits hplaced heffect
        refine situated_at heffect.leads hfits (hplaced.trans hus) ?_
        rw [heffect.inner]
        exact hS.enters hline hi'
      | call entry =>
        rw [hi'] at hfits hplaced heffect
        obtain ⟨s', rfl, hentry, hreturn⟩ := hfits
        obtain ⟨us', hus', hstanding⟩ := Preparing.calls hS hus hline hi' hreturn hplaced
        refine situated_at heffect.leads hentry hus' ?_
        rw [heffect.records]
        exact hstanding
      | ret =>
        rw [hi'] at hfits heffect
        obtain ⟨back, _, calls', hback, hcalls, _, _⟩ := hstands.returns hfits
        have hpc : M'.pc = back := by
          have htop := turn_ret hL ⟨_, hl, hstands⟩ hline hturn hi'
          rw [hcalls] at htop
          exact (List.cons.inj htop).1.symm
        rw [hfits.2] at hS
        obtain ⟨us', s', hus', hs', hstanding⟩ := Standing.returns hS hback
        refine situated_at hpc hs' hus' ?_
        rw [heffect.unchanged]
        exact hstanding
      | popScope =>
        rw [hi'] at hfits
        exact hfits.elim
      | _ => rw [hi'] at hi; exact absurd rfl hi

/-- In every state that a run reaches the scopes stand as the realms do. -/
theorem Reaches.situated (hL : Describes L lines)
    (hT : ∀ (a : Address) (line : Line), lines[a]? = some line → Placed lines L T a line.instruction)
    (hlaid : Laid L M₀.config []) (h₀ : Situated lines L T M₀.config)
    (h : Reaches host options lines M₀ st₀ M st calls) : Situated lines L T M.config := by
  induction h with
  | start => exact h₀
  | turn h hline hturn ih => exact ih.turn hL hT (h.laid hL hlaid) hline hturn

/-- Where a name is read, or where no scope waits, all scopes stand as the realms do. -/
theorem Situated.standing {c : Config} (hL : Describes L lines) (h : Situated lines L T c)
    (hline : lines[c.pc]? = some line) (hi : (∃ x, line.instruction = .pushVariable x) ∨
      ∃ s, L c.pc = some (.shaped s) ∧ s.waiting = []) :
    ∃ n us, T c.pc = some us ∧ Standing lines L T n us c.scopes.frames := by
  obtain ⟨l, us, hl, hus, hS⟩ := h
  cases l with
  | returned s =>
    obtain ⟨l', hl', hfits⟩ := hL.fits c.pc line hline
    rw [hl] at hl'
    cases hl'
    rcases hi with ⟨x, hi⟩ | ⟨_, hs, _⟩
    · rw [hi] at hfits
      cases hfits.1
    · rw [hl] at hs
      cases hs
  | shaped s =>
    change Amid lines L T us c.pc c.scopes s.waiting at hS
    cases hwaiting : s.waiting with
    | nil =>
      rw [hwaiting] at hS
      exact ⟨0, us, hus, hS⟩
    | cons cells rest =>
      rw [hwaiting] at hS
      rcases hi with ⟨x, hi⟩ | ⟨s', hs', hnil⟩
      · have hnone := Preparing.hides_nothing hS hline (fun p => by rw [hi]; exact ⟨nofun, nofun⟩)
          fun e => by rw [hi]; exact nofun
        exact ⟨_, us, hus, .waiting hS.back hnone hS.below⟩
      · rw [hl] at hs'
        cases hs'
        rw [hwaiting] at hnil
        cases hnil

end Runs

/-! ## Scopes of homes -/

/-- A scope is that of an activation of the routine at an address: it says to return to behind a call of it. -/
def Activates (lines : Array Line) (entry : Address) (f : Scope) : Prop :=
  ∃ a line, returnOf f = some (.address (a + 1)) ∧ lines[a]? = some line ∧ line.instruction = .call entry

/-- A scope belongs to a home, given the scopes below it. -/
def Owns (lines : Array Line) (f : Scope) (below : List Scope) : Home → Prop
  | .surroundings => below.length = 0
  | .script => below.length = 1
  | .routine entry => Activates lines entry f

/-- Of some scopes, the innermost one first, `f` is the first that belongs to a home, behind the newer ones and
before the older ones. -/
structure Latest (lines : Array Line) (home : Home) (frames newer : List Scope) (f : Scope) (older : List Scope) :
    Prop where
  split : frames = newer ++ f :: older
  owns : Owns lines f older home
  first : ∀ before g behind, newer = before ++ g :: behind → ¬ Owns lines g (behind ++ f :: older) home

/-- Each of some newer scopes binds, of the names that are bound below it, only names of the realm that it belongs
to. -/
def Hiding (lines : Array Line) (T : Address → Option (List Realm)) (newer older : List Scope) : Prop :=
  ∀ before g behind, newer = before ++ g :: behind → ∀ x, g.get? x ≠ none →
    (∃ u, Listed T u ∧ Owns lines g (behind ++ older) u.home ∧ x ∈ u.names) ∨ ∀ g' ∈ behind ++ older, g'.get? x = none

section Latest

variable {lines : Array Line} {L : Address → Option Layout} {T : Address → Option (List Realm)}
  {n : Nat} {us : List Realm} {u : Realm} {f g : Scope} {frames newer older below : List Scope} {home : Home}
  {x : String}

theorem Activates.unique {entry entry' : Address} (h : Activates lines entry f) (h' : Activates lines entry' f) :
    entry = entry' := by
  obtain ⟨a, line, hback, hline, hcall⟩ := h
  obtain ⟨a', line', hback', hline', hcall'⟩ := h'
  rw [hback] at hback'
  cases hback'
  rw [hline] at hline'
  cases hline'
  rw [hcall] at hcall'
  cases hcall'
  rfl

/-- Scopes below which there are others are of no home but a routine. -/
theorem not_owns_of_older (howns : Owns lines f older home)
    (hg : ∀ entry, home = .routine entry → ¬ Activates lines entry g) :
    ¬ Owns lines g (newer ++ f :: older) home := by
  intro hother
  cases home with
  | surroundings => simp [Owns] at hother
  | script =>
    simp only [Owns, List.length_append, List.length_cons] at howns hother
    omega
  | routine entry => exact hg entry rfl hother

theorem Latest.cons (h : Latest lines home below newer f older)
    (hg : ∀ entry, home = .routine entry → ¬ Activates lines entry g) :
    Latest lines home (g :: below) (g :: newer) f older := by
  refine ⟨congrArg (g :: ·) h.split, h.owns, ?_⟩
  intro before g' behind hsplit
  cases before with
  | nil =>
    obtain ⟨rfl, rfl⟩ := List.cons.inj hsplit
    exact not_owns_of_older h.owns hg
  | cons first before => exact h.first before g' behind (List.cons.inj hsplit).2

theorem Hiding.cons (h : Hiding lines T newer older) (hg : ∀ x, g.get? x ≠ none →
    (∃ u, Listed T u ∧ Owns lines g (newer ++ older) u.home ∧ x ∈ u.names) ∨ ∀ g' ∈ newer ++ older, g'.get? x = none) :
    Hiding lines T (g :: newer) older := by
  intro before g' behind hsplit
  cases before with
  | nil =>
    obtain ⟨rfl, rfl⟩ := List.cons.inj hsplit
    exact hg
  | cons first before => exact h before g' behind (List.cons.inj hsplit).2

theorem Latest.here (h : Owns lines f below home) : Latest lines home (f :: below) [] f below :=
  ⟨rfl, h, fun _ _ _ hsplit => by simp at hsplit⟩

theorem hiding_nil : Hiding lines T [] older := fun _ _ _ hsplit => by simp at hsplit

/-- Each of the realms around has a scope, and the newer scopes hide only names of their own realms from it. -/
theorem Standing.latest (h : Standing lines L T n us frames) (hu : u ∈ us) :
    ∃ newer f older, Latest lines u.home frames newer f older ∧ Hiding lines T newer (f :: older) := by
  induction h with
  | @script v w f shared hv hw hlisted _ hf =>
    have hscript : Owns lines f [shared] v.home := by rw [hv]; rfl
    rcases List.mem_cons.1 hu with rfl | hu
    · exact ⟨[], f, [shared], .here hscript, hiding_nil⟩
    · rw [List.mem_singleton.1 hu, hw]
      refine ⟨[f], shared, [], .cons (.here rfl) nofun, .cons hiding_nil fun x hx => ?_⟩
      exact (hf x hx).imp_left fun hname => ⟨v, hlisted, hscript, hname⟩
  | @routine v around us f below a entry line s hback hline hcall hv hlisted hf _ _ haround _ ih =>
    have hactive : Activates lines entry f := ⟨a, line, hback, hline, hcall⟩
    have howns : Owns lines f below v.home := by rw [hv]; exact hactive
    by_cases hhome : u.home = v.home
    · exact ⟨[], f, below, hhome ▸ .here howns, hiding_nil⟩
    · have hmem : u ∈ around := by
        rcases List.mem_cons.1 hu with rfl | hu
        · exact absurd rfl hhome
        · exact hu
      obtain ⟨newer, f', older, hlatest, hhiding⟩ := ih (haround.subset hmem)
      refine ⟨f :: newer, f', older, hlatest.cons ?_, hhiding.cons fun x hx => ?_⟩
      · rintro entry' hentry' hactive'
        exact hhome (by rw [hentry', hv, hactive.unique hactive'])
      · rw [← hlatest.split]
        exact (hf x hx).imp_left fun hname => ⟨v, hlisted, howns, hname⟩
  | @waiting n us f below hback hf _ ih =>
    obtain ⟨newer, f', older, hlatest, hhiding⟩ := ih hu
    refine ⟨f :: newer, f', older, hlatest.cons ?_, hhiding.cons fun x hx => ?_⟩
    · rintro entry _ ⟨a, line, hback', _⟩
      rw [hback] at hback'
      cases hback'
    · rw [← hlatest.split]
      exact (hf x hx).imp_left nofun

/-- What looking a name up finds, where the latest scope of a home binds it: that binding, or that of the first newer
scope that binds it too, whose own realm has the name. -/
def Finds (lines : Array Line) (T : Address → Option (List Realm)) (x : String) (S : Scopes) (newer : List Scope)
    (f : Scope) (older : List Scope) : Prop :=
  (∀ g ∈ newer, g.get? x = none) ∧ S.get? x = f.get? x ∨
    ∃ before g behind, newer = before ++ g :: behind ∧ (∀ g' ∈ before, g'.get? x = none) ∧
      S.get? x = g.get? x ∧ g.get? x ≠ none ∧
      ∃ u, Listed T u ∧ Owns lines g (behind ++ f :: older) u.home ∧ x ∈ u.names

theorem findSome?_append_of_bound (hnone : ∀ g ∈ newer, g.get? x = none) (hf : f.get? x ≠ none) :
    (newer ++ f :: older).findSome? (·.get? x) = f.get? x := by
  obtain ⟨b, hb⟩ := Option.ne_none_iff_exists'.1 hf
  rw [List.findSome?_append, List.findSome?_eq_none_iff.2 hnone, Option.none_or, List.findSome?_cons, hb]

theorem Hiding.finds {S : Scopes} (h : Hiding lines T newer (f :: older)) (hS : S.frames = newer ++ f :: older)
    (hf : f.get? x ≠ none) : Finds lines T x S newer f older := by
  unfold Finds Scopes.get?
  rw [hS]
  cases hfound : newer.findSome? (·.get? x) with
  | none =>
    have hnone := List.findSome?_eq_none_iff.1 hfound
    exact .inl ⟨hnone, findSome?_append_of_bound hnone hf⟩
  | some b =>
    obtain ⟨before, g, behind, rfl, hb, hbefore⟩ := List.findSome?_eq_some_iff.1 hfound
    have hg : g.get? x ≠ none := by rw [hb]; exact Option.some_ne_none b
    refine .inr ⟨before, g, behind, rfl, hbefore, ?_, hg, ?_⟩
    · rw [List.append_assoc, List.cons_append]
      exact findSome?_append_of_bound hbefore hg
    · rcases h before g behind rfl x hg with howns | hfree
      · exact howns
      · exact absurd (hfree f (List.mem_append_right _ List.mem_cons_self)) hf

/-- The scope inside of the outermost one is that of the script. -/
theorem latest_script (newer : List Scope) (f shared : Scope) :
    Latest lines .script (newer ++ [f, shared]) newer f [shared] :=
  ⟨rfl, rfl, fun _ _ _ _ => not_owns_of_older rfl nofun⟩

end Latest

end Machine

end MacroBasic
