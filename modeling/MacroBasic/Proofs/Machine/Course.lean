/-
The course of a run: its turns in order, each with the state before it and with what is asked in it. A machine takes
part in the life of its host only by asking and by reading the clock, so it makes no difference to a run whether the
host keeps a log of it, or in what kind of state it keeps what it knows. The turns of a run tell exactly what becomes
of the bindings of the outermost scope: each has the value of the last assignment that found no nearer binding.
-/
import MacroBasic.Proofs.Machine.Requests
import MacroBasic.Proofs.Machine.Slots
import MacroBasic.Proofs.Program.Sharing

namespace MacroBasic

/-! ## Machines with different hosts -/

/-- A relation between the actions of two monads that holds where nothing is done, and of actions that are done one
after the other if it holds of each of them. -/
structure Accord (m m' : Type → Type) [Monad m] [Monad m'] where
  Agrees : {α : Type} → m α → m' α → Prop
  pure : ∀ {α : Type} (a : α), Agrees (Pure.pure a) (Pure.pure a)
  bind : ∀ {α β : Type} {x : m α} {y : m' α} {f : α → m β} {g : α → m' β}, Agrees x y →
    (∀ a, Agrees (f a) (g a)) → Agrees (x >>= f) (y >>= g)

/-- Two hosts agree in all that they do. -/
structure Host.Agree {m m' : Type → Type} [Monad m] [Monad m'] (A : Accord m m') (host : Host m) (host' : Host m') :
    Prop where
  ask : ∀ r, A.Agrees (host.ask r) (host'.ask r)
  clock : A.Agrees host.clock host'.clock

namespace Machine

section Agree

variable {m m' : Type → Type} [Monad m] [Monad m'] {A : Accord m m'} {host : Host m} {host' : Host m'}

theorem execute_agrees (h : Host.Agree A host host') (ui : Bool) (i : Instruction) (M : Machine) :
    A.Agrees (execute host ui i M) (execute host' ui i M) := by
  unfold execute
  cases step ui M.pc i M.scopes with
  | error f s => exact A.pure _
  | ok next s =>
    cases next with
    | goto a => exact A.pure _
    | ask r resume => exact A.bind (h.ask r) fun _ => A.pure _

theorem checkTime_agrees (h : Host.Agree A host host') (timeout : Option Nat) (p : Position) (M : Machine) :
    A.Agrees (checkTime host timeout p M) (checkTime host' timeout p M) := by
  unfold checkTime
  cases timeout with
  | none => exact A.pure _
  | some ms =>
    refine A.bind h.clock fun now => ?_
    split
    · exact A.pure _
    · refine A.bind (h.ask .timeout) fun answer => ?_
      simp only
      split
      · exact A.bind h.clock fun _ => A.pure _
      · exact A.pure _

theorem turn_agrees (h : Host.Agree A host host') (options : Options) (line : Line) (M : Machine) :
    A.Agrees (turn host options line M) (turn host' options line M) := by
  unfold turn
  refine A.bind (execute_agrees h options.ui line.instruction M) fun o => ?_
  cases o with
  | error f M' => exact A.pure _
  | ok _ M' =>
    simp only
    split
    · exact A.pure _
    · exact checkTime_agrees h options.timeout line.position M'

/-- What a machine does depends on its host only through what the host does. -/
theorem run_agrees (h : Host.Agree A host host') (options : Options) (lines : Array Line) (fuel : Nat) (M : Machine) :
    A.Agrees (run host options lines fuel M) (run host' options lines fuel M) := by
  induction fuel generalizing M with
  | zero => exact A.pure _
  | succ fuel ih =>
    unfold run
    cases lines[M.pc]? with
    | none => exact A.pure _
    | some line =>
      refine A.bind (turn_agrees h options line M) fun o => ?_
      cases o with
      | error f M' => exact A.pure _
      | ok _ M' => exact ih M'

end Agree

end Machine

theorem Program.run_agrees {m m' : Type → Type} [Monad m] [Monad m'] {A : Accord m m'} {host : Host m}
    {host' : Host m'} (h : Host.Agree A host host') (p : Program) (fuel : Nat) :
    A.Agrees (p.run host fuel) (p.run host' fuel) := by
  unfold run
  split
  · exact A.pure _
  · cases p.error with
    | some f => exact A.pure _
    | none =>
      refine A.bind h.clock fun started => ?_
      exact A.bind (Machine.run_agrees h p.options p.lines fuel _) fun _ => A.pure _

/-! ## Hosts with a state of two parts -/

/-- The same host with both parts of its state together. -/
def Host.joined {σ τ : Type} (host : Host (StateT τ (StateM σ))) : Host (StateM (τ × σ)) where
  ask r := fun s => ((host.ask r s.1 s.2).1.1, (host.ask r s.1 s.2).1.2, (host.ask r s.1 s.2).2)
  clock := fun s => ((host.clock s.1 s.2).1.1, (host.clock s.1 s.2).1.2, (host.clock s.1 s.2).2)

/-- An action with both parts of the state together does the same. -/
def Accord.joining (σ τ : Type) : Accord (StateT τ (StateM σ)) (StateM (τ × σ)) where
  Agrees x y := ∀ t s, y (t, s) = ((x t s).1.1, (x t s).1.2, (x t s).2)
  pure _ := fun _ _ => rfl
  bind {_ _ x y f g} h h' := by
    intro t s
    rw [Machine.stateM_bind, h]
    exact h' _ _ _

theorem Host.agree_joined {σ τ : Type} (host : Host (StateT τ (StateM σ))) :
    Host.Agree (Accord.joining σ τ) host host.joined := ⟨fun _ _ _ => rfl, fun _ _ => rfl⟩

/-- An action with a log beside its state does the same. -/
def Accord.logging (σ : Type) : Accord (StateM σ) (StateM (σ × List Event)) where
  Agrees x y := ∀ s log, (y (s, log)).1 = (x s).1 ∧ (y (s, log)).2.1 = (x s).2
  pure _ := fun _ _ => ⟨rfl, rfl⟩
  bind {_ _ x y f g} h h' := by
    intro s log
    rw [Machine.stateM_bind, Machine.stateM_bind, (h s log).1, ← (h s log).2]
    exact h' _ _ _

theorem Host.agree_logged {σ : Type} (host : Host (StateM σ)) : Host.Agree (Accord.logging σ) host host.logged :=
  ⟨fun _ _ _ => ⟨rfl, rfl⟩, fun _ _ => ⟨rfl, rfl⟩⟩

theorem Host.Speaks.of_logged {σ : Type} {host : Host (StateM σ)} {s s' : σ × List Event} {events : List Event}
    (h : host.logged.Speaks s events s') : host.Speaks s.1 events s'.1 := by
  induction h with
  | silent => exact .silent _
  | answers r _ ih => exact .answers r ih
  | tells _ ih => exact .tells ih

/-! ## Turns -/

/-- A turn of a run. -/
structure Turn where
  /-- The state before it. -/
  machine : Machine
  instruction : Instruction
  /-- What is asked in it, with the answers. -/
  events : List Event

namespace Machine

/-- The turns of a run, in order. -/
def course {σ : Type} (host : Host (StateM σ)) (options : Options) (lines : Array Line) :
    Nat → Machine → σ → List Turn
  | 0, _, _ => []
  | fuel + 1, M, st =>
    match lines[M.pc]? with
    | none => []
    | some line =>
      match turn host.logged options line M (st, []) with
      | (.ok _ M', st', events) => ⟨M, line.instruction, events⟩ :: course host options lines fuel M' st'
      | (.error _ _, _, events) => [⟨M, line.instruction, events⟩]

section Turns

variable {σ : Type} {host : Host (StateM σ)} {options : Options} {line : Line} {lines : Array Line} {M : Machine}
  {st st' : σ} {o : Outcome}

/-- The log of a turn is what is said in it. -/
theorem turn_logged (h : turn host options line M st = (o, st')) :
    ∃ events, turn host.logged options line M (st, []) = (o, st', events) ∧ host.Speaks st events st' ∧
      Turned options line M events o := by
  obtain ⟨ho, hst⟩ := turn_agrees host.agree_logged options line M st []
  generalize hlogged : turn host.logged options line M (st, []) = x at ho hst
  obtain ⟨o', st₁, log⟩ := x
  rw [h] at ho hst
  obtain rfl : o' = o := ho
  obtain rfl : st₁ = st' := hst
  obtain ⟨events, hspeaks, hturned⟩ := turn_turned hlogged
  obtain rfl : log = events := hspeaks.logged
  exact ⟨log, rfl, hspeaks.of_logged, hturned⟩

end Turns

end Machine

/-! ## Gifts and offers -/

/-- The value in the last one of some pairs with a name. -/
def latest (pairs : List (String × Value)) (name : String) : Option Value := pairs.reverse.lookup name

theorem latest_append (l l' : List (String × Value)) (name : String) :
    latest (l ++ l') name = (latest l' name).or (latest l name) := by
  unfold latest
  rw [List.reverse_append, List.lookup_append]

theorem latest_singleton (name x : String) (v : Value) : latest [(name, v)] x = if x = name then some v else none := by
  by_cases h : x = name
  · rw [if_pos h, h]
    exact List.lookup_cons_self
  · rw [if_neg h]
    exact List.lookup_cons.trans (by rw [beq_eq_false_iff_ne.2 h]; rfl)

/-- The nearest binding of a name is that of the outermost scope. -/
def Scopes.Shares (S : Scopes) (name : String) : Prop :=
  (∀ f ∈ S.frames.dropLast, (f.get? name).isNone) ∧ (S.bottom.get? name).isSome

instance (S : Scopes) (name : String) : Decidable (S.Shares name) := inferInstanceAs (Decidable (_ ∧ _))

/-- What an instruction gives a binding of the outermost scope: the name and the value. -/
def Instruction.gift? (S : Scopes) : Instruction → Option (String × Value)
  | .assign name => if S.Shares name then S.items.head?.map (name, ·) else none
  | _ => none

/-- What a request offers the host: the name and the value. -/
def Request.offer? : Request → Option (String × Value)
  | .assign name v => some (name, v)
  | _ => none

/-- What some turns give the bindings of the outermost scope, in order. -/
def gifts (turns : List Turn) : List (String × Value) := turns.filterMap fun t => t.instruction.gift? t.machine.scopes

/-- What some turns offer the host, in order. -/
def offers (turns : List Turn) : List (String × Value) := (turns.flatMap Turn.events).filterMap (·.request.offer?)

theorem gifts_cons (t : Turn) (turns : List Turn) :
    gifts (t :: turns) = (t.instruction.gift? t.machine.scopes).toList ++ gifts turns := by
  unfold gifts
  rw [List.filterMap_cons]
  cases t.instruction.gift? t.machine.scopes with
  | none => rfl
  | some g => rfl

theorem offers_cons (t : Turn) (turns : List Turn) :
    offers (t :: turns) = t.events.filterMap (·.request.offer?) ++ offers turns := by
  unfold offers
  rw [List.flatMap_cons, List.filterMap_append]

/-- A binding with the last value that it is given. -/
def Binding.renewed (given : List (String × Value)) (b : Binding) : Binding :=
  { b with value := (latest given b.name).getD b.value }

theorem Binding.renewed_append (given given' : List (String × Value)) (b : Binding) :
    b.renewed (given ++ given') = (b.renewed given).renewed given' := by
  unfold renewed
  simp only [latest_append]
  cases latest given' b.name with
  | none => rfl
  | some v => rfl

theorem names_renewed (given : List (String × Value)) (l : List Binding) :
    (l.map (Binding.renewed given)).map Binding.name = l.map Binding.name := List.map_map

/-- Giving a name a value renews its binding and no other one, where the names are different. -/
theorem replace?_eq_renewed {name : String} {v : Value} : ∀ {l l' : List Binding}, (l.map Binding.name).Nodup →
    Scope.replace? name v l = some l' → l' = l.map (Binding.renewed [(name, v)])
  | [], _, _, h => nomatch h
  | first :: rest, l', hnodup, h => by
    rw [List.map_cons, List.nodup_cons] at hnodup
    have hsame {b : Binding} (hb : b.name ≠ name) : b.renewed [(name, v)] = b := by
      unfold Binding.renewed
      rw [latest_singleton, if_neg hb]
      rfl
    unfold Scope.replace? at h
    by_cases hfirst : first.name = name
    · rw [if_pos hfirst] at h
      cases h
      have hrest : rest.map (Binding.renewed [(name, v)]) = rest.map id := by
        refine List.map_congr_left fun b hb => hsame ?_
        rintro rfl
        exact hnodup.1 (hfirst ▸ List.mem_map_of_mem hb)
      rw [List.map_cons, hrest, List.map_id]
      unfold Binding.renewed
      rw [latest_singleton, if_pos hfirst]
      rfl
    · rw [if_neg hfirst] at h
      obtain ⟨rest', hrest, rfl⟩ := Option.map_eq_some_iff.1 h
      rw [List.map_cons, hsame hfirst, replace?_eq_renewed hnodup.2 hrest]

namespace Machine

section Turns

variable {i : Instruction} {pc pc' : Address} {S S' : Scopes} {name : String} {v : Value}

theorem gift?_eq_some (h : i.gift? S = some (name, v)) : i = .assign name ∧ S.Shares name ∧ S.items.head? = some v := by
  unfold Instruction.gift? at h
  split at h
  · split at h
    · rename_i hshares
      obtain ⟨w, hw, hpair⟩ := Option.map_eq_some_iff.1 h
      cases hpair
      exact ⟨rfl, hshares, hw⟩
    · cases h
  · cases h

/-- A value on the stack has no part in where a name is bound. -/
theorem shares_cons : (S.cons v).Shares name ↔ S.Shares name := by
  obtain ⟨top, below, depth, hdepth⟩ := S
  cases below with
  | nil => exact Iff.rfl
  | cons next rest =>
    simp only [Scopes.Shares, Scopes.frames, Scopes.cons, List.dropLast_cons_cons, List.forall_mem_cons]
    exact Iff.rfl

/-- The nearest binding of a shared name is the one of the outermost scope. -/
theorem get?_of_shares (h : S.Shares name) :
    ∃ b ∈ S.bottom.names, S.bottom.get? name = some b ∧ S.get? name = some b := by
  obtain ⟨b, hb⟩ := Option.isSome_iff_exists.1 h.2
  refine ⟨b, List.mem_of_find?_eq_some hb, hb, ?_⟩
  have hfree : S.frames.dropLast.findSome? (·.get? name) = none :=
    List.findSome?_eq_none_iff.2 fun f hf => Option.isNone_iff_eq_none.1 (h.1 f hf)
  rw [Scopes.get?, S.frames_eq, List.findSome?_append, hfree]
  simp [hb]

theorem bottom_of_getLast {above : List Scope} {f : Scope} (h : S.frames = above ++ [f]) : S.bottom = f := by
  have hlast := S.getLast?_frames
  rw [h, List.getLast?_concat] at hlast
  exact (Option.some.inj hlast).symm

/-- An instruction that gives a shared name a value gives it to its binding in the outermost scope. -/
theorem Effect.renews_gift (h : Effect i pc S pc' S') (hne : S.below ≠ [])
    (hnodup : (S.bottom.names.map Binding.name).Nodup) (hgift : i.gift? S = some (name, v)) :
    S'.bottom.names = S.bottom.names.map (Binding.renewed [(name, v)]) := by
  obtain ⟨rfl, hshares, hitems⟩ := gift?_eq_some hgift
  obtain ⟨rest, hitems⟩ := List.head?_eq_some_iff.1 hitems
  obtain ⟨S₁, rfl, -⟩ := S.exists_cons hitems
  rw [shares_cons] at hshares
  have hbottom : (S₁.cons v).bottom = S₁.bottom := Scopes.bottom_of_below rfl hne
  rw [hbottom] at hnodup ⊢
  obtain ⟨b, _, hb, hget⟩ := get?_of_shares hshares
  have hS' := h.given hget
  have hframes := Scopes.frames_assign? name v S₁
  rw [S₁.frames_eq, assignFirst?_append_of_free fun f hf => Option.isNone_iff_eq_none.1 (hshares.1 f hf),
    Scopes.assignFirst?] at hframes
  cases hassign : S₁.bottom.assign? name v with
  | none =>
    rw [Scope.get?_of_assign?_none hassign] at hb
    cases hb
  | some bottom' =>
    rw [hassign] at hframes
    obtain ⟨S₂, hS₂, hframes⟩ := Option.map_eq_some_iff.1 hframes
    rw [hS₂] at hS'
    obtain rfl : S' = S₂ := hS'
    obtain ⟨names, hnames, rfl⟩ := Option.map_eq_some_iff.1 hassign
    rw [bottom_of_getLast hframes]
    exact replace?_eq_renewed hnodup hnames

/-- What one instruction makes of the outermost scope, unless it faults. -/
theorem Effect.renews (h : Effect i pc S pc' S') (hne : S.below ≠ [])
    (hnodup : (S.bottom.names.map Binding.name).Nodup) :
    S'.bottom.names = S.bottom.names.map (Binding.renewed (i.gift? S).toList) := by
  cases hgift : i.gift? S with
  | some g => exact h.renews_gift hne hnodup hgift
  | none =>
    have habove : S.frames.dropLast ≠ [] := by
      obtain ⟨next, rest, hbelow⟩ := List.exists_cons_of_ne_nil hne
      rw [Scopes.frames, hbelow]
      exact List.cons_ne_nil _ _
    refine Eq.trans ?_ (List.map_id S.bottom.names).symm
    rcases h.older S.frames_eq habove with
      ⟨above', hS'⟩ | ⟨above', lower', name, v, S₁, rfl, rfl, hS₁, _, hlower, hfree⟩
    · rw [bottom_of_getLast hS']
    · -- the binding of the outermost scope would be the nearest one
      have hshares : (S₁.cons v).Shares name := by
        rw [shares_cons]
        constructor
        · intro f hf
          rw [hS₁, List.dropLast_concat] at hf
          rw [hfree f hf]
          rfl
        · rw [bottom_of_getLast hS₁]
          cases hget : (S₁.cons v).bottom.get? name with
          | some b => rfl
          | none =>
            rw [Scopes.assignFirst?, Scope.assign?_eq_none hget] at hlower
            cases hlower
      unfold Instruction.gift? at hgift
      simp only [if_pos hshares] at hgift
      cases hgift

/-- An instruction that faults gives no shared variable a value. -/
theorem gift?_of_fault {ui : Bool} {t : List Exchange} {f : Fault}
    (hkind : ∀ b ∈ S.bottom.names, b.kind ≠ .constant) (hne : S.below ≠ [])
    (h : (advance ui i ⟨pc, S⟩).Yields t (.error (f, S'))) : i.gift? S = none := by
  cases hgift : i.gift? S with
  | none => rfl
  | some g =>
    obtain ⟨rfl, hshares, hitems⟩ := gift?_eq_some hgift
    obtain ⟨rest, hitems⟩ := List.head?_eq_some_iff.1 hitems
    obtain ⟨S₁, rfl, -⟩ := S.exists_cons hitems
    rw [shares_cons] at hshares
    obtain ⟨b, hmem, _, hget⟩ := get?_of_shares hshares
    have hbottom : (S₁.cons g.2).bottom = S₁.bottom := Scopes.bottom_of_below rfl hne
    rw [hbottom] at hkind
    rw [advance_assign_bound _ _ _ _ hget, if_neg (hkind b hmem)] at h
    cases h

end Turns

section Runs

variable {σ : Type} {host : Host (StateM σ)} {options : Options} {lines : Array Line} {M₀ M : Machine} {st₀ st st' : σ}
  {calls : List Address} {L : Address → Option Layout} {line : Line} {o : Outcome} {fuel : Nat}

/-- What one turn makes of the outermost scope, whatever it comes to. -/
theorem turn_renews (hL : Describes L lines) (h : Laid L M.config calls) (hline : lines[M.pc]? = some line)
    (hturn : turn host options line M st = (o, st')) (hnodup : (M.scopes.bottom.names.map Binding.name).Nodup)
    (hkind : ∀ b ∈ M.scopes.bottom.names, b.kind ≠ .constant) :
    (leaves o).scopes.bottom.names =
      M.scopes.bottom.names.map (Binding.renewed (line.instruction.gift? M.scopes).toList) := by
  obtain ⟨events, _, hturned⟩ := turn_turned hturn
  have hoperands := (h.safe hL).operands line hline
  obtain ⟨asked, _, hyields | ⟨f, _, hyields⟩⟩ := hturned.advanced
  · exact (advance_effect hoperands hyields).renews h.below_ne_nil hnodup
  · obtain ⟨taken, htaken⟩ := advance_fault hoperands hyields
    have hbelow : (leaves o).scopes.below = M.scopes.below := by
      rw [show M.scopes = _ from htaken, Scopes.below_pushAll]
    have hgift : line.instruction.gift? M.scopes = none := gift?_of_fault hkind h.below_ne_nil hyields
    rw [Scopes.bottom_of_below hbelow h.below_ne_nil, hgift]
    exact (List.map_id _).symm

/-- A turn offers the host no name that is bound in the outermost scope. -/
theorem Reaches.turned_offers (hL : Describes L lines) (h₀ : Laid L M₀.config [])
    (h : Reaches host options lines M₀ st₀ M st calls) (hline : lines[M.pc]? = some line) {events : List Event}
    (hturned : Turned options line M events o) :
    ∀ x ∈ events.filterMap (·.request.offer?), x.1 ∉ M.scopes.bottom.names.map Binding.name := by
  intro x hx hmem
  obtain ⟨e, he, hoffer⟩ := List.mem_filterMap.1 hx
  have hname : e.request.name? = some x.1 := by
    unfold Request.offer? at hoffer
    split at hoffer
    · rename_i hrequest
      cases hoffer
      rw [hrequest]
      rfl
    · cases hoffer
  obtain ⟨_, hfree⟩ := (h.turned_asks hL h₀ hline hturned).1 e he x.1 hname
  have hbottom : M.scopes.bottom.get? x.1 = none := by
    refine List.findSome?_eq_none_iff.1 hfree M.scopes.bottom ?_
    rw [M.scopes.frames_eq]
    exact List.mem_append_right _ (List.mem_singleton_self _)
  obtain ⟨b, hb, hbname⟩ := List.mem_map.1 hmem
  exact List.find?_eq_none.1 hbottom b hb (by simpa using hbname)

/-- What a run says, what it makes of the outermost scope, and what it offers the host, turn by turn. -/
theorem run_course (hL : Describes L lines) (h₀ : Laid L M₀.config [])
    (h : Reaches host options lines M₀ st₀ M st calls) (hrun : run host options lines fuel M st = (some o, st'))
    (hnodup : (M.scopes.bottom.names.map Binding.name).Nodup)
    (hkind : ∀ b ∈ M.scopes.bottom.names, b.kind ≠ .constant) :
    host.Speaks st ((course host options lines fuel M st).flatMap Turn.events) st' ∧
      (leaves o).scopes.bottom.names =
        M.scopes.bottom.names.map (Binding.renewed (gifts (course host options lines fuel M st))) ∧
      ∀ x ∈ offers (course host options lines fuel M st), x.1 ∉ M.scopes.bottom.names.map Binding.name := by
  induction fuel generalizing M st calls with
  | zero => cases hrun
  | succ fuel ih =>
    unfold run at hrun
    unfold course
    cases hline : lines[M.pc]? with
    | none =>
      rw [hline] at hrun
      cases hrun
      exact ⟨.silent _, (List.map_id _).symm, fun _ hx => absurd hx List.not_mem_nil⟩
    | some line =>
      rw [hline] at hrun
      simp only at hrun ⊢
      rw [stateM_bind] at hrun
      generalize hturn : turn host options line M st = x at hrun
      obtain ⟨o₁, st₁⟩ := x
      obtain ⟨events, hlogged, hspeaks, hturned⟩ := turn_logged hturn
      have hrenews := turn_renews hL (h.laid hL h₀) hline hturn hnodup hkind
      have hoffers := h.turned_offers hL h₀ hline hturned
      rw [hlogged]
      cases o₁ with
      | error f M' =>
        cases hrun
        refine ⟨?_, ?_, ?_⟩
        · rw [List.flatMap_singleton]
          exact hspeaks
        · rw [gifts_cons]
          exact hrenews.trans (by rw [show gifts [] = [] from rfl, List.append_nil])
        · rw [offers_cons, show offers [] = [] from rfl, List.append_nil]
          exact hoffers
      | ok _ M' =>
        have hrenews : M'.scopes.bottom.names = _ := hrenews
        have hnames : M'.scopes.bottom.names.map Binding.name = M.scopes.bottom.names.map Binding.name := by
          rw [hrenews, names_renewed]
        obtain ⟨hsaid, hafter, hlater⟩ := ih (h.turn hline hturn) hrun (hnames ▸ hnodup) (by
          intro b hb
          rw [hrenews] at hb
          obtain ⟨b', hb', rfl⟩ := List.mem_map.1 hb
          exact hkind b' hb')
        simp only
        refine ⟨?_, ?_, ?_⟩
        · rw [List.flatMap_cons]
          exact hspeaks.append hsaid
        -- the names are renewed by the first turn and then by the later ones, so by the gifts of both
        · rw [hafter, hrenews, gifts_cons, List.map_map]
          exact List.map_congr_left fun b _ => (b.renewed_append _ _).symm
        · rw [offers_cons, List.forall_mem_append]
          exact ⟨hoffers, hnames ▸ hlater⟩

end Runs

end Machine

namespace Program

open Machine

/-- The turns of a run of a program. -/
def course {σ : Type} (host : Host (StateM σ)) (fuel : Nat) (st : σ) (p : Program) : List Turn :=
  Machine.course host p.options p.lines fuel (starting p.external host st) (host.clock st).2

/-- What a run of a compiled program says, what it makes of the shared variables, and what it offers the host. -/
theorem run_course {options : Options} {bindings : List (String × Value × Kind)} {source : String} {p after : Program}
    (hcompile : (sharing options bindings).compile source = (.ok (), p))
    (hnodup : (p.external.names.map Binding.name).Nodup) (hkind : ∀ b ∈ p.external.names, b.kind ≠ .constant)
    {σ : Type} {host : Host (StateM σ)} {fuel : Nat} {st st' : σ} {result : Except Fault Unit}
    (hrun : p.run host fuel st = (some (result, after), st')) :
    host.Speaks st ((p.course host fuel st).flatMap Turn.events) st' ∧
      after.external.names = p.external.names.map (Binding.renewed (gifts (p.course host fuel st))) ∧
      ∀ x ∈ offers (p.course host fuel st), x.1 ∉ p.external.names.map Binding.name := by
  obtain ⟨body, hscript, rfl⟩ := script_of_compile hcompile
  obtain ⟨o, hmachine, hfinish⟩ := outcome_of_run rfl rfl hrun
  have hL := describes_table hscript
  have hlaid : Laid body.table (starting (sharing options bindings).external host st).config [] :=
    ⟨_, hL.start, trivial, .script⟩
  obtain ⟨hspeaks, hrenewed, hoffers⟩ := Machine.run_course hL hlaid .start hmachine hnodup hkind
  refine ⟨.tells hspeaks, ?_, hoffers⟩
  have hafter := external_finish (ofScript options (sharing options bindings).external body) o
  rw [hfinish] at hafter
  rw [hafter]
  exact hrenewed

end Program

end MacroBasic
