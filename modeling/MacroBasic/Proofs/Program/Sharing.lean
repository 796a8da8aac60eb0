/-
Shared bindings. While a program runs, the bindings that it shares with the embedding program are the outermost of
its scopes, and no instruction ever binds a name there: names, kinds and order stay as they were, however the run
ends. A shared binding that is no constant changes when an assignment is executed that finds no nearer binding of
its name.
-/
import MacroBasic.Proofs.Machine.Turn
import MacroBasic.Proofs.Program.Safety

namespace MacroBasic

/-! ## The outermost scope -/

namespace Scopes

variable {S S' : Scopes}

theorem getLast?_frames (S : Scopes) : S.frames.getLast? = some S.bottom := by
  unfold frames bottom
  rw [List.getLast?_cons, List.getLastD_eq_getLast?]

theorem frames_eq (S : Scopes) : S.frames = S.frames.dropLast ++ [S.bottom] :=
  (List.dropLast_append_getLast? S.bottom S.getLast?_frames).symm

/-- Scopes inside of the same ones have the same outermost scope. -/
theorem bottom_of_below (h : S'.below = S.below) (hne : S.below ≠ []) : S'.bottom = S.bottom := by
  unfold bottom
  rw [h, List.getLastD_eq_getLast?, List.getLastD_eq_getLast?]
  cases hlast : S.below.getLast? with
  | none => exact absurd (List.getLast?_eq_none_iff.1 hlast) hne
  | some f => rfl

/-- Leaving a scope leaves the outermost one as it is. -/
theorem bottom_of_frames (h : S.below = S'.frames) : S'.bottom = S.bottom := by
  have hlast := S.getLast?_frames
  rw [frames, h, List.getLast?_cons, S'.getLast?_frames] at hlast
  exact Option.some.inj hlast

/-- A value on the stack has no part in what the inner scopes bind. -/
theorem inner_unbound_cons {name : String} (v : Value) (h : ∀ f ∈ S.frames.dropLast, f.get? name = none) :
    ∀ f ∈ (S.cons v).frames.dropLast, f.get? name = none := by
  unfold frames at h ⊢
  rw [below_cons]
  cases hbelow : S.below with
  | nil => simp
  | cons next rest =>
    rw [hbelow] at h
    simp only [List.dropLast_cons_cons, List.forall_mem_cons] at h ⊢
    exact h

/-- The nearest binding of a name is given a value: either the outermost scope stays as it is, or no other scope
binds the name. -/
theorem assignFirst?_bottom {name : String} {v : Value} {bottom : Scope} {frames' : List Scope} :
    ∀ {upper : List Scope}, assignFirst? name v (upper ++ [bottom]) = some frames' →
      (∃ upper', frames' = upper' ++ [bottom]) ∨
      (∀ f ∈ upper, f.get? name = none) ∧ ∃ bottom', bottom.assign? name v = some bottom' ∧
        frames' = upper ++ [bottom']
  | [], h => by
    rw [List.nil_append, assignFirst?] at h
    split at h
    · rename_i bottom' hbottom
      cases h
      refine .inr ⟨?_, bottom', hbottom, rfl⟩
      intro f hf
      cases hf
    · cases h
  | first :: upper, h => by
    rw [List.cons_append, assignFirst?] at h
    split at h
    · rename_i first' _
      cases h
      exact .inl ⟨first' :: upper, rfl⟩
    · rename_i hfirst
      obtain ⟨frames', hrest, rfl⟩ := Option.map_eq_some_iff.1 h
      rcases assignFirst?_bottom hrest with ⟨upper', rfl⟩ | ⟨hupper, bottom', hbottom, rfl⟩
      · exact .inl ⟨first :: upper', rfl⟩
      · refine .inr ⟨?_, bottom', hbottom, rfl⟩
        intro f hf
        rcases List.mem_cons.1 hf with rfl | hf
        · exact replace?_eq_none (Option.map_eq_none_iff.1 hfirst)
        · exact hupper f hf

end Scopes

/-! ## What becomes of a binding -/

/-- A binding is kept: it stays as it is, or it is no constant and has a value that it is given. -/
def Binding.Kept (given : String → Value → Prop) (b b' : Binding) : Prop :=
  b' = b ∨ b.kind ≠ .constant ∧ b' = { b with value := b'.value } ∧ given b.name b'.value

theorem Binding.Kept.trans {given : String → Value → Prop} {b b' b'' : Binding} (h : b.Kept given b')
    (h' : b'.Kept given b'') : b.Kept given b'' := by
  rcases h with rfl | ⟨hkind, hb', hgiven⟩
  · exact h'
  · rcases h' with rfl | ⟨_, hb'', hgiven'⟩
    · exact .inr ⟨hkind, hb', hgiven⟩
    · rw [hb'] at hb'' hgiven'
      exact .inr ⟨hkind, hb'', hgiven'⟩

theorem Binding.Kept.mono {given given' : String → Value → Prop} {b b' : Binding}
    (hgiven : ∀ name v, given name v → given' name v) (h : b.Kept given b') : b.Kept given' b' :=
  h.imp id fun h => ⟨h.1, h.2.1, hgiven _ _ h.2.2⟩

/-- A scope is kept: it has the same values without names, and its bindings are kept in their order. -/
def Scope.Kept (given : String → Value → Prop) (f f' : Scope) : Prop :=
  f'.stack = f.stack ∧ List.Forall₂ (Binding.Kept given) f.names f'.names

namespace Scope.Kept

variable {given : String → Value → Prop} {f f' f'' : Scope}

theorem refl (f : Scope) : f.Kept given f := ⟨rfl, List.forall₂_same.2 fun _ _ => .inl rfl⟩

theorem trans (h : f.Kept given f') (h' : f'.Kept given f'') : f.Kept given f'' :=
  ⟨h'.1.trans h.1, forall₂_trans (fun _ _ _ hb hb' => hb.trans hb') h.2 h'.2⟩

theorem mono {given' : String → Value → Prop} (hgiven : ∀ name v, given name v → given' name v)
    (h : f.Kept given f') : f.Kept given' f' := ⟨h.1, h.2.imp fun _ _ hb => hb.mono hgiven⟩

/-- What is kept has the same names of the same kinds in the same order. -/
theorem names_eq (h : f.Kept given f') :
    f'.names.map (fun b => (b.name, b.kind)) = f.names.map (fun b => (b.name, b.kind)) := by
  obtain ⟨_, h⟩ := h
  generalize f.names = names, f'.names = names' at h
  induction h with
  | nil => rfl
  | @cons b b' _ _ hb _ ih =>
    have hpair : (b'.name, b'.kind) = (b.name, b.kind) := by
      rcases hb with rfl | ⟨_, hb', _⟩
      · rfl
      · rw [hb']
    rw [List.map_cons, List.map_cons, ih, hpair]

/-- Giving a name a value keeps a scope where the name is that of no constant. -/
theorem assign? {name : String} {v : Value} (hkind : ∀ b, f.get? name = some b → b.kind ≠ .constant)
    (h : f.assign? name v = some f') : f.Kept (fun n w => n = name ∧ w = v) f' := by
  obtain ⟨names, hnames, rfl⟩ := Option.map_eq_some_iff.1 h
  refine ⟨rfl, (forall₂_replace? hnames).imp fun b b' hb => ?_⟩
  rcases hb with rfl | ⟨hfound, rfl⟩
  · exact .inl rfl
  · exact .inr ⟨hkind b hfound, rfl, by simpa using List.find?_some hfound, rfl⟩

end Scope.Kept

namespace Machine

/-! ## One instruction -/

/-- An instruction gives a shared name a value: it is an assignment to the name, the value is on top of the stack,
and no scope inside of the outermost one binds the name. -/
structure GivesShared (i : Instruction) (S : Scopes) (name : String) (v : Value) : Prop where
  assigns : i = .assign name
  value : S.items.head? = some v
  resolved : ∀ f ∈ S.frames.dropLast, f.get? name = none

theorem Effect.keeps_shared {i : Instruction} {pc pc' : Address} {S S' : Scopes} (h : Effect i pc S pc' S')
    (hne : S.below ≠ []) : S.bottom.Kept (GivesShared i S) S'.bottom := by
  have hsame (hbelow : S'.below = S.below) : S.bottom.Kept (GivesShared i S) S'.bottom := by
    rw [Scopes.bottom_of_below hbelow hne]
    exact .refl _
  cases h with
  | values base taken given _ _ _ _ hS hS' =>
    refine hsame ?_
    rw [hS, hS', Scopes.below_pushAll, Scopes.below_pushAll]
  | binds b _ _ hS' => exact hsame (by rw [hS']; rfl)
  | hands name v S₁ _ _ hS _ hS' => exact hsame (by rw [hS, hS']; rfl)
  | creates name v S₁ _ _ hS _ hS' => exact hsame (by rw [hS, hS']; rfl)
  -- a scope is put in front of the others or taken off, and the outermost one stays
  | enters _ _ _ hS' =>
    have hframes : S'.below = S.frames := by
      rw [hS']
      rfl
    rw [Scopes.bottom_of_frames hframes]
    exact .refl _
  | leaves _ _ hframes =>
    rw [Scopes.bottom_of_frames hframes]
    exact .refl _
  | gives name v S₁ b hi _ hS hb hk hS' =>
    have hbottom : S.bottom = S₁.bottom := Scopes.bottom_of_below (by rw [hS]; rfl) (by rw [hS] at hne; exact hne)
    cases hassign : S₁.assign? name v with
    | none =>
      rw [hassign] at hS'
      refine hsame ?_
      rw [hS, hS']
      rfl
    | some S₂ =>
      rw [hassign] at hS'
      obtain rfl : S' = S₂ := hS'
      have hframes := Scopes.assign?_frames hassign
      have hlast := S'.getLast?_frames
      rw [S₁.frames_eq] at hframes
      rw [hbottom]
      rcases Scopes.assignFirst?_bottom hframes with ⟨upper, hupper⟩ | ⟨hfree, bottom', hgiven, hupper⟩
      · rw [hupper, List.getLast?_concat] at hlast
        rw [← Option.some.inj hlast]
        exact .refl _
      · rw [hupper, List.getLast?_concat] at hlast
        rw [← Option.some.inj hlast]
        refine (Scope.Kept.assign? ?_ hgiven).mono ?_
        · -- the binding that the name has there is the nearest one
          intro b' hb'
          have hnearest : S₁.get? name = some b' := by
            rw [Scopes.get?, S₁.frames_eq, List.findSome?_append, List.findSome?_eq_none_iff.2 hfree]
            simp [hb']
          rw [hb] at hnearest
          cases hnearest
          exact hk
        · rintro n w ⟨rfl, rfl⟩
          refine ⟨hi, by rw [hS]; rfl, ?_⟩
          rw [hS]
          exact Scopes.inner_unbound_cons w hfree

/-! ## Runs -/

section Runs

variable {σ : Type} {host : Host (StateM σ)} {options : Options} {lines : Array Line} {M₀ M : Machine} {st₀ st st' : σ}
  {calls : List Address} {L : Address → Option Layout}

/-- Whatever a turn comes to, only its instruction can give a shared name a value. -/
theorem turn_keeps_shared {line : Line} {o : Outcome} (hL : Describes L lines) (h : Laid L M.config calls)
    (hline : lines[M.pc]? = some line) (hturn : turn host options line M st = (o, st')) :
    M.scopes.bottom.Kept (GivesShared line.instruction M.scopes) (leaves o).scopes.bottom := by
  obtain ⟨events, _, hturned⟩ := turn_turned hturn
  have hoperands := (h.safe hL).operands line hline
  obtain ⟨asked, _, hyields | ⟨f, _, hyields⟩⟩ := hturned.advanced
  · exact (advance_effect hoperands hyields).keeps_shared h.below_ne_nil
  · obtain ⟨taken, htaken⟩ := advance_fault hoperands hyields
    have hbelow : (leaves o).scopes.below = M.scopes.below := by
      rw [show M.scopes = _ from htaken, Scopes.below_pushAll]
    rw [Scopes.bottom_of_below hbelow h.below_ne_nil]
    exact .refl _

variable (host options lines M₀ st₀) in
/-- A run comes to an assignment that gives a shared name a value. -/
def RunGives (name : String) (v : Value) : Prop :=
  ∃ M st calls line, Reaches host options lines M₀ st₀ M st calls ∧ lines[M.pc]? = some line ∧
    GivesShared line.instruction M.scopes name v

/-- In every state that a run reaches the shared bindings are kept. -/
theorem Reaches.keeps_shared (hL : Describes L lines) (h₀ : Laid L M₀.config [])
    (h : Reaches host options lines M₀ st₀ M st calls) :
    M₀.scopes.bottom.Kept (RunGives host options lines M₀ st₀) M.scopes.bottom := by
  induction h with
  | start => exact .refl _
  | turn h hline hturn ih =>
    refine ih.trans ((turn_keeps_shared hL (h.laid hL h₀) hline hturn).mono ?_)
    intro name v hgives
    exact ⟨_, _, _, _, h, hline, hgives⟩

/-- However a run ends, the shared bindings are kept. -/
theorem run_keeps_shared {fuel : Nat} {o : Outcome} (hL : Describes L lines) (h₀ : Laid L M₀.config [])
    (hrun : run host options lines fuel M₀ st₀ = (some o, st')) :
    M₀.scopes.bottom.Kept (RunGives host options lines M₀ st₀) (leaves o).scopes.bottom := by
  obtain ⟨M, st, calls, hreaches, ⟨rfl, _⟩ | ⟨line, f, M', rfl, hline, hturn⟩⟩ := exists_reaches_of_run .start hrun
  · exact hreaches.keeps_shared hL h₀
  · refine (hreaches.keeps_shared hL h₀).trans ((turn_keeps_shared hL (hreaches.laid hL h₀) hline hturn).mono ?_)
    intro name v hgives
    exact ⟨_, _, _, _, hreaches, hline, hgives⟩

end Runs

end Machine

namespace Program

open Machine

theorem external_finish (p : Program) (o : Outcome) : (p.finish o).2.external = (leaves o).scopes.bottom := by
  cases o with
  | ok _ M => rfl
  | error f M => rfl

/-- A program with the instructions of a script keeps its shared bindings. -/
theorem kept_of_script {options : Options} {bindings : List (String × Value × Kind)} {source : String} {body : Block}
    (hscript : Grammar.script (.ofString source) options.explicit options.external
      (sharing options bindings).external = .ok body) {p : Program} (hlines : p.lines = (body.lines 0).toArray)
    {σ : Type} {host : Host (StateM σ)} {fuel : Nat} {st st' : σ} {o : Outcome}
    (hrun : Machine.run host p.options p.lines fuel (starting p.external host st) (host.clock st).2 = (some o, st')) :
    p.external.Kept (RunGives host p.options p.lines (starting p.external host st) (host.clock st).2)
      (p.finish o).2.external := by
  have hL := describes_table hscript
  rw [← hlines] at hL
  rw [external_finish]
  exact Machine.run_keeps_shared hL ⟨_, hL.start, trivial, .script⟩ hrun

/-- The shared bindings that a run of a compiled program gives back, or of a copy of it with other values, are those
that it was given: the same names of the same kinds in the same order, with the same values, but for bindings that
are no constants and whose value an assignment had on top of the stack that the run came to and that found no nearer
binding of the name. That holds however the run ends. -/
theorem run_keeps_external (options : Options) (bindings : List (String × Value × Kind)) (source : String)
    (compiled : Program) (hcompile : (sharing options bindings).compile source = (.ok (), compiled)) (p : Program)
    (hlines : p.lines = compiled.lines) (hstate : p.state = .idle) (herror : p.error = none) {σ : Type}
    (host : Host (StateM σ)) (fuel : Nat) (st st' : σ) (result : Except Fault Unit) (after : Program)
    (hrun : p.run host fuel st = (some (result, after), st')) :
    after.external.names.map (fun b => (b.name, b.kind)) = p.external.names.map (fun b => (b.name, b.kind)) ∧
    p.external.Kept (RunGives host p.options p.lines (starting p.external host st) (host.clock st).2)
      after.external := by
  obtain ⟨body, hscript, rfl⟩ := script_of_compile hcompile
  obtain ⟨o, hmachine, hfinish⟩ := outcome_of_run hstate herror hrun
  have hkept := kept_of_script hscript hlines hmachine
  rw [hfinish] at hkept
  exact ⟨hkept.names_eq, hkept⟩

/-- A run that gives a shared variable a value and then faults. -/
theorem run_keeps_external_fault :
    let bindings := [("x", .text "a", .variable), ("c", .text "b", .constant)]
    let source := "DIM y\nx = c\ny = x & y"
    let host : Host (StateM Unit) := .indifferent (pure 0)
    ∃ compiled f after, (sharing {} bindings).compile source = (.ok (), compiled) ∧
      (compiled.run host 20 ()).1 = some (.error f, after) ∧
      after.external.names.map (fun b => (b.name, b.kind)) = [("x", .variable), ("c", .constant)] := by
  intro bindings source host
  have hok : ((sharing {} bindings).compile source).1.isOk = true := by decide +kernel
  have hfault : ((((sharing {} bindings).compile source).2.run host 20 ()).1.map (·.1.isOk)) = some false := by
    decide +kernel
  obtain ⟨compiled, hcompile⟩ := compiled_of_isOk hok
  rw [hcompile] at hfault
  obtain ⟨f, after, st, hrun⟩ := faulted_of_isOk hfault
  refine ⟨compiled, f, after, hcompile, by rw [hrun], ?_⟩
  obtain ⟨body, _, hcompiled⟩ := script_of_compile hcompile
  have hkept := run_keeps_external {} bindings source compiled hcompile compiled rfl (by rw [hcompiled]; rfl)
    (by rw [hcompiled]; rfl) host 20 () st (.error f) after hrun
  rw [hkept.1, hcompiled]
  rfl

end Program

end MacroBasic
