/-
The frames of a run. Whatever instructions are run, be they those of a script or put together by hand, a turn enters a
new frame, leaves the innermost one, or works on the frames that there are. Frames stay within their limits and keep
their names apart, a constant changes only where its name is bound again in the innermost frame, the names that are
bound stand for values and not for routines, and the outermost frame is never left.
-/
import MacroBasic.Proofs.Machine.Operands
import Mathlib.Logic.Relation

namespace MacroBasic

/-! ## Operations from one state -/

namespace Work

variable {σ τ α β : Type} {R : σ → σ → Prop} {good : α → σ → Prop} {after : β → σ → Prop} {s : σ}

/-- From the state `s` an operation goes where `R` says, also where it faults, and what it gives is good in the state
that it leaves. -/
def Goes (R : σ → σ → Prop) (good : α → σ → Prop) (s : σ) (w : Work σ α) : Prop :=
  match w s with
  | .ok a s' => good a s' ∧ R s s'
  | .error _ s' => R s s'

theorem goes_pure (hR : ∀ s, R s s) {a : α} (h : good a s) : Goes R good s (pure a) := ⟨h, hR s⟩

theorem goes_throw (hR : ∀ s, R s s) (f : Fault) : Goes R good s (throw f : Work σ α) := hR s

theorem goes_ofExcept (hR : ∀ s, R s s) (x : Except Fault α) (h : ∀ a, good a s) : Goes R good s (ofExcept x) := by
  cases x with
  | ok a => exact ⟨h a, hR s⟩
  | error f => exact hR s

theorem Goes.bind (htrans : ∀ s s' s'', R s s' → R s' s'' → R s s'') {w : Work σ α} {k : α → Work σ β}
    (hw : Goes R good s w) (hk : ∀ a s', good a s' → Goes R after s' (k a)) : Goes R after s (w >>= k) := by
  unfold Goes at hw
  show match EStateM.bind w k s with
    | .ok b s'' => after b s'' ∧ R s s''
    | .error _ s'' => R s s''
  unfold EStateM.bind
  cases hr : w s with
  | error f s' =>
    rw [hr] at hw
    exact hw
  | ok a s' =>
    rw [hr] at hw
    have hrest := hk a s' hw.1
    unfold Goes at hrest
    show match k a s' with
      | .ok b s'' => after b s'' ∧ R s s''
      | .error _ s'' => R s s''
    cases hr' : k a s' with
    | ok b s'' =>
      rw [hr'] at hrest
      exact ⟨hrest.1, htrans _ _ _ hw.2 hrest.2⟩
    | error f s'' =>
      rw [hr'] at hrest
      exact htrans _ _ _ hw.2 hrest

theorem Goes.bind_pure {w : Work σ α} {f : α → β} (hw : Goes R good s w) (hf : ∀ a s', after (f a) s') :
    Goes R after s (w >>= fun a => pure (f a)) := by
  unfold Goes at hw
  show match EStateM.bind w (fun a => pure (f a)) s with
    | .ok b s'' => after b s'' ∧ R s s''
    | .error _ s'' => R s s''
  unfold EStateM.bind
  cases hr : w s with
  | ok a s' =>
    rw [hr] at hw
    exact ⟨hf a s', hw.2⟩
  | error f s' =>
    rw [hr] at hw
    exact hw

end Work

/-! ## Scopes within their limits -/

/-- A stack that is no larger than it may be, and names that are all different. -/
structure Scope.Tidy (f : Scope) : Prop where
  stack : f.stack.items.length ≤ Stack.limit
  names : (f.names.map Binding.name).Nodup

/-- Whatever frame is the innermost one, putting one value too many on its stack is reported in the same words. -/
def Scopes.Usual (S : Scopes) : Prop := ∀ f ∈ S.frames, f.stack.whenFull = "STACK OVERFLOW"

/-- At least one scope and no more than there may be, each within its limits. -/
structure Scopes.Tidy (S : Scopes) : Prop where
  nonempty : 1 ≤ S.frames.length
  bounded : S.frames.length ≤ Scopes.limit
  frames : ∀ f ∈ S.frames, f.Tidy

namespace Scope

variable {b : Binding} {names : List Binding} {f : Scope}

theorem names_put (b : Binding) (l : List Binding) : (put b l).map Binding.name =
    if b.name ∈ l.map Binding.name then l.map Binding.name else l.map Binding.name ++ [b.name] := by
  induction l with
  | nil => rfl
  | cons first rest ih =>
    unfold put
    by_cases hfirst : first.name = b.name
    · simp [hfirst]
    · rw [if_neg hfirst, List.map_cons, ih, List.map_cons]
      have hne : ¬ b.name = first.name := fun h => hfirst h.symm
      by_cases hrest : b.name ∈ rest.map Binding.name
      · rw [if_pos hrest, if_pos (List.mem_cons_of_mem _ hrest)]
      · rw [if_neg hrest, if_neg (by simp only [List.mem_cons, hne, hrest, or_self, not_false_eq_true]), List.cons_append]

/-- Names that are different stay so when one is bound. -/
theorem nodup_put (h : (names.map Binding.name).Nodup) : ((put b names).map Binding.name).Nodup := by
  rw [names_put]
  split
  · exact h
  · rename_i hfree
    rw [List.nodup_append]
    refine ⟨h, by simp, ?_⟩
    rintro n hn _ hm rfl
    rw [List.mem_singleton.1 hm] at hn
    exact hfree hn

theorem tidy_empty : Scope.empty.Tidy := ⟨Nat.zero_le _, List.nodup_nil⟩

theorem Tidy.allocate (h : f.Tidy) (b : Binding) : (f.allocate b).Tidy := ⟨h.stack, nodup_put h.names⟩

theorem Tidy.unbound (h : f.Tidy) : f.unbound.Tidy := by
  refine ⟨Nat.zero_le _, ?_⟩
  have hnames : f.unbound.names.map Binding.name = f.names.map Binding.name := by
    unfold Scope.unbound
    rw [List.map_map]
    rfl
  rw [hnames]
  exact h.names

theorem tidy_clear (f : Scope) : f.clear.Tidy := ⟨Nat.zero_le _, List.nodup_nil⟩

end Scope

/-! ## Bindings without addresses -/

/-- No binding of a scope is that of a routine with an address. -/
def Scope.Unaddressed (f : Scope) : Prop := ∀ b ∈ f.names, b.address = none

/-- Giving a name a value leaves everything about the bindings that has no part in their values. -/
theorem Scope.map_replace? {α : Type} {part : Binding → α} (hpart : ∀ b v, part { b with value := v } = part b)
    {name : String} {v : Value} {names names' : List Binding} (h : replace? name v names = some names') :
    names'.map part = names.map part := by
  induction names generalizing names' with
  | nil => cases h
  | cons first rest ih =>
    unfold replace? at h
    split at h
    · cases h
      rw [List.map_cons, List.map_cons, hpart]
    · obtain ⟨rest', hrest, rfl⟩ := Option.map_eq_some_iff.1 h
      rw [List.map_cons, List.map_cons, ih hrest]

namespace Scope.Unaddressed

variable {f f' : Scope} {b : Binding} {name : String} {v : Value}

theorem empty : Scope.empty.Unaddressed := fun _ hb => absurd hb List.not_mem_nil

theorem allocate (h : f.Unaddressed) (hb : b.address = none) : (f.allocate b).Unaddressed := by
  intro b' hb'
  rcases Scope.mem_put hb' with rfl | hb'
  · exact hb
  · exact h b' hb'

theorem unbound (h : f.Unaddressed) : f.unbound.Unaddressed := by
  intro b hb
  obtain ⟨b', hb', rfl⟩ := List.mem_map.1 hb
  exact h b' hb'

theorem assign? (h : f.Unaddressed) (hassign : f.assign? name v = some f') : f'.Unaddressed := by
  obtain ⟨names, hnames, rfl⟩ := Option.map_eq_some_iff.1 hassign
  have haddresses : names.map Binding.address = f.names.map Binding.address := map_replace? (fun _ _ => rfl) hnames
  intro b hb
  have hb := List.mem_map_of_mem (f := Binding.address) hb
  rw [haddresses] at hb
  obtain ⟨b', hb', hsame⟩ := List.mem_map.1 hb
  rw [← hsame]
  exact h b' hb'

end Scope.Unaddressed

/-! ## What becomes of a frame -/

theorem forall₂_mem_right {α β : Type} {R : α → β → Prop} {l : List α} {l' : List β} (h : List.Forall₂ R l l') :
    ∀ b ∈ l', ∃ a ∈ l, R a b := by
  induction h with
  | nil => nofun
  | cons hab _ ih =>
    refine List.forall_mem_cons.2 ⟨⟨_, List.mem_cons_self .., hab⟩, fun b hb => ?_⟩
    obtain ⟨a, ha, hab⟩ := ih b hb
    exact ⟨a, List.mem_cons_of_mem _ ha, hab⟩

/-- What a frame has become. Its names stay in their order, and others may be added behind them, none of them that of a
routine with an address. Its constants stay as they are, unless the name is one that may be bound `again`. A full stack
is reported as before. -/
structure Scope.Worked (again : String → Prop) (f f' : Scope) : Prop where
  names : f.names.map Binding.name <+: f'.names.map Binding.name
  constants : ∀ name b, ¬ again name → f.get? name = some b → b.kind = .constant → f'.get? name = some b
  unaddressed : f.Unaddressed → f'.Unaddressed
  tidy : f.Tidy → f'.Tidy
  report : f'.stack.whenFull = f.stack.whenFull

namespace Scope.Worked

variable {again again' : String → Prop} {f f' f'' : Scope}

theorem refl (f : Scope) : f.Worked again f := ⟨List.prefix_rfl, fun _ _ _ hb _ => hb, id, id, rfl⟩

theorem trans (h : f.Worked again f') (h' : f'.Worked again f'') : f.Worked again f'' where
  names := h.names.trans h'.names
  constants name b hname hb hk := h'.constants name b hname (h.constants name b hname hb hk) hk
  unaddressed hf := h'.unaddressed (h.unaddressed hf)
  tidy hf := h'.tidy (h.tidy hf)
  report := h'.report.trans h.report

theorem mono (h : f.Worked again f') (hagain : ∀ name, again name → again' name) : f.Worked again' f' where
  names := h.names
  constants name b hname := h.constants name b fun h => hname (hagain name h)
  unaddressed := h.unaddressed
  tidy := h.tidy
  report := h.report

theorem find?_of_similar {name : String} {b : Binding} {l l' : List Binding} (h : List.Forall₂ Binding.Similar l l')
    (hb : l.find? (·.name == name) = some b) (hk : b.kind = .constant) : l'.find? (·.name == name) = some b := by
  induction h with
  | nil => cases hb
  | @cons first first' _ _ hfirst _ ih =>
    rw [List.find?_cons] at hb ⊢
    rw [hfirst.name]
    split at hb
    · cases hb
      rw [hfirst.2 hk]
    · exact ih hb

/-- Where only variables are given values, nothing else happens to a frame. -/
theorem of_similar (h : f.Similar f') : f.Worked again f' := by
  have hnames : f'.names.map Binding.name = f.names.map Binding.name := by
    have hsame := h.2
    generalize f.names = l, f'.names = l' at hsame
    induction hsame with
    | nil => rfl
    | cons hb _ ih => rw [List.map_cons, List.map_cons, hb.name, ih]
  refine ⟨hnames ▸ List.prefix_rfl, fun name b _ hb hk => find?_of_similar h.2 hb hk, fun hf b' hb' => ?_,
    fun hf => ⟨?_, ?_⟩, congrArg Stack.whenFull h.1⟩
  · obtain ⟨b, hb, hsimilar⟩ := forall₂_mem_right h.2 b' hb'
    rw [hsimilar.1]
    exact hf b hb
  · rw [h.1]
    exact hf.stack
  · rw [hnames]
    exact hf.names

/-- A name is bound that may be bound again, or that was free. -/
theorem allocate {b : Binding} (h : again b.name ∨ f.get? b.name = none) (haddress : b.address = none) :
    f.Worked again (f.allocate b) := by
  refine ⟨?_, fun name b' hname hb' _ => ?_, fun hf => hf.allocate haddress, fun hf => hf.allocate b, rfl⟩
  · show _ <+: (Scope.put b f.names).map Binding.name
    rw [Scope.names_put]
    split
    · exact List.prefix_rfl
    · exact List.prefix_append _ _
  · rw [Scope.get?_allocate_of_ne ?_, hb']
    rintro rfl
    rcases h with h | h
    · exact hname h
    · rw [h] at hb'
      cases hb'

end Scope.Worked

/-- What the scopes have become while none has been entered or left: the innermost one has been worked on, and of the
others only variables may have been given values. -/
structure Scopes.Worked (again : String → Prop) (S S' : Scopes) : Prop where
  top : S.top.Worked again S'.top
  below : List.Forall₂ Scope.Similar S.below S'.below

namespace Scopes.Worked

variable {again : String → Prop} {S S' S'' : Scopes}

theorem refl (S : Scopes) : S.Worked again S := ⟨.refl _, forall₂_similar_refl _⟩

theorem trans (h : S.Worked again S') (h' : S'.Worked again S'') : S.Worked again S'' :=
  ⟨h.top.trans h'.top, forall₂_similar_trans h.below h'.below⟩

theorem of_similar (h : S.Similar S') : S.Worked again S' := ⟨.of_similar h.top, h.below⟩

theorem allocate {b : Binding} (h : again b.name ∨ S.top.get? b.name = none) (haddress : b.address = none) :
    S.Worked again (S.allocate b) := ⟨.allocate h haddress, forall₂_similar_refl _⟩

end Scopes.Worked

/-! ## Instructions -/

/-- An instruction binds a name in the innermost frame whether it is bound there or not. -/
def Instruction.Rebinds (i : Instruction) (name : String) : Prop :=
  match i with
  | .allocConst n _ | .allocVar n => name = n
  | .call _ => name = Machine.returnName
  | _ => False

namespace Machine

open Work

section Instructions

variable {α β : Type} {again : String → Prop} {S : Scopes} {good : α → Scopes → Prop} {after : β → Scopes → Prop}

/-- An operation works on the frames that there are. -/
abbrev Works (again : String → Prop) (good : α → Scopes → Prop) (S : Scopes) (w : Work Scopes α) : Prop :=
  w.Goes (Scopes.Worked again) good S

/-- Whatever the result, in whatever state. -/
abbrev Anything : α → Scopes → Prop := fun _ _ => True

/-- However the host replies, going on works on the frames that there are. -/
def Next.Works (again : String → Prop) (next : Next) (S : Scopes) : Prop :=
  match next with
  | .goto _ => True
  | .ask _ resume => ∀ reply, Machine.Works again Anything S (resume reply)

theorem works_pure {a : α} (h : good a S) : Works again good S (pure a) := goes_pure .refl h

theorem works_throw (f : Fault) : Works again good S (throw f : Work Scopes α) := goes_throw .refl f

theorem Works.bind {w : Work Scopes α} {k : α → Work Scopes β} (hw : Works again good S w)
    (hk : ∀ a S', good a S' → Works again after S' (k a)) : Works again after S (w >>= k) :=
  Goes.bind (fun _ _ _ => .trans) hw hk

theorem Works.bind_pure {w : Work Scopes α} {f : α → β} (hw : Works again good S w) (hf : ∀ a S', after (f a) S') :
    Works again after S (w >>= fun a => pure (f a)) := hw.bind fun a S' _ => works_pure (hf a S')

theorem works_get : Works again (fun S₁ S₂ => S₁ = S₂) S get := ⟨rfl, .refl S⟩

/-- An operation leaves a stack of values no larger than it may be, and its report as it is. -/
abbrev Fits (stack : Stack Value) (w : Work (Stack Value) α) : Prop :=
  w.Goes (fun s s' => (s.items.length ≤ Stack.limit → s'.items.length ≤ Stack.limit) ∧ s'.whenFull = s.whenFull)
    (fun _ _ => True) stack

/-- An operation on the values of the innermost frame. -/
theorem works_values {w : Work (Stack Value) α} (hw : Fits S.top.stack w) :
    Works again Anything S (Scopes.values w) := by
  have hstack : ∀ stack, (S.top.stack.items.length ≤ Stack.limit → stack.items.length ≤ Stack.limit) ∧
      stack.whenFull = S.top.stack.whenFull → S.Worked again { S with top := { S.top with stack := stack } } := by
    rintro stack ⟨hsize, hreport⟩
    refine ⟨⟨List.prefix_rfl, fun _ _ _ hb _ => hb, id, fun htop => ⟨hsize htop.stack, htop.names⟩, hreport⟩, ?_⟩
    exact forall₂_similar_refl _
  unfold Fits Goes at hw
  unfold Works Goes Scopes.values Scope.values Work.within
  cases hr : w S.top.stack with
  | ok a stack =>
    rw [hr] at hw
    exact ⟨trivial, hstack stack hw.2⟩
  | error f stack =>
    rw [hr] at hw
    exact hstack stack hw

theorem fits_pop (stack : Stack Value) : Fits stack Stack.pop := by
  obtain ⟨items, size, size_eq, whenFull⟩ := stack
  cases items with
  | nil => exact ⟨id, rfl⟩
  | cons v items => exact ⟨trivial, Nat.le_of_succ_le, rfl⟩

theorem works_push (v : Value) : Works again Anything S (Scopes.push v) := by
  refine works_values ?_
  generalize S.top.stack = stack
  unfold Fits Goes Stack.push
  by_cases hfull : Stack.limit ≤ stack.size
  · rw [if_pos hfull]
    exact ⟨id, rfl⟩
  -- the size that is kept beside the values is their number
  · rw [if_neg hfull]
    rw [stack.size_eq] at hfull
    exact ⟨trivial, fun _ => Nat.lt_of_not_le hfull, rfl⟩

theorem works_pop : Works again Anything S Scopes.pop := works_values (fits_pop _)

theorem works_pop2 : Works again Anything S Scopes.pop2 :=
  works_values ((fits_pop _).bind (fun _ _ _ h h' => ⟨fun hs => h'.1 (h.1 hs), h'.2.trans h.2⟩) fun _ stack _ =>
    (fits_pop stack).bind_pure fun _ _ => trivial)

theorem works_peek (depth : Nat) : Works again Anything S (Scopes.peek depth) := by
  refine works_values ?_
  unfold Fits Goes Stack.peek
  cases S.top.stack.items[depth]? with
  | some v => exact ⟨trivial, id, rfl⟩
  | none => exact ⟨id, rfl⟩

theorem works_calculate (role : String) (i : Instruction) (x : Except Fault α) :
    Works again Anything S (calculate role i x) := goes_ofExcept .refl _ fun _ => trivial

theorem works_hostInteger (i : Instruction) (v : Value) : Works again Anything S (hostInteger i v) :=
  (works_calculate "host" i _).bind_pure fun _ _ => trivial

theorem works_popCondition (i : Instruction) : Works again Anything S (popCondition i) :=
  works_pop.bind fun _ _ _ => works_calculate "jump" i _

theorem works_requireUi (ui : Bool) (i : Instruction) : Works again Anything S (requireUi ui i) := by
  unfold requireUi
  split
  · exact works_pure trivial
  · exact works_throw _

theorem works_allocate {b : Binding} (h : again b.name ∨ S.top.get? b.name = none) (haddress : b.address = none) :
    Works again Anything S (modify (·.allocate b)) := ⟨trivial, .allocate h haddress⟩

/-- The nearest binding of a name is given a value, unless it is a constant. -/
theorem works_assignBound {name : String} {b : Binding} (hb : S.get? name = some b) (v : Value) :
    Works again Anything S (assignBound b v) := by
  obtain rfl := Scopes.name_of_get? hb
  unfold assignBound
  by_cases hk : b.kind = .constant
  · rw [if_pos hk]
    exact Scopes.Worked.refl S
  · rw [if_neg hk]
    exact ⟨trivial, .of_similar (Scopes.similar_assign? hb hk)⟩

theorem openDialog_works (ui : Bool) (i : Instruction) (next : Address) (d : Dialog) :
    Works again (Next.Works again) S (openDialog ui i next d) := by
  cases d with
  | message =>
    refine works_pop.bind fun text _ _ => works_pop.bind fun kind _ _ => ?_
    refine (works_hostInteger i kind).bind fun kind _ _ => works_pure ?_
    exact fun _ => works_pure trivial
  | msgBox =>
    refine (works_requireUi ui i).bind fun _ _ _ => works_pop.bind fun title _ _ => ?_
    refine works_pop.bind fun buttons _ _ => works_pop.bind fun prompt _ _ => ?_
    refine (works_hostInteger i buttons).bind fun buttons _ _ => works_pure ?_
    exact fun button => (works_push _).bind_pure fun _ _ => trivial
  | inputBox =>
    refine (works_requireUi ui i).bind fun _ _ _ => works_pop.bind fun initial _ _ => ?_
    refine works_pop.bind fun title _ _ => works_pop.bind fun prompt _ _ => works_pure ?_
    exact fun text => (works_push _).bind_pure fun _ _ => trivial

/-- An instruction that neither enters nor leaves a frame works on those that there are. -/
theorem step_works (ui : Bool) (pc : Address) {i : Instruction} (hpush : i ≠ .pushScope) (hpop : i ≠ .popScope) :
    Works i.Rebinds (Next.Works i.Rebinds) S (step ui pc i) := by
  cases i with
  | allocConst name v => exact Works.bind_pure (works_allocate (.inl rfl) rfl) fun _ _ => trivial
  | allocVar name => exact Works.bind_pure (works_allocate (.inl rfl) rfl) fun _ _ => trivial
  | call a => exact Works.bind_pure (works_allocate (.inl rfl) rfl) fun _ _ => trivial
  | pushValue v => exact (works_push v).bind_pure fun _ _ => trivial
  | pushVariable name =>
    refine works_get.bind fun S₁ _ _ => ?_
    split
    · split
      · exact Scopes.Worked.refl _
      · exact (works_push _).bind_pure fun _ _ => trivial
    -- a name that is bound in no frame is asked of the host
    · refine works_pure fun reply => ?_
      cases (reply : Option Value) with
      | some v => exact (works_push v).bind_pure fun _ _ => trivial
      | none => exact works_throw _
  | pop => exact works_pop.bind_pure fun _ _ => trivial
  | copy depth => exact (works_peek depth).bind fun v _ _ => (works_push v).bind_pure fun _ _ => trivial
  | assign name =>
    refine works_pop.bind fun v _ _ => works_get.bind fun S₁ _ hS₁ => ?_
    subst hS₁
    split
    · rename_i b hb
      exact (works_assignBound hb v).bind_pure fun _ _ => trivial
    · rename_i hfree
      refine works_pure fun taken => ?_
      cases (taken : Bool) with
      | true => exact works_pure trivial
      -- a name that the host does not take over is bound in no frame, so none of its bindings is lost
      | false =>
        have htop : S₁.top.get? name = none := List.findSome?_eq_none_iff.1 hfree _ (List.mem_cons_self ..)
        exact (works_allocate (.inr htop) rfl).bind_pure fun _ _ => trivial
  | binary op =>
    refine works_pop2.bind fun operands _ _ => (works_calculate _ _ _).bind fun v _ _ => ?_
    exact (works_push v).bind_pure fun _ _ => trivial
  | unary op =>
    refine works_pop.bind fun v _ _ => (works_calculate _ _ _).bind fun v _ _ => ?_
    exact (works_push v).bind_pure fun _ _ => trivial
  | print => exact works_pop.bind fun v _ _ => works_pure fun _ => works_pure trivial
  | notify n => exact works_pure fun _ => works_pure trivial
  | dialog d => exact openDialog_works ui _ _ d
  | jump a => exact works_pure trivial
  | jumpTrue a | jumpFalse a => exact (works_popCondition _).bind_pure fun _ _ => trivial
  | jumpPop =>
    refine works_pop.bind fun v _ _ => ?_
    split
    · exact works_pure trivial
    · exact works_throw _
  | pushScope => exact absurd rfl hpush
  | popScope => exact absurd rfl hpop
  | ret =>
    refine works_get.bind fun S₁ _ _ => ?_
    split
    · exact works_pure trivial
    · exact works_throw _

end Instructions

end Machine

/-! ## Turns -/

/-- What an instruction can do to the frames: it works on those that there are, enters one that is empty, or leaves the
innermost one of several. -/
inductive Scopes.Moves (i : Instruction) (S S' : Scopes) : Prop
  | works (h : S.Worked i.Rebinds S')
  | enters (hi : i = .pushScope) (hroom : S.frames.length < Scopes.limit) (hframes : S'.frames = .empty :: S.frames)
  | leaves (hi : i = .popScope) (hframes : S.frames = S.top :: S'.frames)

namespace Machine

open Work

theorem pushScope_moves (S : Scopes) : Goes (Scopes.Moves .pushScope) Anything S Scopes.pushScope := by
  unfold Goes Scopes.pushScope
  by_cases hfull : Scopes.limit ≤ S.depth
  · rw [if_pos hfull]
    exact .works (.refl S)
  · rw [if_neg hfull]
    rw [S.depth_eq] at hfull
    exact ⟨trivial, .enters rfl (Nat.lt_of_not_le hfull) rfl⟩

theorem popScope_moves (S : Scopes) : Goes (Scopes.Moves .popScope) Anything S Scopes.popScope := by
  obtain ⟨top, below, depth, depth_eq⟩ := S
  cases below with
  -- the only frame is not left
  | nil => exact Scopes.Moves.works (.refl _)
  | cons next rest => exact ⟨trivial, .leaves rfl rfl⟩

/-- Where an instruction asks nothing, going where it goes is all that it does. -/
theorem assures_of_goes {ui : Bool} {i : Instruction} {c : Config} (h : Goes (Scopes.Moves i)
    (fun next _ => ∃ a, next = Next.goto a) c.scopes (step ui c.pc i)) :
    (advance ui i c).Assures (fun _ => True) (fun _ => True) (fun c' => c.scopes.Moves i c'.scopes)
      (fun e => c.scopes.Moves i e.2) := by
  unfold Goes at h
  unfold advance
  cases hs : step ui c.pc i c.scopes with
  | error f S =>
    rw [hs] at h
    exact Talk.assures_fail h
  | ok next S =>
    rw [hs] at h
    obtain ⟨⟨a, rfl⟩, hS⟩ := h
    exact Talk.assures_done hS

/-- Whatever is replied, an instruction works on the frames that there are, enters one or leaves one. -/
theorem advance_moves (ui : Bool) (i : Instruction) (c : Config) :
    (advance ui i c).Assures (fun _ => True) (fun _ => True) (fun c' => c.scopes.Moves i c'.scopes)
      (fun e => c.scopes.Moves i e.2) := by
  by_cases hpush : i = .pushScope
  · subst hpush
    exact assures_of_goes ((pushScope_moves c.scopes).bind_pure fun _ _ => ⟨_, rfl⟩)
  · by_cases hpop : i = .popScope
    · subst hpop
      exact assures_of_goes ((popScope_moves c.scopes).bind_pure fun _ _ => ⟨_, rfl⟩)
    · have hstep := step_works (S := c.scopes) ui c.pc hpush hpop
      unfold Works Goes at hstep
      unfold advance
      cases hs : step ui c.pc i c.scopes with
      | error f S =>
        rw [hs] at hstep
        exact Talk.assures_fail (.works hstep)
      | ok next S =>
        rw [hs] at hstep
        obtain ⟨hnext, hS⟩ := hstep
        cases next with
        | goto a => exact Talk.assures_done (.works hS)
        | ask r resume =>
          refine Talk.assures_ask trivial fun reply _ => ?_
          have hresume := hnext reply
          unfold Works Goes at hresume
          cases hr : resume reply S with
          | ok a S' =>
            rw [hr] at hresume
            exact Talk.assures_done (.works (hS.trans hresume.2))
          | error f S' =>
            rw [hr] at hresume
            exact Talk.assures_fail (.works (hS.trans hresume))

section Turns

variable {σ : Type} {host : Host (StateM σ)} {options : Options} {lines : Array Line} {M : Machine} {st st' : σ}
  {line : Line} {o : Outcome}

/-- However a turn comes out, it works on the frames that there are, enters one or leaves one. -/
theorem turn_moves (h : turn host options line M st = (o, st')) :
    M.scopes.Moves line.instruction (leaves o).scopes := by
  obtain ⟨events, _, hturned⟩ := turn_turned h
  have hassures := advance_moves options.ui line.instruction M.config
  obtain ⟨asked, _, hyields | ⟨f, _, hyields⟩⟩ := hturned.advanced
  · exact (hassures _ _ (fun _ _ => trivial) hyields).2.1 _ rfl
  · exact (hassures _ _ (fun _ _ => trivial) hyields).2.2 _ rfl

end Turns

end Machine

/-! ## One move -/

/-- The frame `k` places above the outermost one. -/
def Scopes.frame? (k : Nat) (S : Scopes) : Option Scope := S.frames.reverse[k]?

/-- The binding of a name in that frame. -/
def Scopes.binding? (k : Nat) (name : String) (S : Scopes) : Option Binding := (S.frame? k).bind (·.get? name)

theorem Scopes.frame?_lt {k : Nat} {S : Scopes} {f : Scope} (h : S.frame? k = some f) : k < S.frames.length := by
  obtain ⟨hk, _⟩ := List.getElem?_eq_some_iff.1 h
  simpa using hk

theorem Scopes.exists_frame? {k : Nat} {S : Scopes} (h : k < S.frames.length) : ∃ f, S.frame? k = some f :=
  ⟨_, List.getElem?_eq_getElem (by simpa using h)⟩

theorem Scopes.frame?_zero (S : Scopes) : S.frame? 0 = some S.bottom := by
  unfold frame? frames bottom
  rw [← List.head?_eq_getElem?, List.head?_reverse, List.getLast?_cons, List.getLastD_eq_getLast?]

/-- Nothing happens to a frame when others are put inside of it. -/
theorem Scopes.frame?_of_cons {k : Nat} {S S' : Scopes} {g : Scope} (h : S'.frames = g :: S.frames)
    (hk : k < S.frames.length) : S'.frame? k = S.frame? k := by
  unfold frame?
  rw [h, List.reverse_cons, List.getElem?_append_left (by simpa using hk)]

/-- The frames around the innermost one. -/
theorem Scopes.frame?_of_below {k : Nat} {S : Scopes} {f : Scope} (h : S.below.reverse[k]? = some f) :
    S.frame? k = some f := by
  unfold frame? frames
  rw [List.reverse_cons, List.getElem?_append_left (List.getElem?_eq_some_iff.1 h).1, h]

/-- A frame with none around it that is as far out is the innermost one. -/
theorem Scopes.top_of_frame? {k : Nat} {S : Scopes} {f : Scope} (hf : S.frame? k = some f)
    (h : S.below.reverse[k]? = none) : S.frames.length = k + 1 ∧ S.top = f := by
  unfold frame? frames at hf
  rw [List.getElem?_eq_none_iff, List.length_reverse] at h
  rw [List.reverse_cons, List.getElem?_append_right (by simpa using h), List.getElem?_singleton] at hf
  split at hf
  · rename_i hk
    rw [List.length_reverse] at hk
    exact ⟨congrArg (· + 1) (Nat.le_antisymm h (Nat.sub_eq_zero_iff_le.1 hk)), Option.some.inj hf⟩
  · cases hf

theorem forall₂_getElem? {α β : Type} {R : α → β → Prop} {l : List α} {l' : List β} (h : List.Forall₂ R l l') (k : Nat) :
    (∃ a b, l[k]? = some a ∧ l'[k]? = some b ∧ R a b) ∨ l[k]? = none ∧ l'[k]? = none := by
  induction h generalizing k with
  | nil => exact .inr ⟨rfl, rfl⟩
  | cons hab _ ih =>
    cases k with
    | zero => exact .inl ⟨_, _, rfl, rfl, hab⟩
    | succ k => exact ih k

namespace Scopes.Moves

variable {i : Instruction} {S S' : Scopes} {k : Nat} {f f' : Scope}

/-- What is true of an empty frame and stays true of one that is worked on is true of all frames after a move if it was
before. -/
theorem forall_frames {P : Scope → Prop} (hempty : P .empty)
    (hkeeps : ∀ {again f f'}, Scope.Worked again f f' → P f → P f') (h : S.Moves i S') (hS : ∀ f ∈ S.frames, P f) :
    ∀ f ∈ S'.frames, P f := by
  cases h with
  | works h =>
    obtain ⟨htop, hbelow⟩ := List.forall_mem_cons.1 hS
    refine List.forall_mem_cons.2 ⟨hkeeps h.top htop, fun f' hf' => ?_⟩
    obtain ⟨f, hf, hsimilar⟩ := forall₂_mem_right h.below f' hf'
    have hworked : f.Worked (fun _ => False) f' := .of_similar hsimilar
    exact hkeeps hworked (hbelow f hf)
  | enters _ _ hframes =>
    rw [hframes]
    exact List.forall_mem_cons.2 ⟨hempty, hS⟩
  | leaves _ hframes =>
    rw [hframes] at hS
    exact (List.forall_mem_cons.1 hS).2

theorem length_le (h : S.Moves i S') (hS : S.frames.length ≤ Scopes.limit) : S'.frames.length ≤ Scopes.limit := by
  cases h with
  | works h =>
    have hlength : S'.frames.length = S.frames.length := congrArg (· + 1) h.below.length_eq.symm
    rwa [hlength]
  | enters _ hroom hframes =>
    rw [hframes]
    exact hroom
  | leaves _ hframes =>
    rw [hframes] at hS
    exact Nat.le_of_succ_le hS

/-- Moves stay within the limits. -/
theorem tidy (h : S.Moves i S') (hS : S.Tidy) : S'.Tidy where
  nonempty := Nat.succ_pos _
  bounded := h.length_le hS.bounded
  frames := h.forall_frames Scope.tidy_empty (fun hworked => hworked.tidy) hS.frames

/-- Full stacks are reported as before, and that of a new frame in the usual words. -/
theorem usual (h : S.Moves i S') (hS : S.Usual) : S'.Usual :=
  h.forall_frames rfl (fun hworked hf => hworked.report.trans hf) hS

/-- A frame that is not left is worked on, and names are bound in it again only while it is the innermost one. -/
theorem frame (h : S.Moves i S') (hf : S.frame? k = some f) (hf' : S'.frame? k = some f') :
    f.Worked (fun name => i.Rebinds name ∧ S.frames.length = k + 1) f' := by
  cases h with
  | works h =>
    -- from outside, the frames around the innermost one come first
    rcases forall₂_getElem? (List.rel_reverse h.below) k with ⟨g, g', hg, hg', hsimilar⟩ | ⟨hg, hg'⟩
    · rw [frame?_of_below hg] at hf
      rw [frame?_of_below hg'] at hf'
      cases hf
      cases hf'
      exact .of_similar hsimilar
    -- the innermost frame
    · obtain ⟨hlength, rfl⟩ := top_of_frame? hf hg
      obtain ⟨_, rfl⟩ := top_of_frame? hf' hg'
      exact h.top.mono fun _ hname => ⟨hname, hlength⟩
  | enters _ _ hframes =>
    rw [frame?_of_cons hframes (frame?_lt hf), hf] at hf'
    cases hf'
    exact .refl f
  | leaves _ hframes =>
    rw [frame?_of_cons hframes (frame?_lt hf'), hf'] at hf
    cases hf
    exact .refl f

/-- A constant of a frame that is not left stays as it is, unless its name is bound again while the frame is the
innermost one. -/
theorem constant {name : String} {b : Binding} (h : S.Moves i S') (hk : k < S'.frames.length)
    (hb : S.binding? k name = some b) (hconst : b.kind = .constant)
    (hname : ¬ (i.Rebinds name ∧ S.frames.length = k + 1)) : S'.binding? k name = some b := by
  obtain ⟨f, hf, hb⟩ := Option.bind_eq_some_iff.1 hb
  obtain ⟨f', hf'⟩ := exists_frame? hk
  exact Option.bind_eq_some_iff.2 ⟨f', hf', (h.frame hf hf').constants name b hname hb hconst⟩

end Scopes.Moves

/-! ## Runs -/

namespace Machine

section Runs

variable {σ : Type} (host : Host (StateM σ)) (options : Options) (lines : Array Line)

/-- A state has come to a line, and the turn of the line leads to another state, also where it faults. A run ends with
its first fault, so the turns of a run are some of these. -/
def Turns (line : Line) (x y : Machine × σ) : Prop :=
  lines[x.1.pc]? = some line ∧ ∃ o, turn host options line x.1 x.2 = (o, y.2) ∧ y.1 = leaves o

/-- Turn by turn, one state leads to another. -/
abbrev Visits : Machine × σ → Machine × σ → Prop :=
  Relation.ReflTransGen fun x y => ∃ line, Turns host options lines line x y

/-- Turn by turn, one state leads to another, and the frame `k` places above the outermost one is not left. -/
abbrev Lasts (k : Nat) : Machine × σ → Machine × σ → Prop :=
  Relation.ReflTransGen fun x y => (∃ line, Turns host options lines line x y) ∧ k < y.1.scopes.frames.length

end Runs

section Runs

variable {σ : Type} {host : Host (StateM σ)} {options : Options} {lines : Array Line} {line : Line} {k : Nat}
  {x y : Machine × σ}

theorem Turns.moves (h : Turns host options lines line x y) : x.1.scopes.Moves line.instruction y.1.scopes := by
  obtain ⟨_, o, hturn, hleaves⟩ := h
  rw [hleaves]
  exact turn_moves hturn

/-- What every move keeps is kept until any state that is visited. -/
theorem Visits.keeps {P : Scopes → Prop} (hmoves : ∀ {i S S'}, Scopes.Moves i S S' → P S → P S')
    (h : Visits host options lines x y) (hx : P x.1.scopes) : P y.1.scopes := by
  induction h with
  | refl => exact hx
  | tail _ hturn ih =>
    obtain ⟨line, hturn⟩ := hturn
    exact hmoves hturn.moves ih

/-- Every state that is visited stays within the limits. -/
theorem Visits.tidy (h : Visits host options lines x y) (hx : x.1.scopes.Tidy) : y.1.scopes.Tidy :=
  h.keeps Scopes.Moves.tidy hx

/-- In every state that is visited full stacks are reported in the usual words. -/
theorem Visits.usual (h : Visits host options lines x y) (hx : x.1.scopes.Usual) : y.1.scopes.Usual :=
  h.keeps Scopes.Moves.usual hx

/-- The outermost frame is never left. -/
theorem Visits.lasts (h : Visits host options lines x y) : Lasts host options lines 0 x y :=
  Relation.ReflTransGen.mono (fun _ _ hturn => ⟨hturn, Nat.succ_pos _⟩) _ _ h

theorem Lasts.lt (h : Lasts host options lines k x y) (hk : k < x.1.scopes.frames.length) :
    k < y.1.scopes.frames.length := by
  cases h with
  | refl => exact hk
  | tail _ hturn => exact hturn.2

/-- As long as a frame is not left it is worked on, and names are bound in it again only by lines that do so. -/
theorem Lasts.worked {f f' : Scope} (h : Lasts host options lines k x y) (hf : x.1.scopes.frame? k = some f)
    (hf' : y.1.scopes.frame? k = some f') :
    f.Worked (fun name => ∃ line ∈ lines, line.instruction.Rebinds name) f' := by
  induction h generalizing f' with
  | refl =>
    cases hf.symm.trans hf'
    exact .refl f
  | tail hbefore hturn ih =>
    obtain ⟨⟨line, hturn⟩, _⟩ := hturn
    obtain ⟨g, hg⟩ := Scopes.exists_frame? (Lasts.lt hbefore (Scopes.frame?_lt hf))
    refine (ih hg).trans ((hturn.moves.frame hg hf').mono fun name hname => ?_)
    exact ⟨line, Array.mem_of_getElem? hturn.1, hname.1⟩

/-- As long as a frame is not left its constants stay as they are, unless an instruction binds the name again while the
frame is the innermost one. -/
theorem Lasts.constant {name : String} {b : Binding} (h : Lasts host options lines k x y)
    (hb : x.1.scopes.binding? k name = some b) (hconst : b.kind = .constant) :
    y.1.scopes.binding? k name = some b ∨ ∃ u v line, Lasts host options lines k x u ∧
      Turns host options lines line u v ∧ line.instruction.Rebinds name ∧ u.1.scopes.frames.length = k + 1 ∧
      Lasts host options lines k v y := by
  -- by induction on the turns: if one has bound the name again it stays the one that is asked for
  induction h with
  | refl => exact .inl hb
  | @tail y z hbefore hturn ih =>
    rcases ih with hb | ⟨u, v, line, hu, hbinds, hname, htop, hv⟩
    · obtain ⟨⟨line, hmoves⟩, hk⟩ := hturn
      by_cases hname : line.instruction.Rebinds name ∧ y.1.scopes.frames.length = k + 1
      · exact .inr ⟨y, z, line, hbefore, hmoves, hname.1, hname.2, .refl⟩
      · exact .inl (hmoves.moves.constant hk hb hconst hname)
    · exact .inr ⟨u, v, line, hu, hbinds, hname, htop, hv.tail hturn⟩

/-- The state that a run leaves is one that it has come to turn by turn. -/
theorem visits_of_run {fuel : Nat} {M : Machine} {st st' : σ} {o : Outcome}
    (h : run host options lines fuel M st = (some o, st')) : Visits host options lines (M, st) (leaves o, st') := by
  induction fuel generalizing M st with
  | zero => cases h
  | succ fuel ih =>
    unfold run at h
    cases hline : lines[M.pc]? with
    | none =>
      rw [hline] at h
      cases h
      exact .refl
    | some line =>
      rw [hline] at h
      simp only at h
      rw [stateM_bind] at h
      generalize hturn : turn host options line M st = x at h
      obtain ⟨o₁, st₁⟩ := x
      cases o₁ with
      | error f M' =>
        cases h
        exact .single ⟨line, hline, _, hturn, rfl⟩
      | ok _ M' => exact .head ⟨line, hline, _, hturn, rfl⟩ (ih h)

/-- A run works on the scope that it is given, which is the outermost one when it ends. -/
theorem run_worked {f : Scope} {started fuel : Nat} {st st' : σ} {o : Outcome}
    (h : run host options lines fuel { scopes := .onBottom f, started := started } st = (some o, st')) :
    f.Worked (fun name => ∃ line ∈ lines, line.instruction.Rebinds name) (leaves o).scopes.bottom :=
  (visits_of_run h).lasts.worked (Scopes.frame?_zero _) (Scopes.frame?_zero _)

end Runs

end Machine

end MacroBasic
