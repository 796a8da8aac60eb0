/-
The places of run-time faults. No operation of the machine knows where in a text it is, so its faults bear no place;
the turn in which a fault is raised gives it that of its line.
-/
import MacroBasic.Proofs.Machine.Turn
import MacroBasic.Proofs.Value.Calculation

namespace MacroBasic

/-! ## Operations of which the faults bear no place -/

namespace Work

variable {σ τ α β : Type} {good : α → Prop} {after : β → Prop}

/-- An operation whose faults bear no place, and of which the results are good. -/
def Placeless (good : α → Prop) (w : Work σ α) : Prop :=
  ∀ s, match w s with
    | .ok a _ => good a
    | .error f _ => f.position = none

theorem placeless_pure {a : α} (h : good a) : Placeless good (pure a : Work σ α) := fun _ => h

theorem placeless_because (code : FaultCode) (message : String) :
    Placeless good (throw (.because code message) : Work σ α) := fun _ => rfl

theorem placeless_get : Placeless (fun _ => True) (get : Work σ σ) := fun _ => trivial

theorem placeless_modify (f : σ → σ) : Placeless (fun _ => True) (modify f : Work σ PUnit) := fun _ => trivial

theorem placeless_ofExcept {x : Except Fault α} (h : ∀ f, x = .error f → f.position = none) :
    Placeless (fun _ => True) (ofExcept x : Work σ α) := by
  intro s
  cases x with
  | ok a => trivial
  | error f => exact h f rfl

theorem Placeless.bind {w : Work σ α} {k : α → Work σ β} (hw : w.Placeless good)
    (hk : ∀ a, good a → (k a).Placeless after) : (w >>= k).Placeless after := by
  intro s
  have hfirst := hw s
  show match EStateM.bind w k s with
    | .ok b _ => after b
    | .error f _ => f.position = none
  unfold EStateM.bind
  cases hr : w s with
  | ok a s' =>
    rw [hr] at hfirst
    exact hk a hfirst s'
  | error f s' =>
    rw [hr] at hfirst
    exact hfirst

theorem Placeless.bind_pure {w : Work σ α} {f : α → β} (hw : w.Placeless good) (hf : ∀ a, after (f a)) :
    (w >>= fun a => pure (f a)).Placeless after := hw.bind fun a _ => placeless_pure (hf a)

/-- An operation on a part of the state. -/
theorem Placeless.within {part : σ → τ} {put : τ → σ → σ} {w : Work τ α} (hw : w.Placeless good) :
    (w.within part put).Placeless good := by
  intro s
  have hpart := hw (part s)
  unfold Work.within
  cases hr : w (part s) with
  | ok a t =>
    rw [hr] at hpart
    exact hpart
  | error f t =>
    rw [hr] at hpart
    exact hpart

end Work

namespace Machine

open Work

/-- However the host replies, a fault in going on bears no place. -/
def Next.Placeless : Next → Prop
  | .goto _ => True
  | .ask _ resume => ∀ reply, (resume reply).Placeless fun _ => True

/-! ## Instructions -/

section Instructions

variable {α : Type}

theorem placeless_values {good : α → Prop} {w : Work (Stack Value) α} (hw : w.Placeless good) :
    (Scopes.values w).Placeless good := hw.within.within

theorem placeless_push (v : Value) : (Scopes.push v).Placeless fun _ => True := by
  refine placeless_values fun s => ?_
  unfold Stack.push
  by_cases hfull : Stack.limit ≤ s.size
  · rw [if_pos hfull]
    rfl
  · rw [if_neg hfull]
    trivial

theorem placeless_pop_stack : (Stack.pop : Work (Stack Value) Value).Placeless fun _ => True := by
  rintro ⟨items, _, _, _⟩
  cases items with
  | nil => rfl
  | cons a rest => trivial

theorem placeless_pop : Scopes.pop.Placeless fun _ => True := placeless_values placeless_pop_stack

theorem placeless_peek (depth : Nat) : (Scopes.peek depth).Placeless fun _ => True := by
  refine placeless_values fun s => ?_
  unfold Stack.peek
  cases s.items[depth]? with
  | none => rfl
  | some a => trivial

/-- A calculation makes its faults anew, with the instruction in their message. -/
theorem placeless_calculate (role : String) (i : Instruction) {x : Except Fault α} (hx : Calculates x) :
    (calculate role i x).Placeless fun _ => True := by
  refine placeless_ofExcept fun f hf => ?_
  cases x with
  | ok a => cases hf
  | error g =>
    cases hf
    rw [calculationFault, if_pos (hx g rfl)]
    rfl

theorem placeless_hostInteger (i : Instruction) (v : Value) : (hostInteger i v).Placeless fun _ => True :=
  (placeless_calculate "host" i v.toInteger_calculates).bind_pure fun _ => trivial

theorem placeless_popCondition (i : Instruction) : (popCondition i).Placeless fun _ => True :=
  placeless_pop.bind fun v _ => placeless_calculate "jump" i v.toBoolean_calculates

theorem placeless_requireUi (ui : Bool) (i : Instruction) : (requireUi ui i).Placeless fun _ => True := by
  unfold requireUi
  split
  · exact placeless_pure trivial
  · exact placeless_because _ _

theorem placeless_assignBound (b : Binding) (v : Value) : (assignBound b v).Placeless fun _ => True := by
  unfold assignBound
  split
  · exact fun _ => rfl
  · exact placeless_modify _

theorem placeless_pushScope : Scopes.pushScope.Placeless fun _ => True := by
  intro S
  unfold Scopes.pushScope
  by_cases hfull : Scopes.limit ≤ S.depth
  · rw [if_pos hfull]
    rfl
  · rw [if_neg hfull]
    trivial

theorem placeless_popScope : Scopes.popScope.Placeless fun _ => True := by
  rintro ⟨top, below, depth, depth_eq⟩
  cases below with
  | nil => rfl
  | cons next rest => trivial

theorem openDialog_placeless (ui : Bool) (i : Instruction) (next : Address) (d : Dialog) :
    (openDialog ui i next d).Placeless Next.Placeless := by
  cases d with
  | message =>
    refine placeless_pop.bind fun text _ => placeless_pop.bind fun kind _ => ?_
    refine (placeless_hostInteger i kind).bind fun kind _ => placeless_pure ?_
    exact fun _ => placeless_pure trivial
  | msgBox =>
    refine (placeless_requireUi ui i).bind fun _ _ => placeless_pop.bind fun title _ => ?_
    refine placeless_pop.bind fun buttons _ => placeless_pop.bind fun prompt _ => ?_
    refine (placeless_hostInteger i buttons).bind fun buttons _ => placeless_pure ?_
    exact fun button => (placeless_push _).bind_pure fun _ => trivial
  | inputBox =>
    refine (placeless_requireUi ui i).bind fun _ _ => placeless_pop.bind fun initial _ => ?_
    refine placeless_pop.bind fun title _ => placeless_pop.bind fun prompt _ => placeless_pure ?_
    exact fun text => (placeless_push _).bind_pure fun _ => trivial

/-- The faults of instructions bear no place. -/
theorem step_placeless (ui : Bool) (pc : Address) (i : Instruction) : (step ui pc i).Placeless Next.Placeless := by
  cases i with
  | allocConst | allocVar | call => exact (placeless_modify _).bind_pure fun _ => trivial
  | pushValue v => exact (placeless_push v).bind_pure fun _ => trivial
  | pushVariable name =>
    refine placeless_get.bind fun S _ => ?_
    split
    · split
      · exact fun _ => rfl
      · exact (placeless_push _).bind_pure fun _ => trivial
    · refine placeless_pure fun reply => ?_
      cases (reply : Option Value) with
      | some v => exact (placeless_push v).bind_pure fun _ => trivial
      | none => exact placeless_because _ _
  | pop => exact placeless_pop.bind_pure fun _ => trivial
  | copy depth => exact (placeless_peek depth).bind fun v _ => (placeless_push v).bind_pure fun _ => trivial
  | assign name =>
    refine placeless_pop.bind fun v _ => placeless_get.bind fun S _ => ?_
    split
    · exact (placeless_assignBound _ v).bind_pure fun _ => trivial
    · refine placeless_pure fun taken => ?_
      cases (taken : Bool) with
      | true => exact placeless_pure trivial
      | false => exact (placeless_modify _).bind_pure fun _ => trivial
  | binary op =>
    have hpop2 : Scopes.pop2.Placeless fun _ => True :=
      placeless_values (placeless_pop_stack.bind fun _ _ => placeless_pop_stack.bind_pure fun _ => trivial)
    refine hpop2.bind fun operands _ => ?_
    refine (placeless_calculate "binary" _ (op.apply_calculates operands.1 operands.2)).bind fun v _ => ?_
    exact (placeless_push v).bind_pure fun _ => trivial
  | unary op =>
    refine placeless_pop.bind fun v _ => (placeless_calculate "unary" _ (op.apply_calculates v)).bind fun v _ => ?_
    exact (placeless_push v).bind_pure fun _ => trivial
  | print => exact placeless_pop.bind fun v _ => placeless_pure fun _ => placeless_pure trivial
  | notify n => exact placeless_pure fun _ => placeless_pure trivial
  | dialog d => exact openDialog_placeless ui _ _ d
  | jump a => exact placeless_pure trivial
  | jumpTrue a | jumpFalse a => exact (placeless_popCondition _).bind_pure fun _ => trivial
  | jumpPop =>
    refine placeless_pop.bind fun v _ => ?_
    split
    · exact placeless_pure trivial
    · exact placeless_because _ _
  | pushScope => exact placeless_pushScope.bind_pure fun _ => trivial
  | popScope => exact placeless_popScope.bind_pure fun _ => trivial
  | ret =>
    refine placeless_get.bind fun S _ => ?_
    split
    · exact placeless_pure trivial
    · exact placeless_because _ _

theorem advance_placeless (ui : Bool) (i : Instruction) (c : Config) :
    (advance ui i c).Ensures (fun _ => True) (·.1.position = none) := by
  have hstep := step_placeless ui c.pc i c.scopes
  unfold advance
  cases hs : step ui c.pc i c.scopes with
  | error f S =>
    rw [hs] at hstep
    exact Talk.ensures_fail hstep
  | ok next S =>
    rw [hs] at hstep
    cases next with
    | goto a => exact Talk.ensures_done trivial
    | ask r resume =>
      refine Talk.ensures_ask fun reply => ?_
      have hresume := hstep reply S
      cases hr : resume reply S with
      | ok a S' => exact Talk.ensures_done trivial
      | error f S' =>
        rw [hr] at hresume
        exact Talk.ensures_fail hresume

end Instructions

/-! ## Turns -/

/-- A fault that ends a turn is reported at the place of the line. -/
theorem turn_place {σ : Type} {host : Host (StateM σ)} {options : Options} {line : Line} {M M' : Machine} {st st' : σ}
    {f : Fault} (h : turn host options line M st = (.error f M', st')) : f.position = some line.position := by
  obtain ⟨events, _, hturned⟩ := turn_turned h
  cases hturned with
  | faults h =>
    -- The fault of the instruction bears no place, so the one of the line is put there.
    have hplace := advance_placeless _ _ _ _ _ h.accounts
    unfold Fault.orPlace
    split
    · rename_i hsome
      rw [hplace] at hsome
      cases hsome
    · rfl
  | stops | late => rfl

end Machine

end MacroBasic
