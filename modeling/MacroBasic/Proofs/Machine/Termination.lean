/-
Runs that come to an end. Where every branch leads onward, only calls go back in a program, and the number of
scopes limits how many of them can wait to be returned to. So the places that the activations have come to, the
outermost activation first, are the digits of a number that falls with every instruction.
-/
import Mathlib.Algebra.Group.Nat.Defs
import MacroBasic.Proofs.Machine.Depth

namespace MacroBasic

/-- A branch leads to a later address, which what pops its target need not do. -/
def Instruction.Onward (pc : Address) : Instruction → Prop
  | .jump b | .jumpTrue b | .jumpFalse b => pc < b
  | .jumpPop => False
  | _ => True

namespace Machine

/-! ## What a run still has before it -/

/-- An upper bound for the number of instructions before the end of a run, given the place of the innermost
activation and those that the others are to go on at. -/
def weight (size : Nat) : List Nat → Nat
  | [] => 0
  | pc :: calls => (size + 1 - pc) * (size + 2) ^ (Scopes.limit - calls.length) + weight size calls

section Weight

variable {size pc pc' : Nat} {calls : List Address}

theorem weight_onward (h : pc < pc') (hpc : pc < size) : weight size (pc' :: calls) < weight size (pc :: calls) := by
  have hpower : 0 < (size + 2) ^ (Scopes.limit - calls.length) := Nat.pow_pos (Nat.succ_pos _)
  have hdigit : size + 1 - pc' < size + 1 - pc := by omega
  exact Nat.add_lt_add_right (Nat.mul_lt_mul_of_pos_right hdigit hpower) _

/-- What a called routine has before it is less than what lies between two instructions of its caller. -/
theorem weight_call {b : Nat} (hpc : pc < size) (hcalls : calls.length < Scopes.limit) :
    weight size (b :: (pc + 1) :: calls) < weight size (pc :: calls) := by
  obtain ⟨n, hn⟩ : ∃ n, Scopes.limit - calls.length = n + 1 := ⟨Scopes.limit - calls.length - 1, by omega⟩
  have hn' : Scopes.limit - ((pc + 1) :: calls).length = n := by rw [List.length_cons]; omega
  have hdigit : size + 1 - pc = size + 1 - (pc + 1) + 1 := by omega
  simp only [weight, hn, hn']
  rw [← Nat.add_assoc]
  refine Nat.add_lt_add_right ?_ _
  calc (size + 1 - b) * (size + 2) ^ n + (size + 1 - (pc + 1)) * (size + 2) ^ (n + 1)
    _ < (size + 2) ^ (n + 1) + (size + 1 - (pc + 1)) * (size + 2) ^ (n + 1) := by
      refine Nat.add_lt_add_right ?_ _
      rw [Nat.pow_succ, Nat.mul_comm]
      exact Nat.mul_lt_mul_of_pos_left (by omega) (Nat.pow_pos (Nat.succ_pos _))
    _ = (size + 1 - pc) * (size + 2) ^ (n + 1) := by rw [hdigit, Nat.succ_mul, Nat.add_comm]

theorem weight_ret (hpc : pc < size) : weight size calls < weight size (pc :: calls) := by
  have hpower : 0 < (size + 2) ^ (Scopes.limit - calls.length) := Nat.pow_pos (Nat.succ_pos _)
  exact Nat.lt_add_of_pos_left (Nat.mul_pos (by omega) hpower)

end Weight

/-! ## One instruction -/

section Step

variable {L : Address → Option Layout} {i : Instruction} {pc pc' : Address} {S S' : Scopes} {calls : List Address}

/-- What is no call and does not return leads onward. -/
theorem Effect.onward (h : Effect i pc S pc' S') (hi : i.Onward pc) (hcall : i.isCall = false) (hret : i ≠ .ret) :
    pc < pc' := by
  have hleads (hpc : i.Leads pc pc') : pc < pc' := by
    cases i with
    | jump b => cases hpc; exact hi
    | jumpTrue b | jumpFalse b =>
      rcases hpc with rfl | rfl
      · exact Nat.lt_succ_self pc
      · exact hi
    | jumpPop => exact hi.elim
    | call b => cases hcall
    | ret => exact absurd rfl hret
    | _ => cases hpc; exact Nat.lt_succ_self pc
  cases h with
  | values _ _ _ _ hpc => exact hleads hpc
  | binds _ _ hpc => exact hleads hpc
  | gives _ _ _ _ _ hpc => exact hpc ▸ Nat.lt_succ_self pc
  | hands _ _ _ _ hpc => exact hpc ▸ Nat.lt_succ_self pc
  | creates _ _ _ _ hpc => exact hpc ▸ Nat.lt_succ_self pc
  | enters _ hpc => exact hpc ▸ Nat.lt_succ_self pc
  | leaves _ hpc => exact hpc ▸ Nat.lt_succ_self pc

/-- No instruction makes more scopes than there may be. -/
theorem Effect.depth_le (h : Effect i pc S pc' S') (hS : S.depth ≤ Scopes.limit) : S'.depth ≤ Scopes.limit := by
  rw [S.depth_eq] at hS
  rw [S'.depth_eq]
  cases h with
  | values base taken given _ _ _ _ hS₁ hS' =>
    rw [hS₁, Scopes.below_pushAll] at hS
    rw [hS', Scopes.below_pushAll]
    exact hS
  | binds _ _ _ hS' => rw [hS']; exact hS
  | gives name v S₁ b _ _ hS₁ hb hk hS' =>
    subst hS₁ hS'
    rw [(Scopes.similar_assign? hb hk).depth]
    exact hS
  | hands _ _ _ _ _ hS₁ _ hS' => subst hS₁ hS'; exact hS
  | creates _ _ _ _ _ hS₁ _ hS' => subst hS₁ hS'; exact hS
  | enters _ _ hlimit hS' =>
    subst hS'
    rw [S.depth_eq] at hlimit
    exact hlimit
  | leaves _ _ hframes =>
    rw [hframes, List.length_cons] at hS
    exact Nat.le_of_succ_le hS

/-- Every activation has a scope of its own. -/
theorem Around.length_calls {inside : Bool} {waiting : List (List Cell)} {back : Option Value} {below : List Scope}
    (h : Around L inside waiting back below calls) : calls.length + waiting.length < below.length := by
  induction h with
  | script => exact Nat.zero_lt_one
  | routine _ _ ih => rw [List.length_cons] at ih ⊢; rw [List.length_nil]; omega
  | waiting _ _ ih => rw [List.length_cons, List.length_cons]; omega

theorem Laid.length_calls {c : Config} (h : Laid L c calls) : calls.length < c.scopes.below.length := by
  obtain ⟨l, _, hS⟩ := h
  cases l with
  | shaped s => exact Nat.lt_of_le_of_lt (Nat.le_add_right _ _) hS.2.length_calls
  | returned s => exact Nat.lt_of_le_of_lt (Nat.le_add_right _ _) (Around.length_calls hS)

end Step

/-! ## Runs -/

section Runs

variable {σ : Type} {host : Host (StateM σ)} {options : Options} {lines : Array Line} {M M' : Machine}
  {st st' : σ} {calls : List Address} {L : Address → Option Layout} {line : Line}

/-- What returns goes on where the innermost activation was called. -/
theorem turn_ret (hL : Describes L lines) (h : Laid L M.config calls) (hline : lines[M.pc]? = some line)
    (hturn : turn host options line M st = (.ok () M', st')) (hi : line.instruction = .ret) :
    calls = M'.pc :: calls.tail := by
  obtain ⟨a, rest, b, rfl, hb, hvalue⟩ := (h.safe hL).back line hline hi
  obtain ⟨t, hyields⟩ := turn_yields hturn
  have hback : (M.scopes.get? returnName).map Binding.value = some (.address a) := by
    rw [show M.scopes.get? returnName = some b from hb]
    exact congrArg some hvalue
  change (advance _ _ ⟨M.pc, M.scopes⟩).Yields t (.ok M'.config) at hyields
  rw [hi, advance_ret _ _ _ hback, Talk.yields_done] at hyields
  exact congrArg (Config.pc · :: rest) (Except.ok.inj hyields.2).symm

/-- An instruction takes from what a run has before it. -/
theorem turn_weight (hL : Describes L lines)
    (honward : ∀ (a : Address) (line : Line), lines[a]? = some line → line.instruction.Onward a)
    (h : Laid L M.config calls) (hdepth : M.scopes.depth ≤ Scopes.limit) (hline : lines[M.pc]? = some line)
    (hturn : turn host options line M st = (.ok () M', st')) :
    weight lines.size (M'.pc :: track M.pc calls line.instruction) < weight lines.size (M.pc :: calls) := by
  have hpc : M.pc < lines.size := (Array.getElem?_eq_some_iff.1 hline).1
  by_cases hret : line.instruction = .ret
  · have hcalls := turn_ret hL h hline hturn hret
    rw [hret, track, ← hcalls]
    exact weight_ret hpc
  by_cases hcall : line.instruction.isCall
  · cases hi : line.instruction with
    | call b =>
      have hlength : calls.length < M.scopes.below.length := h.length_calls
      rw [M.scopes.depth_eq] at hdepth
      exact weight_call hpc (by omega)
    | _ => rw [hi] at hcall; cases hcall
  · have htrack : track M.pc calls line.instruction = calls := by
      cases hi : line.instruction with
      | ret => exact absurd hi hret
      | call b => rw [hi] at hcall; exact absurd rfl hcall
      | _ => rfl
    rw [htrack]
    exact weight_onward ((turn_effect hL h hline hturn).onward (honward _ _ hline) (by simpa using hcall) hret) hpc

/-- A run ends after as many instructions as it can have before it. -/
theorem run_ends_of_onward (hL : Describes L lines)
    (honward : ∀ (a : Address) (line : Line), lines[a]? = some line → line.instruction.Onward a) {fuel : Nat} (h : Laid L M.config calls)
    (hdepth : M.scopes.depth ≤ Scopes.limit) (hfuel : weight lines.size (M.pc :: calls) < fuel) :
    ∃ o st', run host options lines fuel M st = (some o, st') := by
  induction fuel generalizing M st calls with
  | zero => cases hfuel
  | succ fuel ih =>
    unfold run
    cases hline : lines[M.pc]? with
    | none => exact ⟨_, _, rfl⟩
    | some line =>
      simp only
      rw [stateM_bind]
      generalize hturn : turn host options line M st = x
      obtain ⟨o, st'⟩ := x
      cases o with
      | error f M' => exact ⟨_, _, rfl⟩
      | ok _ M' =>
        obtain ⟨t, hyields⟩ := turn_yields hturn
        have hnext : Laid L M'.config (track M.pc calls line.instruction) := h.advance hL hline t _ hyields
        refine ih hnext ((turn_effect hL h hline hturn).depth_le hdepth) ?_
        exact Nat.lt_of_lt_of_le (turn_weight hL honward h hdepth hline hturn) (Nat.le_of_lt_succ hfuel)

end Runs

end Machine

end MacroBasic
