/-
What one instruction can do to the scopes of a run. It changes values without names, binds a name in the
innermost scope, gives a new value to the nearest binding of a name, enters a scope or leaves one. Whatever is
done while a scope is not the innermost one leaves its stack as it is, and its names with their kinds in their
order; the constants among them keep their values.
-/
import Mathlib.Data.List.Forall2
import MacroBasic.Proofs.Machine.Safety

namespace MacroBasic

/-! ## Scopes that differ in the values of variables -/

/-- The same name of the same kind, with the same value if it is a constant. -/
def Binding.Similar (b b' : Binding) : Prop := b' = { b with value := b'.value } ∧ (b.kind = .constant → b' = b)

/-- The same values without names, and similar names in the same order. -/
def Scope.Similar (f f' : Scope) : Prop := f'.stack = f.stack ∧ List.Forall₂ Binding.Similar f.names f'.names

/-- As many scopes, each similar to its counterpart. -/
def Scopes.Similar (S S' : Scopes) : Prop := List.Forall₂ Scope.Similar S.frames S'.frames

theorem Binding.Similar.refl (b : Binding) : b.Similar b := ⟨rfl, fun _ => rfl⟩

theorem Binding.Similar.kind {b b' : Binding} (h : b.Similar b') : b'.kind = b.kind := by rw [h.1]

theorem Binding.Similar.name {b b' : Binding} (h : b.Similar b') : b'.name = b.name := by rw [h.1]

theorem Binding.Similar.trans {b b' b'' : Binding} (h : b.Similar b') (h' : b'.Similar b'') : b.Similar b'' := by
  refine ⟨?_, fun hk => ?_⟩
  · rw [h'.1, h.1]
  · rw [h'.2 (by rw [h.kind]; exact hk), h.2 hk]

theorem forall₂_trans {α : Type} {R : α → α → Prop} (hR : ∀ a b c, R a b → R b c → R a c) {l l' l'' : List α}
    (h : List.Forall₂ R l l') (h' : List.Forall₂ R l' l'') : List.Forall₂ R l l'' := by
  induction h generalizing l'' with
  | nil => exact h'
  | cons hab _ ih =>
    cases h' with
    | cons hbc h' => exact .cons (hR _ _ _ hab hbc) (ih h')

namespace Scope.Similar

variable {f f' f'' : Scope}

theorem refl (f : Scope) : f.Similar f := ⟨rfl, List.forall₂_same.2 fun b _ => Binding.Similar.refl b⟩

theorem trans (h : f.Similar f') (h' : f'.Similar f'') : f.Similar f'' :=
  ⟨h'.1.trans h.1, forall₂_trans (fun _ _ _ hb hb' => hb.trans hb') h.2 h'.2⟩

end Scope.Similar

theorem forall₂_similar_refl (l : List Scope) : List.Forall₂ Scope.Similar l l :=
  List.forall₂_same.2 fun f _ => Scope.Similar.refl f

theorem forall₂_similar_trans {l l' l'' : List Scope} (h : List.Forall₂ Scope.Similar l l')
    (h' : List.Forall₂ Scope.Similar l' l'') : List.Forall₂ Scope.Similar l l'' :=
  forall₂_trans (fun _ _ _ hf hf' => hf.trans hf') h h'

namespace Scopes

theorem cons_inj {S S' : Scopes} {v v' : Value} (h : S.cons v = S'.cons v') : S = S' ∧ v = v' := by
  obtain ⟨⟨names, items, size, size_eq, whenFull⟩, below, depth, depth_eq⟩ := S
  obtain ⟨⟨names', items', size', size_eq', whenFull'⟩, below', depth', depth_eq'⟩ := S'
  simp only [cons, Stack.cons, Scopes.mk.injEq, Scope.mk.injEq, Stack.mk.injEq, List.cons.injEq,
    Nat.add_right_cancel_iff] at h
  obtain ⟨⟨rfl, ⟨rfl, rfl⟩, rfl, rfl⟩, rfl, rfl⟩ := h
  exact ⟨rfl, rfl⟩

theorem pushAll_inj : ∀ {vs vs' : List Value} {S S' : Scopes}, vs.length = vs'.length →
    S.pushAll vs = S'.pushAll vs' → S = S' ∧ vs = vs'
  | [], [], _, _, _, h => ⟨h, rfl⟩
  | v :: vs, v' :: vs', S, S', hlength, h => by
    have hrest : (S.cons v).pushAll vs = (S'.cons v').pushAll vs' := h
    obtain ⟨hcons, rfl⟩ := pushAll_inj (Nat.succ.inj hlength) hrest
    obtain ⟨rfl, rfl⟩ := cons_inj hcons
    exact ⟨rfl, rfl⟩

@[simp] theorem below_pushAll : ∀ (vs : List Value) (S : Scopes), (S.pushAll vs).below = S.below
  | [], _ => rfl
  | v :: vs, S => below_pushAll vs (S.cons v)

@[simp] theorem names_pushAll : ∀ (vs : List Value) (S : Scopes), (S.pushAll vs).top.names = S.top.names
  | [], _ => rfl
  | v :: vs, S => names_pushAll vs (S.cons v)

end Scopes

namespace Scopes.Similar

variable {S S' S'' : Scopes} {v : Value}

theorem refl (S : Scopes) : S.Similar S := forall₂_similar_refl S.frames

theorem trans (h : S.Similar S') (h' : S'.Similar S'') : S.Similar S'' := forall₂_similar_trans h h'

theorem below (h : S.Similar S') : List.Forall₂ Scope.Similar S.below S'.below := by
  cases h with
  | cons _ h => exact h

theorem top (h : S.Similar S') : S.top.Similar S'.top := by
  cases h with
  | cons h _ => exact h

theorem items (h : S.Similar S') : S'.items = S.items := congrArg Stack.items h.top.1

theorem depth (h : S.Similar S') : S'.below.length = S.below.length := h.below.length_eq.symm

theorem cons (h : S.Similar S') : (S.cons v).Similar (S'.cons v) := by
  refine List.Forall₂.cons ⟨?_, h.top.2⟩ h.below
  show S'.top.stack.cons v = S.top.stack.cons v
  rw [h.top.1]

theorem pushAll {vs : List Value} (h : S.Similar S') : (S.pushAll vs).Similar (S'.pushAll vs) := by
  induction vs generalizing S S' with
  | nil => exact h
  | cons v vs ih => exact ih h.cons

/-- What is similar to scopes with a value on top has that value on top. -/
theorem uncons (h : (S.cons v).Similar S') : ∃ S₁, S' = S₁.cons v ∧ S.Similar S₁ := by
  obtain ⟨S₁, rfl, _⟩ := S'.exists_cons (h.items.trans (S.items_cons v))
  refine ⟨S₁, rfl, List.Forall₂.cons ⟨?_, h.top.2⟩ h.below⟩
  have hstack : S₁.top.stack.cons v = S.top.stack.cons v := h.top.1
  have hfull : (S₁.top.stack.cons v).whenFull = (S.top.stack.cons v).whenFull := congrArg Stack.whenFull hstack
  exact Stack.eq_of_items (List.tail_eq_of_cons_eq (congrArg Stack.items hstack)) hfull

theorem unpush {vs : List Value} (h : (S.pushAll vs).Similar S') : ∃ S₁, S' = S₁.pushAll vs ∧ S.Similar S₁ := by
  induction vs generalizing S with
  | nil => exact ⟨S', rfl, h⟩
  | cons v vs ih =>
    obtain ⟨S₁, rfl, h₁⟩ := ih h
    obtain ⟨S₂, rfl, h₂⟩ := h₁.uncons
    exact ⟨S₂, rfl, h₂⟩

end Scopes.Similar

/-! ## Giving values -/

/-- Giving a name a value changes its binding that is found, and nothing but the value of that one. -/
theorem forall₂_replace? {name : String} {v : Value} {names names' : List Binding}
    (h : Scope.replace? name v names = some names') :
    List.Forall₂ (fun b b' => b' = b ∨ names.find? (·.name == name) = some b ∧ b' = { b with value := v })
      names names' := by
  induction names generalizing names' with
  | nil => cases h
  | cons first rest ih =>
    unfold Scope.replace? at h
    by_cases hfirst : first.name = name
    · rw [if_pos hfirst] at h
      cases h
      have hfound := List.find?_cons_of_pos (l := rest) (p := (·.name == name)) (by simpa using hfirst)
      exact .cons (.inr ⟨hfound, rfl⟩) (List.forall₂_same.2 fun _ _ => .inl rfl)
    · rw [if_neg hfirst] at h
      obtain ⟨rest', hrest, rfl⟩ := Option.map_eq_some_iff.1 h
      rw [List.find?_cons_of_neg (by simpa using hfirst)]
      exact .cons (.inl rfl) (ih hrest)

theorem similar_replace? {name : String} {v : Value} {names names' : List Binding}
    (hk : ∀ b, names.find? (·.name == name) = some b → b.kind ≠ .constant)
    (h : Scope.replace? name v names = some names') : List.Forall₂ Binding.Similar names names' := by
  refine (forall₂_replace? h).imp fun b b' hb => ?_
  rcases hb with rfl | ⟨hfound, rfl⟩
  · exact .refl _
  · exact ⟨rfl, fun hc => absurd hc (hk b hfound)⟩

theorem find?_of_replace? {name : String} {v : Value} : ∀ {names names' : List Binding},
    Scope.replace? name v names = some names' → (names.find? (·.name == name)).isSome
  | [], _, h => nomatch h
  | first :: rest, names', h => by
    unfold Scope.replace? at h
    by_cases hfirst : first.name = name
    · rw [List.find?_cons_of_pos (by simpa using hfirst)]
      rfl
    · rw [if_neg hfirst] at h
      obtain ⟨rest', hrest, _⟩ := Option.map_eq_some_iff.1 h
      rw [List.find?_cons_of_neg (by simpa using hfirst)]
      exact find?_of_replace? hrest

theorem replace?_eq_none {name : String} {v : Value} : ∀ {names : List Binding},
    Scope.replace? name v names = none → names.find? (·.name == name) = none
  | [], _ => rfl
  | first :: rest, h => by
    unfold Scope.replace? at h
    by_cases hfirst : first.name = name
    · rw [if_pos hfirst] at h
      cases h
    · rw [if_neg hfirst, Option.map_eq_none_iff] at h
      rw [List.find?_cons_of_neg (by simpa using hfirst)]
      exact replace?_eq_none h

/-- Giving the nearest binding of a name a value changes nothing else, where that is no constant. -/
theorem similar_assignFirst? {name : String} {v : Value} : ∀ {frames frames' : List Scope},
    (∀ b, frames.findSome? (·.get? name) = some b → b.kind ≠ .constant) →
    Scopes.assignFirst? name v frames = some frames' → List.Forall₂ Scope.Similar frames frames'
  | [], _, _, h => nomatch h
  | first :: rest, frames', hk, h => by
    unfold Scopes.assignFirst? at h
    split at h
    · rename_i first' hfirst
      cases h
      obtain ⟨names, hnames, rfl⟩ := Option.map_eq_some_iff.1 hfirst
      refine .cons ⟨rfl, similar_replace? (fun b hb => hk b ?_) hnames⟩ (forall₂_similar_refl rest)
      rw [List.findSome?_cons, show first.get? name = some b from hb]
    · rename_i hfirst
      obtain ⟨rest', hrest, rfl⟩ := Option.map_eq_some_iff.1 h
      refine .cons (Scope.Similar.refl first) (similar_assignFirst? (fun b hb => hk b ?_) hrest)
      rw [List.findSome?_cons, show first.get? name = none from replace?_eq_none (Option.map_eq_none_iff.1 hfirst)]
      exact hb

theorem Scopes.assign?_frames {name : String} {v : Value} {S S' : Scopes} (h : S.assign? name v = some S') :
    Scopes.assignFirst? name v S.frames = some S'.frames := by
  unfold Scopes.assign? at h
  unfold Scopes.frames Scopes.assignFirst?
  split at h
  · cases h
    simp only [*]
  · split at h
    · cases h
      simp only [*, Option.map_some]
    · cases h

theorem Scopes.similar_assign? {name : String} {v : Value} {S : Scopes} {b : Binding} (hb : S.get? name = some b)
    (hk : b.kind ≠ .constant) : S.Similar ((S.assign? name v).getD S) := by
  cases h : S.assign? name v with
  | none => exact .refl S
  | some S' =>
    refine similar_assignFirst? (fun b' hb' => ?_) (Scopes.assign?_frames h)
    have : S.get? name = some b' := hb'
    rw [hb] at this
    cases this
    exact hk

/-! ## Effects of instructions -/

/-- Where an instruction at an address can lead. What pops an address or returns can lead anywhere. -/
def Instruction.Leads (pc pc' : Address) : Instruction → Prop
  | .jump b | .call b => pc' = b
  | .jumpTrue b | .jumpFalse b => pc' = pc + 1 ∨ pc' = b
  | .jumpPop | .ret => True
  | _ => pc' = pc + 1

/-- How many values an instruction takes from the stack. -/
def Instruction.takes : Instruction → Nat
  | .pop | .assign _ | .unary _ | .print | .jumpTrue _ | .jumpFalse _ | .jumpPop => 1
  | .binary _ => 2
  | .dialog d => d.defaults.length
  | _ => 0

/-- How many values an instruction puts on the stack. -/
def Instruction.gives : Instruction → Nat
  | .pushValue _ | .pushVariable _ | .copy _ | .unary _ | .binary _ => 1
  | .dialog d => if d.answers then 1 else 0
  | _ => 0

/-- Whether an instruction always leaves the scopes and the names in them as they are. -/
def Instruction.keepsNames : Instruction → Bool
  | .allocConst _ _ | .allocVar _ | .assign _ | .pushScope | .popScope | .call _ => false
  | _ => true

/-- The binding that an instruction at an address makes in the innermost scope, whatever the scopes are. -/
def Instruction.binding? (pc : Address) : Instruction → Option Binding
  | .allocConst name v => some { name := name, kind := .constant, value := v }
  | .allocVar name => some { name := name }
  | .call _ => some { name := Machine.returnName, kind := .constant, value := .address (pc + 1) }
  | _ => none

namespace Machine

/-- What an instruction can do: it leads from an address and some scopes to others. -/
inductive Effect (i : Instruction) (pc : Address) (S : Scopes) (pc' : Address) (S' : Scopes) : Prop
  /-- Only values without names change. -/
  | values (base : Scopes) (taken given : List Value) (hi : i.keepsNames) (hpc : i.Leads pc pc')
      (htaken : taken.length = i.takes) (hgiven : given.length = i.gives) (hS : S = base.pushAll taken)
      (hS' : S' = base.pushAll given)
  /-- A name is bound in the innermost scope. -/
  | binds (b : Binding) (hb : i.binding? pc = some b) (hpc : i.Leads pc pc') (hS' : S' = S.allocate b)
  /-- The nearest binding of a name, which is no constant, is given the top value. -/
  | gives (name : String) (v : Value) (S₁ : Scopes) (b : Binding) (hi : i = .assign name) (hpc : pc' = pc + 1)
      (hS : S = S₁.cons v) (hb : S₁.get? name = some b) (hk : b.kind ≠ .constant)
      (hS' : S' = (S₁.assign? name v).getD S₁)
  /-- The host takes the top value for a name that no scope binds. -/
  | hands (name : String) (v : Value) (S₁ : Scopes) (hi : i = .assign name) (hpc : pc' = pc + 1) (hS : S = S₁.cons v)
      (hfree : S₁.get? name = none) (hS' : S' = S₁)
  /-- A name that no scope binds is bound to the top value. -/
  | creates (name : String) (v : Value) (S₁ : Scopes) (hi : i = .assign name) (hpc : pc' = pc + 1)
      (hS : S = S₁.cons v) (hfree : S₁.get? name = none) (hS' : S' = S₁.allocate { name := name, value := v })
  /-- A new scope is entered. -/
  | enters (hi : i = .pushScope) (hpc : pc' = pc + 1) (hlimit : S.depth < Scopes.limit) (hS' : S' = S.inner)
  /-- The innermost scope is left. -/
  | leaves (hi : i = .popScope) (hpc : pc' = pc + 1) (hframes : S.below = S'.top :: S'.below)

namespace Effect

variable {i : Instruction} {pc pc' : Address} {S S' : Scopes}

theorem leads (h : Effect i pc S pc' S') : i.Leads pc pc' := by
  cases h with
  | values _ _ _ _ hpc => exact hpc
  | binds _ _ hpc => exact hpc
  | gives _ _ _ _ hi hpc => rw [hi]; exact hpc
  | hands _ _ _ hi hpc => rw [hi]; exact hpc
  | creates _ _ _ hi hpc => rw [hi]; exact hpc
  | enters hi hpc => rw [hi]; exact hpc
  | leaves hi hpc => rw [hi]; exact hpc

theorem inner (h : Effect .pushScope pc S pc' S') : S' = S.inner := by
  cases h with
  | enters _ _ _ hS' => exact hS'
  | values _ _ _ hi => cases hi
  | binds _ hb => cases hb
  | gives _ _ _ _ hi => cases hi
  | hands _ _ _ hi => cases hi
  | creates _ _ _ hi => cases hi
  | leaves hi => cases hi

theorem outer (h : Effect .popScope pc S pc' S') : S.below = S'.frames := by
  cases h with
  | leaves _ _ hframes => exact hframes
  | values _ _ _ hi => cases hi
  | binds _ hb => cases hb
  | gives _ _ _ _ hi => cases hi
  | hands _ _ _ hi => cases hi
  | creates _ _ _ hi => cases hi
  | enters hi => cases hi

theorem records {b : Address} (h : Effect (.call b) pc S pc' S') :
    S' = S.allocate { name := returnName, kind := .constant, value := .address (pc + 1) } := by
  cases h with
  | binds _ hb _ hS' => cases hb; exact hS'
  | values _ _ _ hi => cases hi
  | gives _ _ _ _ hi => cases hi
  | hands _ _ _ hi => cases hi
  | creates _ _ _ hi => cases hi
  | enters hi => cases hi
  | leaves hi => cases hi

theorem unchanged (h : Effect .ret pc S pc' S') : S' = S := by
  cases h with
  | values base taken given _ _ htaken hgiven hS hS' =>
    rw [hS, hS', List.eq_nil_of_length_eq_zero htaken, List.eq_nil_of_length_eq_zero hgiven]
  | binds _ hb => cases hb
  | gives _ _ _ _ hi => cases hi
  | hands _ _ _ hi => cases hi
  | creates _ _ _ hi => cases hi
  | enters hi => cases hi
  | leaves hi => cases hi

end Effect

section Inversion

variable {ui : Bool} {pc : Address} {S : Scopes} {i : Instruction} {t : List Exchange} {c' : Config}

theorem yields_pushing {v : Value} {a : Address} (h : (pushing v a S).Yields t (.ok c')) : c' = ⟨a, S.cons v⟩ := by
  unfold pushing at h
  split at h
  · cases h
  · cases h
    rfl

theorem exists_operand_cons (h : 0 < S.items.length) : ∃ v S', S = Scopes.cons v S' := by
  cases hs : S.items with
  | nil => rw [hs] at h; cases h
  | cons v rest =>
    obtain ⟨S', hS', _⟩ := S.exists_cons hs
    exact ⟨v, S', hS'⟩

theorem dialog_effect {d : Dialog} (hoperands : d.defaults.length ≤ S.items.length)
    (h : (advance ui (.dialog d) ⟨pc, S⟩).Yields t (.ok c')) :
    ∃ base taken given, c'.pc = pc + 1 ∧ taken.length = (Instruction.dialog d).takes ∧
      given.length = (Instruction.dialog d).gives ∧ S = Scopes.pushAll taken base ∧
      c'.scopes = Scopes.pushAll given base := by
  -- the operands are taken first; without a user interface only a message is shown
  cases d with
  | message =>
    obtain ⟨text, S₁, rfl⟩ := exists_operand_cons (Nat.lt_of_lt_of_le Nat.zero_lt_two hoperands)
    obtain ⟨kind, S₂, rfl⟩ := exists_operand_cons (S := S₁) (Nat.le_of_succ_le_succ hoperands)
    rw [advance_message] at h
    split at h
    · cases h with
      | ask h => cases h; exact ⟨S₂, [kind, text], [], rfl, rfl, rfl, rfl, rfl⟩
    · cases h
  | msgBox =>
    obtain ⟨title, S₁, rfl⟩ := exists_operand_cons (Nat.lt_of_lt_of_le (Nat.succ_pos 2) hoperands)
    obtain ⟨buttons, S₂, rfl⟩ := exists_operand_cons (S := S₁)
      (Nat.lt_of_lt_of_le Nat.zero_lt_two (Nat.le_of_succ_le_succ hoperands))
    obtain ⟨prompt, S₃, rfl⟩ := exists_operand_cons (S := S₂)
      (Nat.le_of_succ_le_succ (Nat.le_of_succ_le_succ hoperands))
    cases ui with
    | false => rw [advance_dialog_refused _ _ (d := .msgBox) nofun] at h; cases h
    | true =>
      rw [advance_msgBox] at h
      split at h
      · cases h with
        | ask h => cases yields_pushing h; exact ⟨S₃, [prompt, buttons, title], [_], rfl, rfl, rfl, rfl, rfl⟩
      · cases h
  | inputBox =>
    obtain ⟨initial, S₁, rfl⟩ := exists_operand_cons (Nat.lt_of_lt_of_le (Nat.succ_pos 2) hoperands)
    obtain ⟨title, S₂, rfl⟩ := exists_operand_cons (S := S₁)
      (Nat.lt_of_lt_of_le Nat.zero_lt_two (Nat.le_of_succ_le_succ hoperands))
    obtain ⟨prompt, S₃, rfl⟩ := exists_operand_cons (S := S₂)
      (Nat.le_of_succ_le_succ (Nat.le_of_succ_le_succ hoperands))
    cases ui with
    | false => rw [advance_dialog_refused _ _ (d := .inputBox) nofun] at h; cases h
    | true =>
      rw [advance_inputBox] at h
      cases h with
      | ask h => cases yields_pushing h; exact ⟨S₃, [prompt, title, initial], [_], rfl, rfl, rfl, rfl, rfl⟩

/-- An instruction that finds its operands and does not fault has one of the effects. -/
theorem advance_effect (hoperands : i.operands ≤ S.items.length)
    (h : (advance ui i ⟨pc, S⟩).Yields t (.ok c')) : Effect i pc S c'.pc c'.scopes := by
  -- the equation of each instruction shows its effect, and the branches that fail yield no `.ok`
  cases i with
  | allocConst name v =>
    rw [advance_allocConst] at h
    cases h
    exact .binds _ rfl rfl rfl
  | allocVar name =>
    rw [advance_allocVar] at h
    cases h
    exact .binds _ rfl rfl rfl
  | call b =>
    rw [advance_call] at h
    cases h
    exact .binds _ rfl rfl rfl
  | pushValue v =>
    rw [advance_pushValue] at h
    cases yields_pushing h
    exact .values S [] [v] rfl rfl rfl rfl rfl rfl
  | pushVariable name =>
    cases hb : S.get? name with
    | some b =>
      rw [advance_pushVariable_bound _ _ _ hb] at h
      split at h
      · cases h
      · cases yields_pushing h
        exact .values S [] [b.value] rfl rfl rfl rfl rfl rfl
    | none =>
      rw [advance_pushVariable_unbound _ _ _ hb] at h
      obtain ⟨reply, _, _, hreply⟩ := Talk.yields_ask.1 h
      cases reply with
      | none => cases hreply
      | some v =>
        cases yields_pushing hreply
        exact .values S [] [v] rfl rfl rfl rfl rfl rfl
  | pop =>
    obtain ⟨v, S', rfl⟩ := exists_operand_cons hoperands
    rw [advance_pop] at h
    cases h
    exact .values S' [v] [] rfl rfl rfl rfl rfl rfl
  | copy depth =>
    rw [advance_copy _ _ (List.getElem?_eq_getElem hoperands)] at h
    cases yields_pushing h
    exact .values S [] [_] rfl rfl rfl rfl rfl rfl
  | assign name =>
    obtain ⟨v, S', rfl⟩ := exists_operand_cons hoperands
    cases hb : S'.get? name with
    | some b =>
      rw [advance_assign_bound _ _ _ _ hb] at h
      split at h
      · cases h
      · rename_i hk
        cases h
        refine .gives name v S' b rfl rfl rfl hb hk ?_
        rw [Scopes.name_of_get? hb]
    | none =>
      rw [advance_assign_unbound _ _ _ _ hb] at h
      obtain ⟨taken, _, _, htaken⟩ := Talk.yields_ask.1 h
      -- either the host has taken the value over, or a variable is allocated for it
      cases (taken : Bool) with
      | true => cases htaken; exact .hands name v S' rfl rfl rfl hb rfl
      | false => cases htaken; exact .creates name v S' rfl rfl rfl hb rfl
  | binary op =>
    obtain ⟨r, S₁, rfl⟩ := exists_operand_cons (Nat.lt_of_lt_of_le Nat.zero_lt_two hoperands)
    obtain ⟨l, S', rfl⟩ := exists_operand_cons (S := S₁) (Nat.le_of_succ_le_succ hoperands)
    rw [advance_binary] at h
    split at h
    · cases yields_pushing h
      exact .values S' [l, r] [_] rfl rfl rfl rfl rfl rfl
    · cases h
  | unary op =>
    obtain ⟨v, S', rfl⟩ := exists_operand_cons hoperands
    rw [advance_unary] at h
    split at h
    · cases yields_pushing h
      exact .values S' [v] [_] rfl rfl rfl rfl rfl rfl
    · cases h
  | print =>
    obtain ⟨v, S', rfl⟩ := exists_operand_cons hoperands
    rw [advance_print] at h
    cases h with
    | ask h => cases h; exact .values S' [v] [] rfl rfl rfl rfl rfl rfl
  | notify n =>
    rw [advance_notify] at h
    cases h with
    | ask h => cases h; exact .values S [] [] rfl rfl rfl rfl rfl rfl
  | dialog d =>
    obtain ⟨base, taken, given, hpc, htaken, hgiven, hS, hS'⟩ := dialog_effect hoperands h
    exact .values base taken given rfl hpc htaken hgiven hS hS'
  | jump b =>
    rw [advance_jump] at h
    cases h
    exact .values S [] [] rfl rfl rfl rfl rfl rfl
  | jumpTrue b =>
    obtain ⟨v, S', rfl⟩ := exists_operand_cons hoperands
    rw [advance_jumpTrue] at h
    split at h
    · rename_i taken _
      cases h
      refine .values S' [v] [] rfl ?_ rfl rfl rfl rfl
      cases taken with
      | true => exact .inr rfl
      | false => exact .inl rfl
    · cases h
  | jumpFalse b =>
    obtain ⟨v, S', rfl⟩ := exists_operand_cons hoperands
    rw [advance_jumpFalse] at h
    split at h
    · rename_i taken _
      cases h
      refine .values S' [v] [] rfl ?_ rfl rfl rfl rfl
      cases taken with
      | true => exact .inl rfl
      | false => exact .inr rfl
    · cases h
  | jumpPop =>
    obtain ⟨v, S', rfl⟩ := exists_operand_cons hoperands
    cases v with
    | address a =>
      rw [advance_jumpPop] at h
      cases h
      exact .values S' [.address a] [] rfl trivial rfl rfl rfl rfl
    | number | text | boolean | uninitialized => cases h
  | pushScope =>
    rw [advance_pushScope] at h
    split at h
    · cases h
    · rename_i hlimit
      cases h
      exact .enters rfl rfl (Nat.lt_of_not_le hlimit) rfl
  | popScope =>
    obtain ⟨top, below, depth, hdepth⟩ := S
    cases below with
    | nil => cases h
    | cons next rest =>
      rw [advance_popScope] at h
      cases h
      exact .leaves rfl rfl rfl
  | ret =>
    obtain ⟨a, -, hret⟩ | hret := advance_ret_cases ui pc S
    · rw [hret] at h
      cases h
      exact .values S [] [] rfl trivial rfl rfl rfl rfl
    · rw [hret] at h
      cases h

end Inversion

/-! ## Scopes that are kept -/

/-- The outermost scopes are similar to the given ones, and the innermost scope is not among them. -/
def Retains (lower : List Scope) (S : Scopes) : Prop :=
  ∃ upper lower', S.below = upper ++ lower' ∧ List.Forall₂ Scope.Similar lower lower'

section Retains

variable {i : Instruction} {pc pc' : Address} {S S' : Scopes} {lower : List Scope}

theorem retains_below (S : Scopes) : Retains S.below S := ⟨[], S.below, rfl, forall₂_similar_refl _⟩

theorem Retains.length_le (h : Retains lower S) : lower.length ≤ S.below.length := by
  obtain ⟨upper, lower', hbelow, hsimilar⟩ := h
  rw [hbelow, List.length_append, hsimilar.length_eq]
  exact Nat.le_add_left _ _

/-- Where no further scopes are around, they are all similar to the given ones. -/
theorem Retains.similar (h : Retains lower S) (hlength : S.below.length = lower.length) :
    List.Forall₂ Scope.Similar lower S.below := by
  obtain ⟨upper, lower', hbelow, hsimilar⟩ := h
  have hupper : upper = [] := by
    rw [hbelow, List.length_append, hsimilar.length_eq] at hlength
    exact List.eq_nil_of_length_eq_zero (by omega)
  rw [hbelow, hupper]
  exact hsimilar

theorem Retains.of_similar (h : Retains lower S) (hbelow : List.Forall₂ Scope.Similar S.below S'.below) :
    Retains lower S' := by
  obtain ⟨upper, lower', hsplit, hsimilar⟩ := h
  have hrest := List.forall₂_drop upper.length hbelow
  rw [hsplit, List.drop_left] at hrest
  exact ⟨S'.below.take upper.length, _, (List.take_append_drop upper.length S'.below).symm,
    forall₂_similar_trans hsimilar hrest⟩

/-- An instruction that leaves no scope keeps those around the innermost one. -/
theorem Effect.retains (h : Effect i pc S pc' S') (hi : i ≠ .popScope) (hS : Retains lower S) : Retains lower S' := by
  cases h with
  | values base taken given _ _ _ _ hS₁ hS' =>
    refine hS.of_similar ?_
    rw [hS₁, hS', Scopes.below_pushAll, Scopes.below_pushAll]
    exact forall₂_similar_refl _
  | binds b _ _ hS' => subst hS'; exact hS
  | gives name v S₁ b _ _ hS₁ hb hk hS' =>
    subst hS₁ hS'
    exact hS.of_similar (Scopes.similar_assign? hb hk).below
  | hands name v S₁ _ _ hS₁ _ hS' => subst hS₁ hS'; exact hS
  | creates name v S₁ _ _ hS₁ _ hS' => subst hS₁ hS'; exact hS
  | enters _ _ _ hS' =>
    subst hS'
    obtain ⟨upper, lower', hbelow, hsimilar⟩ := hS
    exact ⟨S.top :: upper, lower', congrArg (S.top :: ·) hbelow, hsimilar⟩
  | leaves hpop => exact absurd hpop hi

/-- Leaving a scope that is not one of the given ones keeps them. -/
theorem Effect.retains_leaving (h : Effect .popScope pc S pc' S') (hS : Retains lower S) :
    Retains lower S' ∨ List.Forall₂ Scope.Similar lower S'.frames := by
  have hframes : S.below = S'.top :: S'.below := h.outer
  obtain ⟨upper, lower', hbelow, hsimilar⟩ := hS
  rw [hframes] at hbelow
  cases upper with
  | nil => exact .inr (by rw [List.nil_append] at hbelow; rw [Scopes.frames, hbelow]; exact hsimilar)
  | cons first upper =>
    obtain ⟨_, hrest⟩ := List.cons.inj hbelow
    exact .inl ⟨upper, lower', hrest, hsimilar⟩

end Retains

/-! ## Runs -/

section Runs

variable {σ : Type} {host : Host (StateM σ)} {options : Options} {lines : Array Line} {M₀ M M' : Machine}
  {st₀ st st' : σ} {calls : List Address} {L : Address → Option Layout}

/-- There always is a scope around the innermost one. -/
theorem Around.below_ne_nil {inside : Bool} {waiting : List (List Cell)} {back : Option Value} {below : List Scope}
    (h : Around L inside waiting back below calls) : below ≠ [] := by
  induction h with
  | script => exact List.cons_ne_nil _ _
  | routine _ _ ih => exact ih
  | waiting _ _ _ => exact List.cons_ne_nil _ _

theorem Laid.below_ne_nil {c : Config} (h : Laid L c calls) : c.scopes.below ≠ [] := by
  obtain ⟨l, _, hS⟩ := h
  cases l with
  | shaped s => exact hS.2.below_ne_nil
  | returned s => exact Around.below_ne_nil hS

/-- A turn that does not end the run has one of the effects. -/
theorem turn_effect {line : Line} (hL : Describes L lines) (h : Laid L M.config calls)
    (hline : lines[M.pc]? = some line) (hturn : turn host options line M st = (.ok () M', st')) :
    Effect line.instruction M.pc M.scopes M'.pc M'.scopes := by
  obtain ⟨t, hyields⟩ := turn_yields hturn
  exact advance_effect ((h.safe hL).operands line hline) hyields

/-- The scopes that a run begins inside of are kept by the whole run. -/
theorem Reaches.retains (hL : Describes L lines) (h₀ : Laid L M₀.config []) {shared : Scope}
    (hshared : M₀.scopes.below = [shared]) (h : Reaches host options lines M₀ st₀ M st calls) :
    Retains [shared] M.scopes := by
  induction h with
  | start => exact hshared ▸ retains_below M₀.scopes
  | turn h hline hturn ih =>
    rename_i line
    have heffect := turn_effect hL (h.laid hL h₀) hline hturn
    have hnext := (h.turn hline hturn).laid hL h₀
    by_cases hpop : line.instruction = .popScope
    · rw [hpop] at heffect
      rcases heffect.retains_leaving ih with hkept | hall
      · exact hkept
      · -- a single scope would be left
        cases hall with
        | cons _ hrest => exact absurd (List.forall₂_nil_left_iff.1 hrest) hnext.below_ne_nil
    · exact heffect.retains hpop ih

end Runs

end Machine

end MacroBasic
