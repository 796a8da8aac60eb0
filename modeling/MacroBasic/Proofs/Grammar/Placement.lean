/-
Code that keeps to realms. Where the same realms are around all the code of an expression, each of its instructions
leads to where they are around too, calls only routines whose realms stand in one of them, and binds only parameters
for such a call.
-/
import MacroBasic.Proofs.Grammar.CallSites
import MacroBasic.Proofs.Machine.Realms

namespace MacroBasic

open Machine

/-- Whether an instruction always goes on at the next address and binds no name. -/
def Instruction.advances : Instruction → Bool
  | .pushValue _ | .pushVariable _ | .pop | .copy _ | .binary _ | .unary _ | .print | .notify _ | .dialog _
  | .pushScope | .popScope => true
  | _ => false

section Expressions

variable (lines : Array Line) (L : Address → Option Layout) (T : Address → Option (List Realm))
  (sites : List CallSite)

/-- The given realms are around all addresses from one to another. -/
def Within (us : List Realm) (a b : Nat) : Prop := ∀ c, a ≤ c → c ≤ b → T c = some us

/-- Where the given realms are around, a routine may be called if its realm stands in one of them. -/
def callable (us : List Realm) : Rules where
  name _ := True
  routine r := ∃ u around, T r.entry = some (u :: around) ∧ around <:+ us ∧ u.home = .routine r.entry ∧
    returnName ∈ u.names ∧ r.parameters ⊆ u.names

/-- An instruction keeps to the realms at its address, and it gives a name a value only as a parameter of a call. -/
structure Fixed (b : Nat) (i : Instruction) : Prop where
  placed : Placed lines L T b i
  given : ∀ x, i = .assign x → ∃ c ∈ sites, c.ready ≤ b ∧ b < c.calling

end Expressions

section Expressions

variable {lines : Array Line} {L : Address → Option Layout} {T : Address → Option (List Realm)}
  {sites : List CallSite} {us : List Realm} {a b : Nat} {i : Instruction} {code code' : List Instruction}

theorem Within.mono {a' b' : Nat} (h : Within T us a b) (ha : a ≤ a' := by omega) (hb : b' ≤ b := by omega) :
    Within T us a' b' :=
  fun c hac hcb => h c (ha.trans hac) (hcb.trans hb)

theorem placed_advances (hi : i.advances) (h : T (b + 1) = T b) : Placed lines L T b i := by
  cases i with
  | allocConst | allocVar | assign | jump | jumpTrue | jumpFalse | jumpPop | call | ret => cases hi
  | _ => exact h

theorem fixed_advances (hi : i.advances) (h : T (b + 1) = T b) : Fixed lines L T sites b i :=
  ⟨placed_advances hi h, fun x hx => by rw [hx] at hi; cases hi⟩

theorem eachAt_advances (h : Within T us a (a + code.length)) (hcode : ∀ x ∈ code, x.advances) :
    EachAt (Fixed lines L T sites) a code := by
  intro n x hx
  have hn := (List.getElem?_eq_some_iff.1 hx).1
  refine fixed_advances (hcode x (List.mem_of_getElem? hx)) ?_
  rw [h _ (by omega) (by omega), h _ (by omega) (by omega)]

/-- Code that advances may follow. -/
theorem EachAt.before (h : EachAt (Fixed lines L T sites) a code) (hT : Within T us a (a + (code ++ code').length))
    (hcode : ∀ x ∈ code', x.advances) : EachAt (Fixed lines L T sites) a (code ++ code') := by
  rw [List.length_append] at hT
  exact h.append (eachAt_advances hT.mono hcode) rfl

theorem takes_of_callable {r : Routine} (hr : (callable T us).routine r) : Takes T r := by
  intro u around hentry
  obtain ⟨u', around', hentry', _, _, _, hparameters⟩ := hr
  rw [hentry] at hentry'
  cases hentry'
  exact hparameters

theorem placed_call {r : Routine} (hr : (callable T us).routine r) (hb : T b = some us) (hnext : T (b + 1) = some us) :
    Placed lines L T b (.call r.entry) := by
  obtain ⟨u, around, hentry, haround, hhome, hreturn, _⟩ := hr
  exact ⟨hnext.trans hb.symm, us, u, around, hb, hentry, haround, hhome, hreturn⟩

/-- Binding parameters one after the other and calling the routine. -/
theorem fixed_bind {r : Routine} (hr : (callable T us).routine r) {c : CallSite} (hc : c ∈ sites) :
    ∀ (parameters : List String) {b : Nat}, parameters ⊆ r.parameters →
      CodeAt lines b (parameters.flatMap (fun p => [Instruction.allocVar p, .assign p]) ++
        [Instruction.call r.entry, .popScope]) →
      Within T us b (b + 2 * parameters.length + 2) → c.ready ≤ b → b + 2 * parameters.length = c.calling →
      Prepares lines r b ∧ EachAt (Fixed lines L T sites) b
        (parameters.flatMap (fun p => [Instruction.allocVar p, .assign p]) ++ [Instruction.call r.entry, .popScope])
  | [], b, _, h, hT, _, _ => by
    obtain ⟨line, hline, hi⟩ := h.head
    have hb : T b = some us := hT b (by omega) (by omega)
    have hnext : T (b + 1) = some us := hT (b + 1) (by omega) (by simp)
    refine ⟨.call hline hi, .cons ⟨placed_call hr hb hnext, nofun⟩ (.one (fixed_advances rfl ?_))⟩
    rw [hnext]
    exact hT _ (by omega) (by simp)
  | p :: rest, b, hparameters, h, hT, hready, hcalling => by
    rw [List.length_cons] at hT hcalling
    obtain ⟨line, hline, hi⟩ := h.head
    obtain ⟨line', hline', hi'⟩ := h.tail.head
    have hp : p ∈ r.parameters := hparameters List.mem_cons_self
    obtain ⟨hprepares, hrest⟩ := fixed_bind hr hc rest (b := b + 1 + 1)
      (fun q hq => hparameters (List.mem_cons_of_mem _ hq)) h.tail.tail hT.mono (by omega)
      (by omega)
    have hassign : Prepares lines r (b + 1) := .bind hp hline' (.inr hi') hprepares
    have halloc : Prepares lines r b := .bind hp hline (.inl hi) hassign
    have hb : T b = some us := hT b (by omega) (by omega)
    have hb₁ : T (b + 1) = some us := hT (b + 1) (by omega) (by omega)
    have hb₂ : T (b + 1 + 1) = some us := hT (b + 1 + 1) (by omega) (by omega)
    refine ⟨halloc, .cons ⟨⟨hb₁.trans hb.symm, .inr ⟨r, halloc, takes_of_callable hr⟩⟩, nofun⟩
      (.cons ⟨hb₂.trans hb₁.symm, ?_⟩ hrest)⟩
    rintro _ ⟨⟩
    exact ⟨c, hc, by omega, by omega⟩

/-- The code of a call, of which the arguments keep to the realms around it. -/
theorem fixed_call {r : Routine} {arguments : List Expr} {inExpression : Bool}
    (hc : ⟨a, r, arguments, inExpression⟩ ∈ sites) (hr : (callable T us).routine r)
    (h : CodeAt lines a (CallSite.code ⟨a, r, arguments, inExpression⟩))
    (hT : Within T us a (a + (CallSite.code ⟨a, r, arguments, inExpression⟩).length))
    (harguments : EachAt (Fixed lines L T sites) (a + 1) (codeOfAll (a + 1) arguments)) :
    EachAt (Fixed lines L T sites) a (CallSite.code ⟨a, r, arguments, inExpression⟩) := by
  have hlength : (.pushScope :: codeOfAll (a + 1) arguments : List Instruction).length = 1 + sizeOfAll arguments := by
    rw [List.length_cons, length_codeOfAll, Nat.add_comm]
  have hsize : a + 1 + sizeOfAll arguments + 2 * r.parameters.length + 2 ≤
      a + (CallSite.code ⟨a, r, arguments, inExpression⟩).length := by
    simp only [CallSite.code, List.length_append, hlength, Routine.length_enter]
    omega
  have henter := h.left.right (b := a + 1 + sizeOfAll arguments) (by rw [hlength]; omega)
  have hbind := fixed_bind (L := L) hr hc r.parameters.reverse (fun p hp => List.mem_reverse.1 hp) henter
    (hT.mono (by omega) (by rw [List.length_reverse]; exact hsize)) (Nat.le_refl _)
    (by rw [List.length_reverse]; rfl)
  refine EachAt.before ((EachAt.cons (fixed_advances rfl ?_) harguments).append hbind.2 ?_) hT ?_
  · rw [hT _ (by omega) (by omega), hT _ (by omega) (by omega)]
  · rw [hlength]
    omega
  · cases inExpression <;> simp [Instruction.advances]

mutual

/-- The code of an expression keeps to the realms around it. -/
theorem Expr.fixed : (e : Expr) → ∀ {a : Nat}, e.Obeys (callable T us) → e.sites a ⊆ sites →
    CodeAt lines a (e.code a) → Within T us a (a + e.size) → EachAt (Fixed lines L T sites) a (e.code a)
  | .literal _, _, _, _, _, hT | .variable _, _, _, _, _, hT =>
    eachAt_advances hT (by simp [Expr.code, Instruction.advances])
  | .call r arguments, a, hobeys, hsites, h, hT => by
    obtain ⟨hr, _, harguments⟩ := hobeys
    have hargs := fixed_all arguments harguments (fun c hc => hsites (List.mem_cons_of_mem _ hc)) h.left.left.tail
      (hT.mono (by omega) (by rw [Expr.size]; omega))
    have hcode : (Expr.call r arguments).code a = CallSite.code ⟨a, r, arguments, true⟩ := rfl
    rw [← Expr.length_code a, hcode] at hT
    rw [hcode] at h ⊢
    exact fixed_call (hsites List.mem_cons_self) hr h hT hargs
  | .unary _ e, a, hobeys, hsites, h, hT =>
    (e.fixed hobeys hsites h.left (hT.mono (by omega) (by rw [Expr.size]; omega))).before
      (by rw [← Expr.length_code a] at hT; exact hT) (by simp [Instruction.advances])
  | .binary _ l r, a, hobeys, hsites, h, hT => by
    have hcode := h.left.right (b := a + l.size) (by rw [l.length_code])
    obtain ⟨hl, hr⟩ := List.append_subset.1 hsites
    rw [Expr.size] at hT
    exact EachAt.before (EachAt.append (l.fixed hobeys.1 hl h.left.left hT.mono)
      (r.fixed hobeys.2 hr hcode hT.mono) (by rw [l.length_code]))
      (hT.mono (by omega) (by simp; omega)) (by simp [Instruction.advances])
  | .conjunction first rest, a, hobeys, hsites, h, hT => by
    obtain ⟨hfirstCode, hrestCode, _⟩ := h.conjunction
    obtain ⟨hfirst, hrest⟩ := List.append_subset.1 hsites
    rw [Expr.size] at hT
    have hT₀ : T (a + first.size + sizeOfRest rest) = some us := hT _ (by omega) (by omega)
    have hT₁ : T (a + first.size + sizeOfRest rest + 1) = some us := hT _ (by omega) (by omega)
    have hT₂ : T (a + first.size + sizeOfRest rest + 2) = some us := hT _ (by omega) (by omega)
    have hT₃ : T (a + first.size + sizeOfRest rest + 3) = some us := hT _ (by omega) (by omega)
    have hT₄ : T (a + first.size + sizeOfRest rest + 4) = some us := hT _ (by omega) (by omega)
    refine eachAt_conjunction.2 ⟨first.fixed hobeys.1 hfirst hfirstCode hT.mono,
      fixed_rest rest hobeys.2 hrest hrestCode hT.mono hT₃, ?_⟩
    refine .cons ⟨⟨hT₁.trans hT₀.symm, hT₃.trans hT₀.symm⟩, nofun⟩ ?_
    refine .cons (fixed_advances rfl (hT₂.trans hT₁.symm)) ?_
    exact .cons ⟨hT₄.trans hT₂.symm, nofun⟩ (.one (fixed_advances rfl (hT₄.trans hT₃.symm)))
  | .choice c x y, a, hobeys, hsites, h, hT => by
    obtain ⟨hcCode, hyes, hno⟩ := h.choice
    obtain ⟨hsites, hy⟩ := List.append_subset.1 hsites
    obtain ⟨hc, hx⟩ := List.append_subset.1 hsites
    rw [Expr.size] at hT
    have hT₀ : T (a + c.size) = some us := hT _ (by omega) (by omega)
    have hT₁ : T (a + c.size + 1) = some us := hT _ (by omega) (by omega)
    have hT₂ : T (a + c.size + x.size + 1) = some us := hT _ (by omega) (by omega)
    have hT₃ : T (a + c.size + x.size + 2) = some us := hT _ (by omega) (by omega)
    have hT₄ : T (a + c.size + x.size + 2 + y.size) = some us := hT _ (by omega) (by omega)
    refine eachAt_choice.2 ⟨c.fixed hobeys.1 hc hcCode hT.mono, .cons ?_ ?_, .cons ?_ ?_⟩
    · exact ⟨⟨hT₁.trans hT₀.symm, hT₃.trans hT₀.symm⟩, nofun⟩
    · exact x.fixed hobeys.2.1 hx hyes.tail hT.mono
    · exact ⟨hT₄.trans hT₂.symm, nofun⟩
    · exact y.fixed hobeys.2.2 hy hno.tail hT.mono
  | .dialog d slots, a, hobeys, hsites, h, hT => by
    rw [Expr.size] at hT
    refine EachAt.before (fixed_slots slots hobeys hsites h.left hT.mono)
      (hT.mono (by omega) ?_) ?_
    · rw [List.length_append, length_codeOfSlots, List.length_cons]
      split <;> simp
    · split <;> simp [Instruction.advances]

theorem fixed_all : (es : List Expr) → ∀ {a : Nat}, AllObey (callable T us) es → sitesOfAll a es ⊆ sites →
    CodeAt lines a (codeOfAll a es) → Within T us a (a + sizeOfAll es) →
    EachAt (Fixed lines L T sites) a (codeOfAll a es)
  | [], _, _, _, _, _ => .nil
  | e :: rest, a, hobeys, hsites, h, hT => by
    rw [sizeOfAll] at hT
    have hrest := h.right (b := a + e.size) (by rw [e.length_code])
    exact (e.fixed hobeys.1 (fun c hc => hsites (List.mem_append_left _ hc)) h.left
      hT.mono).append
      (fixed_all rest hobeys.2 (fun c hc => hsites (List.mem_append_right _ hc)) hrest hT.mono)
      (by rw [e.length_code])

theorem fixed_rest : (es : List Expr) → ∀ {fails a : Nat}, AllObey (callable T us) es → sitesOfRest a es ⊆ sites →
    CodeAt lines a (codeOfRest fails a es) → Within T us a (a + sizeOfRest es) → T fails = some us →
    EachAt (Fixed lines L T sites) a (codeOfRest fails a es)
  | [], _, _, _, _, _, _, _ => .nil
  | e :: rest, fails, a, hobeys, hsites, h, hT, hfails => by
    rw [sizeOfRest] at hT
    have hrest := h.right (b := a + 1 + e.size) (by rw [List.length_cons, e.length_code]; omega)
    obtain ⟨he, hmore⟩ := List.append_subset.1 hsites
    have hT₀ : T a = some us := hT _ (by omega) (by omega)
    have hT₁ : T (a + 1) = some us := hT _ (by omega) (by omega)
    exact (EachAt.cons ⟨⟨hT₁.trans hT₀.symm, hfails.trans hT₀.symm⟩, nofun⟩
      (e.fixed hobeys.1 he h.left.tail hT.mono)).append
      (fixed_rest rest hobeys.2 hmore hrest hT.mono hfails) (by simp; omega)

theorem fixed_slots : (slots : List Slot) → ∀ {a : Nat} {defaults : List Value}, SlotsObey (callable T us) slots →
    sitesOfSlots a defaults slots ⊆ sites → CodeAt lines a (codeOfSlots a defaults slots) →
    Within T us a (a + sizeOfSlots defaults slots) →
    EachAt (Fixed lines L T sites) a (codeOfSlots a defaults slots)
  | [], a, defaults, _, _, _, hT => by
    rw [← length_codeOfSlots a] at hT
    exact eachAt_advances hT (List.forall_mem_map.2 fun _ _ => rfl)
  | slot :: rest, a, defaults, hobeys, hsites, h, hT => by
    rw [sizeOfSlots] at hT
    have hlength : a + (slot.code a defaults.head?).length = a + slot.size defaults.isEmpty := by
      rw [slot.length_code]
      cases defaults <;> rfl
    obtain ⟨hslot, hmore⟩ := List.append_subset.1 hsites
    have hfirst := slot.fixed hobeys.1 hslot h.left hT.mono
    exact hfirst.append (fixed_slots rest hobeys.2 hmore (h.right hlength) hT.mono) hlength

theorem Slot.fixed : (slot : Slot) → ∀ {a : Nat} {standard : Option Value}, slot.Obeys (callable T us) →
    slot.sites a ⊆ sites → CodeAt lines a (slot.code a standard) →
    Within T us a (a + (slot.code a standard).length) → EachAt (Fixed lines L T sites) a (slot.code a standard)
  | .omitted, _, none, _, _, _, _ => .nil
  | .omitted, _, some v, _, _, _, hT => eachAt_advances hT (by simp [Slot.code, Instruction.advances])
  | .given e, a, standard, hobeys, hsites, h, hT => by
    rw [Slot.code] at h hT ⊢
    refine EachAt.before (e.fixed hobeys hsites h.left (hT.mono (by omega) (by simp))) hT ?_
    split <;> simp [Instruction.advances]

end

end Expressions

end MacroBasic
