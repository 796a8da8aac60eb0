/-
The code of an expression does what the evaluator does. It leaves the value on the stack and everything
else as it was, says to the host what the evaluator says, and faults where the evaluator fails.
-/
import MacroBasic.Proofs.Evaluation.Expression
import MacroBasic.Proofs.Grammar.Pieces

namespace MacroBasic

open Machine

/-- Where code leads that goes to an address with new scopes or faults with the names as they were. -/
def goalOf (a : Address) (s : Scopes) : Except FaultCode Scopes → Goal
  | .ok s' => .reach ⟨a, s'⟩
  | .error code => .fault code s.bindings

theorem goalOf_pushAll (a : Address) (s : Scopes) (vs : List Value) (r : Except FaultCode Scopes) :
    goalOf a (s.pushAll vs) r = goalOf a s r := by
  cases r with
  | ok s' => rfl
  | error code => rw [goalOf, goalOf, Scopes.bindings_pushAll]

theorem calculationFault_code (role : String) (i : Instruction) (f : Fault) :
    (calculationFault role i f).code = f.code := by
  unfold calculationFault
  split
  · rename_i h; exact h.symm
  · rfl

section Simulation

variable {ui : Bool} {lines : Array Line} {full : Prop} {a : Address} {s : Scopes} {t : List Exchange}
  {code : List Instruction}

/-- Code for one conversation and then for the one behind it. -/
theorem leads_bind {α β : Type} {x : Talk FaultCode α} {k : α → Talk FaultCode β} {f : α → Scopes}
    {g : β → Scopes} {b e : Address} {c : Config} {r : Except FaultCode β} (hr : (x >>= k).Yields t r)
    (hx : ∀ t₁ r₁, x.Yields t₁ r₁ → Leads ui lines full c t₁ (goalOf b s (r₁.map f)))
    (hk : ∀ v t₂, (k v).Yields t₂ r → Leads ui lines full ⟨b, f v⟩ t₂ (goalOf e s (r.map g))) :
    Leads ui lines full c t (goalOf e s (r.map g)) := by
  rcases Talk.yields_bind.1 hr with ⟨code, hfail, rfl⟩ | ⟨v, t₁, t₂, rfl, hv, hrest⟩
  · exact hx t (.error code) hfail
  · exact (hx t₁ (.ok v) hv).trans (hk v t₂ hrest)

/-- Code that goes on wherever it comes to an end. -/
theorem leads_onward {b e : Address} {c : Config} {r : Except FaultCode Scopes}
    (h : Leads ui lines full c t (goalOf b s r)) (hk : ∀ s', Leads ui lines full ⟨b, s'⟩ [] (.reach ⟨e, s'⟩)) :
    Leads ui lines full c t (goalOf e s r) := by
  cases r with
  | error code => exact h
  | ok s' =>
    have := h.trans (hk s')
    rwa [List.append_nil] at this

/-! ## Single instructions -/

theorem values_lead {vs : List Value} (h : CodeAt lines a (vs.map .pushValue))
    (hf : Stack.limit < s.top.stack.size + vs.length → full) :
    Leads ui lines full ⟨a, s⟩ [] (.reach ⟨a + vs.length, s.pushAll vs⟩) := by
  induction vs generalizing a s with
  | nil => exact .here
  | cons v vs ih =>
    rw [List.map_cons] at h
    have hpush : Leads ui lines full ⟨a, s⟩ [] (.reach ⟨a + 1, s.cons v⟩) :=
      h.pushes (advance_pushValue ui a s v) fun hfull => hf (by
        have : Stack.limit ≤ s.top.stack.size := hfull
        rw [List.length_cons]; omega)
    have hrest := ih (s := s.cons v) h.tail (fun hlt => hf (by
      rw [Scopes.size_cons] at hlt; rw [List.length_cons]; omega))
    rw [Nat.add_assoc, Nat.add_comm 1] at hrest
    exact hpush.trans hrest

theorem readName_leads {name : String} {r : Except FaultCode Value} (h : CodeAt lines a (.pushVariable name :: code))
    (hr : (readName s.lookup name).Yields t r) (hf : s.Full → full) :
    Leads ui lines full ⟨a, s⟩ t (goalOf (a + 1) s (r.map s.cons)) := by
  unfold readName at hr
  cases hb : s.lookup name with
  | some b =>
    rw [hb] at hr
    have hadv := advance_pushVariable_bound ui a s hb
    by_cases hu : b.value.isUninitialized = true
    · simp only [hu, if_true] at hr hadv
      cases hr
      exact h.fails hadv
    · simp only [hu] at hr hadv
      cases hr
      exact h.pushes hadv hf
  | none =>
    rw [hb] at hr
    have hadv := advance_pushVariable_unbound ui a s hb
    obtain ⟨reply, t', rfl, hnext⟩ := Talk.yields_ask.1 hr
    cases reply with
    | none => cases hnext; exact h.asks_fails hadv none rfl
    | some v => cases hnext; exact h.asks_pushes hadv (some v) rfl hf

theorem unary_leads {op : UnaryOperator} {v : Value} {r : Except FaultCode Value}
    (h : CodeAt lines a (.unary op :: code)) (hr : (Talk.calculate (op.apply v)).Yields t r) (hf : s.Full → full) :
    Leads ui lines full ⟨a, s.cons v⟩ t (goalOf (a + 1) s (r.map s.cons)) := by
  obtain ⟨rfl, rfl⟩ := Talk.yields_calculate.1 hr
  have hadv := advance_unary ui a s op v
  cases happly : op.apply v with
  | ok w => rw [happly] at hadv; exact h.pushes hadv hf
  | error f =>
    rw [happly] at hadv
    have hfault : Leads ui lines full _ _ _ := h.fails hadv
    rwa [calculationFault_code] at hfault

theorem binary_leads {op : BinaryOperator} {x y : Value} {r : Except FaultCode Value}
    (h : CodeAt lines a (.binary op :: code)) (hr : (Talk.calculate (op.apply x y)).Yields t r)
    (hf : s.Full → full) :
    Leads ui lines full ⟨a, (s.cons x).cons y⟩ t (goalOf (a + 1) s (r.map s.cons)) := by
  obtain ⟨rfl, rfl⟩ := Talk.yields_calculate.1 hr
  have hadv := advance_binary ui a s op x y
  cases happly : op.apply x y with
  | ok w => rw [happly] at hadv; exact h.pushes hadv hf
  | error f =>
    rw [happly] at hadv
    have hfault : Leads ui lines full _ _ _ := h.fails hadv
    rwa [calculationFault_code] at hfault

/-- A branch on false: what follows does it for a true value, its target for a false one. -/
theorem jumpFalse_leads {α : Type} {b : Address} {v : Value} (goal : Except FaultCode α → Goal)
    {next : Bool → Talk FaultCode α} {r : Except FaultCode α} (h : CodeAt lines a (.jumpFalse b :: code))
    (hgoal : ∀ c, goal (.error c) = .fault c s.bindings)
    (hr : (Talk.calculate v.toBoolean >>= next).Yields t r)
    (htrue : (next true).Yields t r → Leads ui lines full ⟨a + 1, s⟩ t (goal r))
    (hfalse : (next false).Yields t r → Leads ui lines full ⟨b, s⟩ t (goal r)) :
    Leads ui lines full ⟨a, s.cons v⟩ t (goal r) := by
  have hadv := advance_jumpFalse ui a s b v
  cases hb : v.toBoolean with
  | error f =>
    rw [hb] at hr hadv
    cases hr
    have hfault : Leads ui lines full _ _ _ := h.fails hadv
    rw [calculationFault_code] at hfault
    rw [hgoal]
    exact hfault
  | ok x =>
    rw [hb] at hr hadv
    have hjump : Leads ui lines full _ _ _ := h.silent hadv
    cases x with
    | true => exact hjump.trans (htrue hr)
    | false => exact hjump.trans (hfalse hr)

/-- The place that pushes false for a chain of `AND`. -/
theorem falsePad_leads {es : List Expr} (h : CodeAt lines a (codeOfConjuncts a es)) (hf : s.Full → full) :
    Leads ui lines full ⟨a + sizeOfRest es + 3, s⟩ [] (.reach ⟨a + (sizeOfRest es + 4), s.cons (.boolean false)⟩) := by
  obtain ⟨code, hcode, hlen⟩ := codeOfConjuncts_snoc a es
  rw [hcode] at h
  have hpad := h.right (b := a + sizeOfRest es + 3) (by rw [hlen, Nat.add_assoc])
  exact hpad.pushes (advance_pushValue ui _ s (.boolean false)) hf

/-! ## Dialogs -/

/-- The code of a dialog behind that of its parameters. -/
def dialogTail (d : Dialog) : List Instruction :=
  .dialog d :: if d.answers then [] else [.pushValue (.boolean true)]

theorem converse_message {kind text v : Value} (h : (Dialog.converse ui .message [kind, text]).Yields t (.ok v)) :
    v = .boolean true := by
  rw [Dialog.converse] at h
  rcases Talk.yields_bind.1 h with ⟨_, _, he⟩ | ⟨n, _, _, _, _, hrest⟩
  · cases he
  · obtain ⟨_, _, _, hdone⟩ := Talk.yields_ask.1 hrest
    cases hdone
    rfl

theorem message_leads {kind text : Value} {r : Except FaultCode Value} (h : CodeAt lines a (.dialog .message :: code))
    (hr : (Dialog.converse ui .message [kind, text]).Yields t r) :
    Leads ui lines full ⟨a, (s.cons kind).cons text⟩ t (goalOf (a + 1) s (r.map fun _ => s)) := by
  have hadv := advance_message ui a s kind text
  rw [Dialog.converse] at hr
  cases hn : kind.toInteger with
  | error f =>
    rw [hn] at hr hadv
    cases hr
    have hfault : Leads ui lines full _ _ _ := h.fails hadv
    rwa [calculationFault_code] at hfault
  | ok n =>
    rw [hn] at hr hadv
    obtain ⟨reply, t', rfl, hnext⟩ := Talk.yields_ask.1 hr
    cases hnext
    exact h.asks hadv reply rfl

theorem msgBox_leads {prompt buttons title : Value} {r : Except FaultCode Value}
    (h : CodeAt lines a (.dialog .msgBox :: code))
    (hr : (Dialog.converse ui .msgBox [prompt, buttons, title]).Yields t r) (hf : s.Full → full) :
    Leads ui lines full ⟨a, ((s.cons prompt).cons buttons).cons title⟩ t (goalOf (a + 1) s (r.map s.cons)) := by
  rw [Dialog.converse] at hr
  cases ui with
  | false =>
    cases hr
    exact h.fails (advance_dialog_refused a _ (by decide))
  | true =>
    have hadv := advance_msgBox a s prompt buttons title
    cases hn : buttons.toInteger with
    | error f =>
      rw [hn] at hr hadv
      cases hr
      have hfault : Leads true lines full _ _ _ := h.fails hadv
      rwa [calculationFault_code] at hfault
    | ok n =>
      rw [hn] at hr hadv
      obtain ⟨reply, t', rfl, hnext⟩ := Talk.yields_ask.1 hr
      cases hnext
      exact h.asks_pushes hadv reply rfl hf

theorem inputBox_leads {prompt title initial : Value} {r : Except FaultCode Value}
    (h : CodeAt lines a (.dialog .inputBox :: code))
    (hr : (Dialog.converse ui .inputBox [prompt, title, initial]).Yields t r) (hf : s.Full → full) :
    Leads ui lines full ⟨a, ((s.cons prompt).cons title).cons initial⟩ t (goalOf (a + 1) s (r.map s.cons)) := by
  rw [Dialog.converse] at hr
  cases ui with
  | false =>
    cases hr
    exact h.fails (advance_dialog_refused a _ (by decide))
  | true =>
    have hadv := advance_inputBox a s prompt title initial
    obtain ⟨reply, t', rfl, hnext⟩ := Talk.yields_ask.1 hr
    cases hnext
    exact h.asks_pushes hadv reply rfl hf

theorem dialog_leads {d : Dialog} {vs : List Value} {r : Except FaultCode Value} (h : CodeAt lines a (dialogTail d))
    (hlen : vs.length = d.defaults.length) (hr : (d.converse ui vs).Yields t r) (hf : s.Full → full) :
    Leads ui lines full ⟨a, s.pushAll vs⟩ t (goalOf (a + (if d.answers then 1 else 2)) s (r.map s.cons)) := by
  cases d with
  | message =>
    match vs, hlen with
    | [kind, text], _ =>
      have hlead : Leads ui lines full _ t _ := message_leads (s := s) h hr
      cases r with
      | error code => exact hlead
      | ok v =>
        cases converse_message hr
        have hboth := hlead.trans (h.tail.pushes (advance_pushValue ui (a + 1) s (.boolean true)) hf)
        rw [List.append_nil] at hboth
        exact hboth
  | msgBox =>
    match vs, hlen with
    | [prompt, buttons, title], _ => exact msgBox_leads h hr hf
  | inputBox =>
    match vs, hlen with
    | [prompt, title, initial], _ => exact inputBox_leads h hr hf

end Simulation

/-! ## Expressions -/

/-- The stack of the innermost scope cannot take so many values more. -/
def Scopes.Lacks (s : Scopes) (n : Nat) : Prop := Stack.limit < s.top.stack.size + n

theorem Scopes.Full.lacks {s : Scopes} {n : Nat} (h : s.Full) (hn : 0 < n) : s.Lacks n := by
  have : Stack.limit ≤ s.top.stack.size := h
  unfold Scopes.Lacks
  omega

theorem Scopes.Lacks.mono {s : Scopes} {n m : Nat} (h : s.Lacks n) (hn : n ≤ m) : s.Lacks m :=
  Nat.lt_of_lt_of_le h (Nat.add_le_add_left hn _)

theorem Scopes.lacks_cons {s : Scopes} {v : Value} {n : Nat} : (s.cons v).Lacks n ↔ s.Lacks (n + 1) := by
  unfold Scopes.Lacks
  rw [Scopes.size_cons]
  omega

@[simp] theorem Scopes.lookup_pushAll (vs : List Value) (s : Scopes) : (s.pushAll vs).lookup = s.lookup := by
  induction vs generalizing s with
  | nil => rfl
  | cons v vs ih => exact ih (s.cons v)

theorem Scopes.lacks_pushAll {s : Scopes} {vs : List Value} {n : Nat} :
    (s.pushAll vs).Lacks n ↔ s.Lacks (n + vs.length) := by
  induction vs generalizing s n with
  | nil => rfl
  | cons v vs ih =>
    show ((s.cons v).pushAll vs).Lacks n ↔ _
    rw [ih, Scopes.lacks_cons]
    rfl

section Expressions

variable {ui : Bool} {lines : Array Line}

mutual

/-- The code of an expression does what the evaluator does, if there is room for its values. -/
theorem Expr.code_leads : (e : Expr) → e.CallFree → ∀ {a : Nat} {s : Scopes} {t : List Exchange}
    {r : Except FaultCode Value}, CodeAt lines a (e.code a) → (e.evaluate ui s.lookup).Yields t r →
    Leads ui lines (s.Lacks e.height) ⟨a, s⟩ t (goalOf (a + e.size) s (r.map s.cons))
  | .literal v, _, a, s, t, r, h, hr => by
    rw [Expr.evaluate, Talk.yields_pure] at hr
    obtain ⟨rfl, rfl⟩ := hr
    exact h.pushes (advance_pushValue ui a s v) (·.lacks Nat.one_pos)
  | .variable name, _, a, s, t, r, h, hr => by
    rw [Expr.evaluate] at hr
    exact readName_leads h hr (·.lacks Nat.one_pos)
  | .unary op e, hc, a, s, t, r, h, hr => by
    rw [Expr.evaluate] at hr
    rw [Expr.code] at h
    refine leads_bind hr (fun t₁ r₁ he => e.code_leads hc h.left he) fun v t₂ hv => ?_
    exact unary_leads (h.right (by rw [e.length_code])) hv (·.lacks e.height_pos)
  | .binary op l r', hc, a, s, t, r, h, hr => by
    rw [Expr.evaluate] at hr
    rw [Expr.code] at h
    refine leads_bind hr (fun t₁ r₁ hl => (l.code_leads hc.1 h.left.left hl).mono
      (·.mono (by rw [Expr.height]; omega))) fun x t₂ hrest => ?_
    have hcode := h.left.right (b := a + l.size) (by rw [l.length_code])
    refine leads_bind hrest (fun t₃ r₃ hr' => (r'.code_leads hc.2 (s := s.cons x) hcode hr').mono
      fun hlack => (Scopes.lacks_cons.1 hlack).mono (by rw [Expr.height]; omega)) fun y t₄ hend => ?_
    have hop := h.right (b := a + l.size + r'.size) (by
      rw [List.length_append, l.length_code, r'.length_code, Nat.add_assoc])
    have hsize : a + (Expr.binary op l r').size = a + l.size + r'.size + 1 := by rw [Expr.size]; omega
    rw [hsize]
    exact binary_leads hop hend (·.lacks (Expr.height_pos _))
  | .conjunction first rest, hc, a, s, t, r, h, hr => by
    rw [evaluate_conjunction] at hr
    rw [code_conjunction] at h
    refine leads_bind hr (fun t₁ r₁ hf => (first.code_leads hc.1 h.left hf).mono
      (·.mono (by rw [Expr.height]; omega))) fun v t₂ hrest => ?_
    have hcode := h.right (b := a + first.size) (by rw [first.length_code])
    have hsize : a + (Expr.conjunction first rest).size = a + first.size + (sizeOfRest rest + 4) := by rw [Expr.size]; omega
    have hheight : heightOfRest rest ≤ (Expr.conjunction first rest).height := by rw [Expr.height]; omega
    rw [hsize]
    exact (conjuncts_lead rest hc.2 hcode hrest).mono (·.mono hheight)
  | .choice c x y, hc, a, s, t, r, h, hr => by
    rw [Expr.evaluate] at hr
    -- the condition, the branch with the value if true, the way past the other with the value if false
    obtain ⟨hcond, hbranch, hskip⟩ := h.choice
    have hsize : a + (Expr.choice c x y).size = a + c.size + x.size + 2 + y.size := by
      rw [Expr.size]; omega
    have hx : x.height ≤ (Expr.choice c x y).height := by rw [Expr.height]; omega
    have hy : y.height ≤ (Expr.choice c x y).height := by rw [Expr.height]; omega
    rw [hsize]
    refine leads_bind hr (fun t₁ r₁ h₁ => (c.code_leads hc.1 hcond h₁).mono
      (·.mono (by rw [Expr.height]; omega))) fun v t₂ hrest => ?_
    refine jumpFalse_leads (fun r => goalOf _ s (r.map s.cons)) hbranch (fun _ => rfl) hrest
      (fun htrue => ?_) (fun hfalse => ?_)
    · refine leads_onward ((x.code_leads hc.2.1 hbranch.tail htrue).mono (·.mono hx)) fun s' => ?_
      rw [Nat.add_right_comm]
      exact hskip.silent (advance_jump ui _ s' _)
    · exact (y.code_leads hc.2.2 hskip.tail hfalse).mono (·.mono hy)
  | .dialog d slots, hc, a, s, t, r, h, hr => by
    rw [Expr.evaluate] at hr
    rw [Expr.code] at h
    have hpos := Expr.height_pos (.dialog d slots)
    have htail : CodeAt lines (a + sizeOfSlots d.defaults slots) (dialogTail d) :=
      h.right (by rw [length_codeOfSlots])
    have hslots : heightOfSlots d.defaults slots ≤ (Expr.dialog d slots).height := by rw [Expr.height]; omega
    rcases Talk.yields_bind.1 hr with ⟨code, hfail, rfl⟩ | ⟨vs, t₁, t₂, rfl, hvs, hrest⟩
    · exact (slots_lead slots hc h.left hfail).mono (·.mono hslots)
    · refine ((slots_lead slots hc h.left hvs).mono (·.mono hslots)).trans ?_
      rw [Expr.size, ← Nat.add_assoc]
      exact dialog_leads htail (length_of_evaluateSlots ui s.lookup hvs) hrest (·.lacks hpos)

/-- The code of a chain of `AND` from behind an operand on. -/
theorem conjuncts_lead : (es : List Expr) → AllCallFree es → ∀ {a : Nat} {s : Scopes} {v : Value}
    {t : List Exchange} {r : Except FaultCode Value}, CodeAt lines a (codeOfConjuncts a es) →
    (evaluateFrom ui s.lookup v es).Yields t r →
    Leads ui lines (s.Lacks (heightOfRest es)) ⟨a, s.cons v⟩ t (goalOf (a + (sizeOfRest es + 4)) s (r.map s.cons))
  | [], _, a, s, v, t, r, h, hr => by
    refine jumpFalse_leads (fun r => goalOf _ s (r.map s.cons)) h (fun _ => rfl) hr
      (fun htrue => ?_) (fun hfalse => ?_)
    · rw [if_pos rfl, evaluateRest, Talk.yields_pure] at htrue
      obtain ⟨rfl, rfl⟩ := htrue
      have hpush : Leads ui lines (s.Lacks (heightOfRest [])) _ _ _ :=
        h.tail.pushes (advance_pushValue ui (a + 1) s (.boolean true)) (·.lacks Nat.one_pos)
      exact hpush.trans (h.tail.tail.silent (advance_jump ui (a + 2) _ (a + 4)))
    · obtain ⟨rfl, rfl⟩ := Talk.yields_pure.1 hfalse
      exact falsePad_leads h (·.lacks Nat.one_pos)
  | e :: es, hc, a, s, v, t, r, h, hr => by
    have hpad := h
    rw [codeOfConjuncts_cons] at h
    refine jumpFalse_leads (fun r => goalOf _ s (r.map s.cons)) h (fun _ => rfl) hr
      (fun htrue => ?_) (fun hfalse => ?_)
    · rw [if_pos rfl, evaluateRest_cons] at htrue
      have he : e.height ≤ heightOfRest (e :: es) := by rw [heightOfRest]; omega
      have hes : heightOfRest es ≤ heightOfRest (e :: es) := by rw [heightOfRest]; omega
      have hsize : a + (sizeOfRest (e :: es) + 4) = a + 1 + e.size + (sizeOfRest es + 4) := by
        rw [sizeOfRest]; omega
      rw [hsize]
      refine leads_bind htrue (fun t₁ r₁ h₁ => (e.code_leads hc.1 h.tail.left h₁).mono (·.mono he))
        fun w t₂ hrest => ?_
      have hcode := h.tail.right (b := a + 1 + e.size) (by rw [e.length_code])
      exact (conjuncts_lead es hc.2 hcode hrest).mono (·.mono hes)
    · obtain ⟨rfl, rfl⟩ := Talk.yields_pure.1 hfalse
      have htarget : a + (e.size + sizeOfRest es + 4) = a + sizeOfRest (e :: es) + 3 := by
        rw [sizeOfRest]; omega
      rw [htarget]
      exact falsePad_leads hpad (·.lacks (heightOfRest_pos _))

theorem slots_lead : (slots : List Slot) → SlotsCallFree slots → ∀ {defaults : List Value} {a : Nat}
    {s : Scopes} {t : List Exchange} {r : Except FaultCode (List Value)},
    CodeAt lines a (codeOfSlots a defaults slots) → (evaluateSlots ui s.lookup defaults slots).Yields t r →
    Leads ui lines (s.Lacks (heightOfSlots defaults slots)) ⟨a, s⟩ t
      (goalOf (a + sizeOfSlots defaults slots) s (r.map s.pushAll))
  | [], _, defaults, a, s, t, r, h, hr => by
    rw [evaluateSlots, Talk.yields_pure] at hr
    obtain ⟨rfl, rfl⟩ := hr
    exact values_lead h id
  | slot :: rest, hc, defaults, a, s, t, r, h, hr => by
    rw [evaluateSlots] at hr
    rw [codeOfSlots] at h
    have hempty : defaults.head?.isNone = defaults.isEmpty := by cases defaults <;> rfl
    have hslot : slot.height defaults.head? ≤ heightOfSlots defaults (slot :: rest) := by
      rw [heightOfSlots]; omega
    rcases Talk.yields_bind.1 hr with ⟨code, hfail, rfl⟩ | ⟨v, t₁, t₂, rfl, hv, hrest⟩
    · exact (slot.code_leads hc.1 h.left hfail).mono (·.mono hslot)
    have hfirst := (slot.code_leads hc.1 h.left hv).mono (·.mono hslot)
    have hcode := h.right (b := a + slot.size defaults.isEmpty) (by rw [slot.length_code, hempty])
    rw [hempty] at hfirst
    refine hfirst.trans ?_
    -- from here on the values so far are below what the rest pushes
    have hlen : v.toList.length = defaults.head?.toList.length := by
      have hsome := isSome_of_evaluate ui s.lookup hv
      cases v <;> cases hd : defaults.head? <;> simp_all
    have hlack : (s.pushAll v.toList).Lacks (heightOfSlots defaults.tail rest) →
        s.Lacks (heightOfSlots defaults (slot :: rest)) := by
      intro hlack
      rw [Scopes.lacks_pushAll, hlen] at hlack
      exact hlack.mono (by rw [heightOfSlots]; omega)
    rw [sizeOfSlots, ← Nat.add_assoc]
    rcases Talk.yields_bind.1 hrest with ⟨code, hfail, rfl⟩ | ⟨vs, t₃, t₄, rfl, hvs, hend⟩
    · have hrest := (slots_lead rest hc.2 (s := s.pushAll v.toList) hcode (by simpa using hfail)).mono hlack
      rw [goalOf_pushAll] at hrest
      exact hrest
    · obtain ⟨rfl, rfl⟩ := Talk.yields_pure.1 hend
      have hrest := (slots_lead rest hc.2 (s := s.pushAll v.toList) hcode (by simpa using hvs)).mono hlack
      rw [List.append_nil]
      show Leads _ _ _ _ _ (.reach ⟨_, s.pushAll (v.toList ++ vs)⟩)
      rw [Scopes.pushAll_append]
      exact hrest

theorem Slot.code_leads : (slot : Slot) → slot.CallFree → ∀ {standard : Option Value} {a : Nat} {s : Scopes}
    {t : List Exchange} {r : Except FaultCode (Option Value)}, CodeAt lines a (slot.code a standard) →
    (slot.evaluate ui s.lookup standard).Yields t r →
    Leads ui lines (s.Lacks (slot.height standard)) ⟨a, s⟩ t
      (goalOf (a + slot.size standard.isNone) s (r.map fun v => s.pushAll v.toList))
  | .omitted, _, standard, a, s, t, r, h, hr => by
    rw [Slot.evaluate, Talk.yields_pure] at hr
    obtain ⟨rfl, rfl⟩ := hr
    cases standard with
    | none => exact .here
    | some v => exact h.pushes (advance_pushValue ui a s v) (·.lacks Nat.one_pos)
  | .given e, hc, standard, a, s, t, r, h, hr => by
    rw [Slot.evaluate] at hr
    rw [Slot.code] at h
    refine leads_bind hr (fun t₁ r₁ he => e.code_leads hc h.left he) fun v t₂ hv => ?_
    obtain ⟨rfl, rfl⟩ := Talk.yields_pure.1 hv
    cases standard with
    | some d => exact .here
    | none =>
      have hpop := h.right (b := a + e.size) (by rw [e.length_code])
      exact hpop.silent (advance_pop ui _ s v)

end

end Expressions

/-- Wherever the code of an expression without calls stands in a program, and whatever the host replies,
running it from scopes with room for its values says to the host what the evaluator says. If the evaluator
gives a value, the run comes to the address behind the code with this value more on the stack of the
innermost scope and all else as it was; if it fails, the run faults with the same code, having said the same
and with every name standing for what it stood for. -/
theorem Expr.code_evaluates (ui : Bool) (lines : Array Line) (e : Expr) (hfree : e.CallFree) (a : Address)
    (hcode : CodeAt lines a (e.code a)) (s : Scopes) (hroom : s.top.stack.size + e.height ≤ Stack.limit)
    (ω : Oracle) (past : List Exchange) :
    ∃ t r, (e.evaluate ui s.lookup).Yields t r ∧ Talk.Follows ω past t ∧
      match r with
      | .ok v => ∃ n, Path ui lines n ⟨a, s⟩ t ⟨a + e.size, s.cons v⟩
      | .error code => ∃ f s', Ends ui lines ⟨a, s⟩ t (.error (f, s')) ∧ f.code = code ∧
        s'.bindings = s.bindings := by
  obtain ⟨t, r, hr, hf⟩ := Talk.exists_yields ω past (e.evaluate ui s.lookup)
  refine ⟨t, r, hr, hf, ?_⟩
  rcases e.code_leads hfree hcode hr with h | ⟨hlack, _⟩
  · cases r <;> exact h
  · exact absurd hlack (Nat.not_lt_of_le hroom)

theorem codeAt_mark (p : Position) (code : List Instruction) : CodeAt (mark p code).toArray 0 code := by
  intro i x hx
  simp [mark, hx]

/-- A host that knows every name to stand for the same value and does not care otherwise. -/
def Oracle.knowing (v : Value) : Oracle := fun _ r =>
  match r with
  | .retrieve _ => some v
  | r => r.indifferent

/-- `TRUE AND X` where the host knows `X` to be false. -/
theorem Expr.code_evaluates_conjunction :
    let e : Expr := .conjunction (.literal (.boolean true)) [.variable "X"]
    ∃ n, Path false (mark .zero (e.code 0)).toArray n ⟨0, Scopes.empty⟩
      [⟨.retrieve "X", some (.boolean false)⟩] ⟨7, Scopes.empty.cons (.boolean false)⟩ := by
  intro e
  obtain ⟨t, r, hr, hf, hend⟩ := e.code_evaluates false _ ⟨trivial, trivial, trivial⟩ 0 (codeAt_mark .zero _)
    Scopes.empty (by decide) (.knowing (.boolean false)) []
  have hwant : (e.evaluate false Scopes.empty.lookup).Yields [⟨.retrieve "X", some (.boolean false)⟩]
      (.ok (.boolean false)) := by
    simp only [e, Expr.evaluate, evaluateRest]
    exact .ask (.done _)
  obtain ⟨rfl, rfl⟩ := hr.unique hwant hf ⟨rfl, trivial⟩
  exact hend

end MacroBasic
