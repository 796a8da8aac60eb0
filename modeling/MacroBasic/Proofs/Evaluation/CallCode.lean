/-
Calls in the code of expressions. The code of an expression, whatever it calls, is left only at its end, with one
value more in the innermost scope and all scopes otherwise as they were but for the values of variables. A call
evaluates its arguments from left to right in a new scope, binds the parameters to their values there, and has left
that scope when it is over.
-/
import MacroBasic.Proofs.Grammar.Pieces
import MacroBasic.Proofs.Grammar.Rules
import MacroBasic.Proofs.Machine.Passage

namespace MacroBasic

open Machine Relation

/-! ## Where code stays and what it leaves -/

section Stays

variable {σ : Type}

/-- There are further scopes inside of the outermost `k` and one more, or just these and the address is in the
given range. -/
def Stays (k lo hi : Nat) (m : Moment σ) : Prop :=
  k ≤ m.scopes.below.length ∧ (m.scopes.below.length = k → lo ≤ m.pc ∧ m.pc < hi)

/-- The given address, with one value more on the stack. -/
def Leaves (S : Scopes) (b : Nat) (m : Moment σ) : Prop := m.pc = b ∧ ∃ v, (S.cons v).Similar m.scopes

variable {k lo hi lo' hi' : Nat} {m : Moment σ}

theorem Stays.at (hk : m.scopes.below.length = k) (hlo : lo ≤ m.pc) (hhi : m.pc < hi) : Stays k lo hi m :=
  ⟨Nat.le_of_eq hk.symm, fun _ => ⟨hlo, hhi⟩⟩

theorem Stays.widen (h : Stays k lo hi m) (hlo : lo' ≤ lo) (hhi : hi ≤ hi') : Stays k lo' hi' m :=
  ⟨h.1, fun hk => ⟨hlo.trans (h.2 hk).1, Nat.lt_of_lt_of_le (h.2 hk).2 hhi⟩⟩

theorem Stays.deeper (h : k < m.scopes.below.length) : Stays k lo hi m :=
  ⟨Nat.le_of_lt h, fun hk => absurd hk (Nat.ne_of_gt h)⟩

end Stays

/-! ## Evaluating one expression after the other -/

section Evaluates

variable {σ : Type} (host : Host (StateM σ)) (options : Options) (lines : Array Line)

/-- From one moment to another the code of some expressions has been run through, the first one first: each has
left its value on the stack and otherwise no other trace than the values of variables. -/
inductive Evaluates : List Expr → Moment σ → List Value → Moment σ → Prop
  | nil (m : Moment σ) : Evaluates [] m [] m
  | cons {e : Expr} {rest : List Expr} {m m₁ m' : Moment σ} {v : Value} {vs : List Value}
      (hpath : ReflTransGen
        (StepWhile host options lines (Stays m.scopes.below.length m.pc (m.pc + e.size))) m m₁)
      (hpc : m₁.pc = m.pc + e.size) (hS : (m.scopes.cons v).Similar m₁.scopes) (hrest : Evaluates rest m₁ vs m') :
    Evaluates (e :: rest) m (v :: vs) m'

end Evaluates

section Evaluates

variable {σ : Type} {host : Host (StateM σ)} {options : Options} {lines : Array Line} {es : List Expr}
  {m m' : Moment σ} {vs : List Value}

theorem Evaluates.length_eq (h : Evaluates host options lines es m vs m') : vs.length = es.length := by
  induction h with
  | nil => rfl
  | cons _ _ _ _ ih => exact congrArg (· + 1) ih

theorem Evaluates.pc (h : Evaluates host options lines es m vs m') : m'.pc = m.pc + sizeOfAll es := by
  induction h with
  | nil => rfl
  | cons _ hpc _ _ ih => rw [ih, hpc, sizeOfAll, Nat.add_assoc]

theorem Evaluates.similar (h : Evaluates host options lines es m vs m') :
    (m.scopes.pushAll vs).Similar m'.scopes := by
  induction h with
  | nil m => exact .refl m.scopes
  | cons _ _ hS _ ih => exact hS.pushAll.trans ih

end Evaluates

/-! ## Single instructions -/

section Passes

variable {σ : Type} {host : Host (StateM σ)} {options : Options} {lines : Array Line} {L : Address → Option Layout}
  {R : Rules} {k : Nat} {m : Moment σ} {stay good : Moment σ → Prop} {i : Instruction} {rest : List Instruction}

/-- An instruction that makes one value of some on the stack and leads to the next address. -/
theorem passes_operate {S : Scopes} {vs : List Value} {b : Nat} (hL : Describes L lines) (hm : m.Laid L)
    (hstay : stay m) (hcode : CodeAt lines m.pc (i :: rest)) (hi : i.isPlain = true) (htakes : vs.length = i.takes)
    (hgives : i.gives = 1) (hleads : ∀ a : Nat, i.Leads m.pc a → a = m.pc + 1)
    (hS : (S.pushAll vs).Similar m.scopes) (hb : m.pc + 1 = b) :
    Passes host options lines L m stay (Leaves S b) := by
  obtain ⟨S₁, hS₁, hsimilar⟩ := hS.unpush
  refine .plain hL hm hstay hcode hi htakes hS₁ ?_
  intro m' given hm' hpc hgiven hS'
  obtain ⟨w, rfl⟩ := List.length_eq_one_iff.1 (hgiven.trans hgives)
  refine .here hm' ⟨(hleads _ hpc).trans hb, w, ?_⟩
  rw [hS']
  exact hsimilar.cons

/-- An instruction that pops a value and leads to one of two addresses. -/
theorem passes_branch {S : Scopes} {v : Value} {b : Address} (hL : Describes L lines) (hm : m.Laid L)
    (hstay : stay m) (hcode : CodeAt lines m.pc (.jumpFalse b :: rest)) (hS : (S.cons v).Similar m.scopes) :
    Passes host options lines L m stay (fun m' => (m'.pc = m.pc + 1 ∨ m'.pc = b) ∧ S.Similar m'.scopes) := by
  obtain ⟨S₁, hS₁, hsimilar⟩ := hS.uncons
  refine .plain hL hm hstay hcode rfl (show [v].length = 1 from rfl) hS₁ ?_
  intro m' given hm' hpc hgiven hS'
  cases List.eq_nil_of_length_eq_zero hgiven
  refine .here hm' ⟨hpc, ?_⟩
  rw [hS']
  exact hsimilar

/-- An instruction that leads to another address. -/
theorem passes_jump {b : Address} (hL : Describes L lines) (hm : m.Laid L) (hstay : stay m)
    (hcode : CodeAt lines m.pc (.jump b :: rest)) :
    Passes host options lines L m stay (fun m' => m'.pc = b ∧ m'.scopes = m.scopes) := by
  refine .plain hL hm hstay hcode rfl (show [].length = 0 from rfl) rfl ?_
  intro m' given hm' hpc hgiven hS'
  cases List.eq_nil_of_length_eq_zero hgiven
  exact .here hm' ⟨hpc, hS'⟩

/-- An instruction that enters a scope. -/
theorem enters_of_step {m' : Moment σ} (hL : Describes L lines) (hm : m.Laid L)
    (hcode : CodeAt lines m.pc (.pushScope :: rest)) (hstep : Step host options lines m m') :
    m'.pc = m.pc + 1 ∧ m'.scopes = m.scopes.inner := by
  obtain ⟨heffect, _⟩ := hstep.effect hL hm hcode
  exact ⟨heffect.leads, heffect.inner⟩

/-! ## Calls -/

/-- The parameters of a routine with the values of arguments, the last one first. -/
def Routine.bindings (r : Routine) (vs : List Value) : List (String × Value) := (r.parameters.zip vs).reverse

/-- Once the arguments of a call are on the stack, the parameters are bound to them. -/
theorem passes_bound {r : Routine} {vs : List Value} {S : Scopes} (hL : Describes L lines) (hm : m.Laid L)
    (hcode : CodeAt lines m.pc r.enter) (hlength : vs.length = r.parameters.length) (hS : m.scopes = S.pushAll vs) :
    Passes host options lines L m
      (fun m' => m'.scopes.below = S.below ∧ m.pc ≤ m'.pc ∧ m'.pc < m.pc + 2 * r.parameters.length)
      (fun m' => m'.pc = m.pc + 2 * r.parameters.length ∧ m'.scopes = S.bindAll (r.bindings vs)) := by
  have hnames : (r.bindings vs).map Prod.fst = r.parameters.reverse := by
    rw [Routine.bindings, List.map_reverse, List.map_fst_zip (Nat.le_of_eq hlength.symm)]
  have hvalues : ((r.bindings vs).map Prod.snd).reverse = vs := by
    rw [Routine.bindings, List.map_reverse, List.reverse_reverse, List.map_snd_zip (Nat.le_of_eq hlength)]
  have hcount : (r.bindings vs).length = r.parameters.length := by
    rw [← List.length_map Prod.fst, hnames, List.length_reverse]
  rw [← hcount]
  refine Passes.bindAll hL (r.bindings vs) hm ?_ (hvalues.symm ▸ hS)
  rw [hnames]
  exact hcode.left

/-- The whole call of a routine once its arguments are on the stack. -/
theorem passes_called {r : Routine} {vs : List Value} {S : Scopes} (hL : Describes L lines) (hm : m.Laid L)
    (hcode : CodeAt lines m.pc r.enter) (hlength : vs.length = r.parameters.length) (hS : m.scopes = S.pushAll vs) :
    Passes host options lines L m (fun m' => S.below.length ≤ m'.scopes.below.length)
      (fun m' => m'.pc = m.pc + 2 * r.parameters.length + 2 ∧ List.Forall₂ Scope.Similar S.below m'.scopes.frames) := by
  refine (passes_bound hL hm hcode hlength hS).mono (fun m' h => Nat.le_of_eq (h.1 ▸ rfl)) |>.bind ?_
  rintro m₁ hm₁ ⟨hpc₁, hS₁⟩ _
  have hbelow₁ : m₁.scopes.below = S.below := by rw [hS₁, below_bindAll]
  have hcode₁ := hcode.right (b := m₁.pc) (by rw [length_bindParameters, hpc₁])
  have hcall : Passes host options lines L m₁ _ _ := Passes.call hL hm₁ hcode₁
  rw [hpc₁, hbelow₁] at hcall
  exact hcall

/-! ## Expressions -/

theorem passes_values (hL : Describes L lines) : (vs : List Value) → ∀ {a : Nat} {m : Moment σ},
    CodeAt lines a (vs.map .pushValue) → m.pc = a → m.Laid L → m.scopes.below.length = k →
    Passes host options lines L m (Stays k a (a + vs.length))
      (fun m' => m'.pc = a + vs.length ∧ ∃ ws, ws.length = vs.length ∧ (m.scopes.pushAll ws).Similar m'.scopes)
  | [], a, m, _, hpc, hm, _ => .here hm ⟨hpc, [], rfl, .refl m.scopes⟩
  | v :: vs, a, m, h, hpc, hm, hk => by
    subst hpc
    rw [List.length_cons]
    refine (passes_operate hL hm (.at hk (Nat.le_refl _) (by omega)) h rfl (show [].length = 0 from rfl) rfl
      (fun _ => id) (.refl m.scopes) rfl).bind ?_
    rintro m₁ hm₁ ⟨hpc₁, w, hS₁⟩ _
    have hrest : Passes host options lines L m₁ _ _ := passes_values hL vs h.tail hpc₁ hm₁ (hS₁.depth.trans hk)
    rw [Nat.add_assoc, Nat.add_comm 1] at hrest
    refine (hrest.mono fun m' h' => h'.widen (Nat.le_succ _) (Nat.le_refl _)).imp ?_
    rintro m' ⟨hpc', ws, hlength, hS'⟩
    exact ⟨hpc', w :: ws, congrArg (· + 1) hlength, hS₁.pushAll.trans hS'⟩

/-- The place behind a chain of `AND` where false is pushed. -/
theorem passes_falsePad {es : List Expr} {a : Nat} {S : Scopes} (hL : Describes L lines)
    (h : CodeAt lines a (codeOfConjuncts a es)) (hpc : m.pc = a + sizeOfRest es + 3) (hm : m.Laid L)
    (hk : m.scopes.below.length = k) (hS : S.Similar m.scopes) :
    Passes host options lines L m (Stays k a (a + (sizeOfRest es + 4))) (Leaves S (a + (sizeOfRest es + 4))) := by
  obtain ⟨code, hsplit, hlength⟩ := codeOfConjuncts_snoc a es
  rw [hsplit] at h
  have hpad := h.right (b := m.pc) (by rw [hlength, hpc, Nat.add_assoc])
  refine passes_operate hL hm (.at hk ?_ ?_) hpad rfl (show [].length = 0 from rfl) rfl (fun _ => id) hS ?_
  · omega
  · omega
  · omega

/-- The code of a dialog behind that of its parameters. -/
theorem passes_dialog {d : Dialog} {vs : List Value} {a : Nat} {S : Scopes} (hL : Describes L lines) (hm : m.Laid L)
    (h : CodeAt lines m.pc (.dialog d :: if d.answers then [] else [.pushValue (.boolean true)])) (ha : a ≤ m.pc)
    (hk : m.scopes.below.length = k) (hlength : vs.length = d.defaults.length)
    (hS : (S.pushAll vs).Similar m.scopes) :
    Passes host options lines L m (Stays k a (m.pc + if d.answers then 1 else 2))
      (Leaves S (m.pc + if d.answers then 1 else 2)) := by
  cases hanswers : d.answers with
  | true =>
    have hgives : (Instruction.dialog d).gives = 1 := by rw [Instruction.gives, hanswers]; rfl
    exact passes_operate hL hm (.at hk ha (Nat.lt_succ_self _)) h rfl hlength hgives (fun _ => id) hS rfl
  | false =>
    rw [hanswers] at h
    obtain ⟨S₁, hS₁, hsimilar⟩ := hS.unpush
    have hstay : Stays k a (m.pc + 2) m := .at hk ha (by omega)
    refine .plain hL hm hstay h rfl hlength hS₁ ?_
    intro m₁ given hm₁ hpc₁ hgiven hS₁'
    rw [Instruction.gives, hanswers] at hgiven
    cases List.eq_nil_of_length_eq_zero hgiven
    have hpc₁ : m₁.pc = m.pc + 1 := hpc₁
    have hpush := h.tail
    rw [← hpc₁] at hpush
    have hS₁' : S.Similar m₁.scopes := hS₁' ▸ hsimilar
    have hk₁ : m₁.scopes.below.length = k := by
      rw [hS₁'.depth, ← hk, hS.depth, Scopes.below_pushAll]
    exact passes_operate hL hm₁ (.at hk₁ (by omega) (by rw [hpc₁]; exact Nat.lt_succ_self _)) hpush rfl
      (show [].length = 0 from rfl) rfl (fun _ => id) hS₁' (congrArg (· + 1) hpc₁)

mutual

/-- The code of an expression is left only at its end, with one value more. -/
theorem Expr.passes (hL : Describes L lines) : (e : Expr) → e.Obeys R → ∀ {a k : Nat} {m : Moment σ},
    CodeAt lines a (e.code a) → m.pc = a → m.Laid L → m.scopes.below.length = k →
    Passes host options lines L m (Stays k a (a + e.size)) (Leaves m.scopes (a + e.size))
  | .literal v, _, a, k, m, h, hpc, hm, hk => by
    subst hpc
    exact passes_operate hL hm (.at hk (Nat.le_refl _) (Nat.lt_succ_self _)) h rfl (show [].length = 0 from rfl) rfl
      (fun _ => id) (.refl m.scopes) rfl
  | .variable name, _, a, k, m, h, hpc, hm, hk => by
    subst hpc
    exact passes_operate hL hm (.at hk (Nat.le_refl _) (Nat.lt_succ_self _)) h rfl (show [].length = 0 from rfl) rfl
      (fun _ => id) (.refl m.scopes) rfl
  | .call r arguments, hobeys, a, k, m, h, hpc, hm, hk => by
    subst hpc
    obtain ⟨_, hcount, harguments⟩ := hobeys
    rw [Expr.code] at h
    rw [Expr.size]
    have hcode := h.left.left
    -- a scope is entered for the call, so all up to its end is deeper
    refine .step hL hm (.at hk (Nat.le_refl _) (by omega)) fun m₁ hstep hm₁ => ?_
    obtain ⟨hpc₁, hS₁⟩ := enters_of_step hL hm hcode hstep
    have hdeep₁ : m₁.scopes.below.length = k + 1 := by rw [hS₁, ← hk]; rfl
    have hall : Passes host options lines L m₁ _ _ := passes_all hL arguments harguments hcode.tail hpc₁ hm₁ hdeep₁
    refine (hall.mono fun m' h' => .deeper h'.1).bind ?_
    rintro m₂ hm₂ ⟨vs, hvs⟩ _
    obtain ⟨S₂, hS₂, hsimilar⟩ := hvs.similar.unpush
    have hpc₂ := hvs.pc
    have henter := h.left.right (b := m₂.pc) (by
      rw [List.length_cons, length_codeOfAll, hpc₂, hpc₁]; omega)
    have hdeep₂ : S₂.below.length = k + 1 := hsimilar.depth.trans hdeep₁
    -- the arguments are bound there, and the routine runs and returns
    have hcalled : Passes host options lines L m₂ _ _ :=
      passes_called hL hm₂ henter (hvs.length_eq.trans hcount) hS₂
    rw [hdeep₂] at hcalled
    refine (hcalled.mono fun m' h' => .deeper h').bind ?_
    rintro m₃ hm₃ ⟨hpc₃, hframes⟩ _
    -- the scope of the call has been left, and the frames below it are those of the caller
    have hlower : List.Forall₂ Scope.Similar m.scopes.frames S₂.below := by
      have := hsimilar.below
      rw [hS₁] at this
      exact this
    have hS₃ : m.scopes.Similar m₃.scopes := forall₂_similar_trans hlower hframes
    -- the result is pushed in the caller
    have hresult := h.right (b := m₃.pc) (by
      rw [List.length_append, List.length_cons, length_codeOfAll, Routine.length_enter, hpc₃, hpc₂, hpc₁]; omega)
    refine passes_operate hL hm₃ (.at (hS₃.depth.trans hk) ?_ ?_) hresult rfl (show [].length = 0 from rfl) rfl
      (fun _ => id) hS₃ ?_
    · omega
    · omega
    · omega
  | .unary op e, hobeys, a, k, m, h, hpc, hm, hk => by
    rw [Expr.code] at h
    rw [Expr.size, ← Nat.add_assoc]
    have he : Passes host options lines L m _ _ := e.passes hL hobeys h.left hpc hm hk
    refine (he.mono fun m' h' => h'.widen (Nat.le_refl _) (Nat.le_succ _)).bind ?_
    rintro m₁ hm₁ ⟨hpc₁, v, hS₁⟩ _
    have hop := h.right (b := m₁.pc) (by rw [e.length_code, hpc₁])
    rw [← hpc₁]
    exact passes_operate hL hm₁ (.at (hS₁.depth.trans hk) (by omega) (Nat.lt_succ_self _)) hop rfl
      (show [v].length = 1 from rfl) rfl (fun _ => id) hS₁ rfl
  | .binary op l r, hobeys, a, k, m, h, hpc, hm, hk => by
    rw [Expr.code] at h
    rw [Expr.size, ← Nat.add_assoc, ← Nat.add_assoc]
    have hl : Passes host options lines L m _ _ := l.passes hL hobeys.1 h.left.left hpc hm hk
    refine (hl.mono fun m' h' => h'.widen (Nat.le_refl _) (by omega)).bind ?_
    rintro m₁ hm₁ ⟨hpc₁, v, hS₁⟩ _
    have hk₁ := hS₁.depth.trans hk
    have hcode := h.left.right (b := a + l.size) (by rw [l.length_code])
    have hr : Passes host options lines L m₁ _ _ := r.passes hL hobeys.2 hcode hpc₁ hm₁ hk₁
    refine (hr.mono fun m' h' => h'.widen (Nat.le_add_right _ _) (Nat.le_succ _)).bind ?_
    rintro m₂ hm₂ ⟨hpc₂, w, hS₂⟩ _
    have hop := h.right (b := m₂.pc) (by
      rw [List.length_append, l.length_code, r.length_code, hpc₂, Nat.add_assoc])
    rw [← hpc₂]
    exact passes_operate hL hm₂ (.at (hS₂.depth.trans hk₁) (by omega) (Nat.lt_succ_self _)) hop rfl
      (show [v, w].length = 2 from rfl) rfl (fun _ => id) (hS₁.cons.trans hS₂) rfl
  | .conjunction first rest, hobeys, a, k, m, h, hpc, hm, hk => by
    rw [code_conjunction] at h
    have hsize : a + (Expr.conjunction first rest).size = a + first.size + (sizeOfRest rest + 4) := by
      rw [Expr.size]; omega
    rw [hsize]
    have hfirst : Passes host options lines L m _ _ := first.passes hL hobeys.1 h.left hpc hm hk
    refine (hfirst.mono fun m' h' => h'.widen (Nat.le_refl _) (Nat.le_add_right _ _)).bind ?_
    rintro m₁ hm₁ ⟨hpc₁, v, hS₁⟩ _
    have hcode := h.right (b := a + first.size) (by rw [first.length_code])
    have hrest : Passes host options lines L m₁ _ _ :=
      passes_conjuncts hL rest hobeys.2 hcode hpc₁ hm₁ (hS₁.depth.trans hk) hS₁
    exact hrest.mono fun m' h' => h'.widen (Nat.le_add_right _ _) (Nat.le_refl _)
  | .choice c x y, hobeys, a, k, m, h, hpc, hm, hk => by
    obtain ⟨hcond, hbranch, hskip⟩ := h.choice
    have hyes := hbranch.tail
    have hno := hskip.tail
    have hsize : a + (Expr.choice c x y).size = a + c.size + x.size + 2 + y.size := by
      rw [Expr.size]; omega
    rw [hsize]
    have hc : Passes host options lines L m _ _ := c.passes hL hobeys.1 hcond hpc hm hk
    refine (hc.mono fun m' h' => h'.widen (Nat.le_refl _) (by omega)).bind ?_
    rintro m₁ hm₁ ⟨hpc₁, v, hS₁⟩ _
    have hk₁ := hS₁.depth.trans hk
    have hbranch : CodeAt lines m₁.pc (.jumpFalse (a + c.size + x.size + 2) :: x.code (a + c.size + 1)) := by
      rw [hpc₁]; exact hbranch
    refine (passes_branch hL hm₁ (.at hk₁ (by omega) (by omega)) hbranch hS₁).bind ?_
    rintro m₂ hm₂ ⟨hpc₂, hS₂⟩ _
    have hk₂ := hS₂.depth.trans hk
    -- the first branch ends with the jump over the second one, the second one at the end
    rcases hpc₂ with hpc₂ | hpc₂
    · rw [hpc₁] at hpc₂
      have hx : Passes host options lines L m₂ _ _ := x.passes hL hobeys.2.1 hyes hpc₂ hm₂ hk₂
      refine (hx.mono fun m' h' => h'.widen (by omega) (by omega)).bind ?_
      rintro m₃ hm₃ ⟨hpc₃, w, hS₃⟩ _
      rw [show a + c.size + x.size + 1 = m₃.pc by omega] at hskip
      refine (passes_jump hL hm₃ (.at (hS₃.depth.trans hk₂) (by omega) (by omega)) hskip).imp ?_
      rintro m' ⟨hpc', hS'⟩
      exact ⟨hpc', w, hS' ▸ hS₂.cons.trans hS₃⟩
    · have hy : Passes host options lines L m₂ _ _ := y.passes hL hobeys.2.2 hno hpc₂ hm₂ hk₂
      refine (hy.mono fun m' h' => h'.widen (by omega) (Nat.le_refl _)).imp ?_
      rintro m' ⟨hpc', w, hS'⟩
      exact ⟨hpc', w, hS₂.cons.trans hS'⟩
  | .dialog d slots, hobeys, a, k, m, h, hpc, hm, hk => by
    rw [Expr.code] at h
    rw [Expr.size, ← Nat.add_assoc]
    have hslots : Passes host options lines L m _ _ := passes_slots hL slots hobeys h.left hpc hm hk
    refine (hslots.mono fun m' h' => h'.widen (Nat.le_refl _) (Nat.le_add_right _ _)).bind ?_
    rintro m₁ hm₁ ⟨hpc₁, vs, hlength, hS₁⟩ _
    have hk₁ := hS₁.depth.trans ((congrArg List.length (Scopes.below_pushAll vs m.scopes)).trans hk)
    have hdialog := h.right (b := m₁.pc) (by rw [length_codeOfSlots, hpc₁])
    rw [← hpc₁]
    exact passes_dialog hL hm₁ hdialog (by omega) hk₁ hlength hS₁

/-- Expressions one after the other are evaluated in their order. -/
theorem passes_all (hL : Describes L lines) : (es : List Expr) → AllObey R es → ∀ {a k : Nat} {m : Moment σ},
    CodeAt lines a (codeOfAll a es) → m.pc = a → m.Laid L → m.scopes.below.length = k →
    Passes host options lines L m (Stays k a (a + sizeOfAll es))
      (fun m' => ∃ vs, Evaluates host options lines es m vs m')
  | [], _, a, k, m, _, _, hm, _ => .here hm ⟨[], .nil m⟩
  | e :: es, hobeys, a, k, m, h, hpc, hm, hk => by
    subst hpc
    subst hk
    rw [codeOfAll] at h
    rw [sizeOfAll, ← Nat.add_assoc]
    have he : Passes host options lines L m _ _ := e.passes hL hobeys.1 h.left rfl hm rfl
    refine he.follow (fun m' h' => h'.widen (Nat.le_refl _) (Nat.le_add_right _ _)) ?_
    rintro m₁ hm₁ ⟨hpc₁, v, hS₁⟩ hpath
    have hcode := h.right (b := m.pc + e.size) (by rw [e.length_code])
    have hes : Passes host options lines L m₁ _ _ := passes_all hL es hobeys.2 hcode hpc₁ hm₁ hS₁.depth
    refine (hes.mono fun m' h' => h'.widen (Nat.le_add_right _ _) (Nat.le_refl _)).imp ?_
    rintro m' ⟨vs, hvs⟩
    exact ⟨v :: vs, .cons hpath hpc₁ hS₁ hvs⟩

/-- The code of a chain of `AND` from behind an operand on. -/
theorem passes_conjuncts (hL : Describes L lines) : (es : List Expr) → AllObey R es → ∀ {a k : Nat} {m : Moment σ}
    {S : Scopes} {v : Value}, CodeAt lines a (codeOfConjuncts a es) → m.pc = a → m.Laid L →
    m.scopes.below.length = k → (S.cons v).Similar m.scopes →
    Passes host options lines L m (Stays k a (a + (sizeOfRest es + 4))) (Leaves S (a + (sizeOfRest es + 4)))
  | [], _, a, k, m, S, v, h, hpc, hm, hk, hS => by
    subst hpc
    refine (passes_branch hL hm (.at hk (Nat.le_refl _) (by omega)) h hS).bind ?_
    rintro m₁ hm₁ ⟨hpc₁, hS₁⟩ _
    have hk₁ := hS₁.depth.trans (hS.depth.symm.trans hk)
    rcases hpc₁ with hpc₁ | hpc₁
    -- the last operand holds: the value is pushed and the push for the other case is passed over
    · have hpush := h.tail
      rw [← hpc₁] at hpush
      refine (passes_operate hL hm₁ (.at hk₁ (by omega) (by omega)) hpush rfl (show [].length = 0 from rfl) rfl
        (fun _ => id) hS₁ rfl).bind ?_
      rintro m₂ hm₂ ⟨hpc₂, w, hS₂⟩ _
      have hjump := hpush.tail
      rw [← hpc₂] at hjump
      have hk₂ : m₂.scopes.below.length = k := hS₂.depth.trans (hS.depth.symm.trans hk)
      refine (passes_jump hL hm₂ (.at hk₂ (by omega) (by omega)) hjump).imp ?_
      rintro m' ⟨hpc', hS'⟩
      exact ⟨hpc', w, hS' ▸ hS₂⟩
    · exact passes_falsePad hL h hpc₁ hm₁ hk₁ hS₁
  | e :: es, hobeys, a, k, m, S, v, h, hpc, hm, hk, hS => by
    have hpad := h
    rw [codeOfConjuncts_cons] at h
    have hsize : a + (sizeOfRest (e :: es) + 4) = a + 1 + e.size + (sizeOfRest es + 4) := by
      rw [sizeOfRest]; omega
    subst hpc
    refine (passes_branch hL hm (.at hk (Nat.le_refl _) (by omega)) h hS).bind ?_
    rintro m₁ hm₁ ⟨hpc₁, hS₁⟩ _
    have hk₁ := hS₁.depth.trans (hS.depth.symm.trans hk)
    rcases hpc₁ with hpc₁ | hpc₁
    · rw [hsize]
      have he : Passes host options lines L m₁ _ _ := e.passes hL hobeys.1 h.tail.left hpc₁ hm₁ hk₁
      refine (he.mono fun m' h' => h'.widen (by omega) (Nat.le_add_right _ _)).bind ?_
      rintro m₂ hm₂ ⟨hpc₂, w, hS₂⟩ _
      have hcode := h.tail.right (b := m.pc + 1 + e.size) (by rw [e.length_code])
      have hes : Passes host options lines L m₂ _ _ :=
        passes_conjuncts hL es hobeys.2 hcode hpc₂ hm₂ (hS₂.depth.trans hk₁) (hS₁.cons.trans hS₂)
      exact hes.mono fun m' h' => h'.widen (by omega) (Nat.le_refl _)
    · refine passes_falsePad hL hpad (hpc₁.trans ?_) hm₁ hk₁ hS₁
      show (_ : Nat) = _
      rw [sizeOfRest]; omega

theorem passes_slots (hL : Describes L lines) : (slots : List Slot) → SlotsObey R slots → ∀ {defaults : List Value}
    {a k : Nat} {m : Moment σ}, CodeAt lines a (codeOfSlots a defaults slots) → m.pc = a → m.Laid L →
    m.scopes.below.length = k →
    Passes host options lines L m (Stays k a (a + sizeOfSlots defaults slots))
      (fun m' => m'.pc = a + sizeOfSlots defaults slots ∧
        ∃ vs, vs.length = defaults.length ∧ (m.scopes.pushAll vs).Similar m'.scopes)
  | [], _, defaults, a, k, m, h, hpc, hm, hk => passes_values hL defaults h hpc hm hk
  | slot :: rest, hobeys, defaults, a, k, m, h, hpc, hm, hk => by
    rw [codeOfSlots] at h
    rw [sizeOfSlots, ← Nat.add_assoc]
    have hempty : defaults.head?.isNone = defaults.isEmpty := by cases defaults <;> rfl
    have hcode := h.right (b := a + slot.size defaults.isEmpty) (by rw [slot.length_code, hempty])
    have hslot : Passes host options lines L m _ _ := slot.passes hL hobeys.1 h.left hpc hm hk
    rw [hempty] at hslot
    refine (hslot.mono fun m' h' => h'.widen (Nat.le_refl _) (Nat.le_add_right _ _)).bind ?_
    rintro m₁ hm₁ ⟨hpc₁, vs, hvs, hS₁⟩ _
    have hk₁ := hS₁.depth.trans ((congrArg List.length (Scopes.below_pushAll vs m.scopes)).trans hk)
    have hrest : Passes host options lines L m₁ _ _ := passes_slots hL rest hobeys.2 hcode hpc₁ hm₁ hk₁
    refine (hrest.mono fun m' h' => h'.widen (Nat.le_add_right _ _) (Nat.le_refl _)).imp ?_
    rintro m' ⟨hpc', ws, hws, hS'⟩
    refine ⟨hpc', vs ++ ws, ?_, ?_⟩
    · rw [List.length_append, hvs, hws]
      cases defaults with
      | nil => rfl
      | cons v rest => exact Nat.add_comm 1 rest.length
    · rw [Scopes.pushAll_append]
      exact hS₁.pushAll.trans hS'

theorem Slot.passes (hL : Describes L lines) : (slot : Slot) → slot.Obeys R → ∀ {standard : Option Value}
    {a k : Nat} {m : Moment σ}, CodeAt lines a (slot.code a standard) → m.pc = a → m.Laid L →
    m.scopes.below.length = k →
    Passes host options lines L m (Stays k a (a + slot.size standard.isNone))
      (fun m' => m'.pc = a + slot.size standard.isNone ∧
        ∃ vs, vs.length = standard.toList.length ∧ (m.scopes.pushAll vs).Similar m'.scopes)
  | .omitted, _, none, a, k, m, _, hpc, hm, _ => .here hm ⟨hpc, [], rfl, .refl m.scopes⟩
  | .omitted, _, some v, a, k, m, h, hpc, hm, hk => passes_values hL [v] h hpc hm hk
  | .given e, hobeys, none, a, k, m, h, hpc, hm, hk => by
    rw [Slot.code] at h
    have he : Passes host options lines L m _ _ := e.passes hL hobeys h.left hpc hm hk
    refine (he.mono fun m' h' => h'.widen (Nat.le_refl _) (Nat.le_succ _)).bind ?_
    rintro m₁ hm₁ ⟨hpc₁, v, hS₁⟩ _
    obtain ⟨S₁, hS₁', hsimilar⟩ := hS₁.uncons
    have hpop := h.right (b := m₁.pc) (by rw [e.length_code, hpc₁])
    have hstay : Stays k a (a + (e.size + 1)) m₁ := .at (hS₁.depth.trans hk) (by omega) (by omega)
    refine .plain hL hm₁ hstay hpop rfl (show [v].length = 1 from rfl) hS₁' ?_
    intro m' given hm' hpc' hgiven hS'
    cases List.eq_nil_of_length_eq_zero hgiven
    have hpc' : m'.pc = m₁.pc + 1 := hpc'
    refine .here hm' ⟨hpc'.trans (congrArg (· + 1) hpc₁), [], rfl, ?_⟩
    rw [hS']
    exact hsimilar
  | .given e, hobeys, some _, a, k, m, h, hpc, hm, hk => by
    have he : Passes host options lines L m _ _ := e.passes hL hobeys h.left hpc hm hk
    refine he.imp ?_
    rintro m' ⟨hpc', v, hS'⟩
    exact ⟨hpc', [v], rfl, hS'⟩

end

end Passes

end MacroBasic
