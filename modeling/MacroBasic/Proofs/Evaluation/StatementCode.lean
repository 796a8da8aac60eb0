/-
The lines of a script without routines do what the interpreter does. Between two statements the stack holds
what the loops around them keep there and nothing else; the names stand for what the interpreter says.
-/
import MacroBasic.Proofs.Evaluation.ExpressionCode
import MacroBasic.Proofs.Evaluation.Statement
import MacroBasic.Proofs.Grammar.Rules

namespace MacroBasic

open Machine

/-! ## Scripts without calls -/

section CallFree

variable {R : Rules}

mutual

/-- An expression that may call nothing calls nothing. -/
theorem Expr.callFree_of_obeys (hnone : ∀ r, ¬ R.routine r) : (e : Expr) → e.Obeys R → e.CallFree
  | .literal _, _ | .variable _, _ => trivial
  | .call r _, h => absurd h.1 (hnone r)
  | .unary _ e, h => Expr.callFree_of_obeys hnone e h
  | .binary _ l r, h => ⟨Expr.callFree_of_obeys hnone l h.1, Expr.callFree_of_obeys hnone r h.2⟩
  | .conjunction first rest, h => ⟨Expr.callFree_of_obeys hnone first h.1, allCallFree_of_obey hnone rest h.2⟩
  | .choice c x y, h =>
    ⟨Expr.callFree_of_obeys hnone c h.1, Expr.callFree_of_obeys hnone x h.2.1, Expr.callFree_of_obeys hnone y h.2.2⟩
  | .dialog _ slots, h => slotsCallFree_of_obey hnone slots h

theorem allCallFree_of_obey (hnone : ∀ r, ¬ R.routine r) : (es : List Expr) → AllObey R es → AllCallFree es
  | [], _ => trivial
  | e :: rest, h => ⟨Expr.callFree_of_obeys hnone e h.1, allCallFree_of_obey hnone rest h.2⟩

theorem slotsCallFree_of_obey (hnone : ∀ r, ¬ R.routine r) :
    (slots : List Slot) → SlotsObey R slots → SlotsCallFree slots
  | [], _ => trivial
  | .omitted :: rest, h => ⟨trivial, slotsCallFree_of_obey hnone rest h.2⟩
  | .given e :: rest, h => ⟨Expr.callFree_of_obeys hnone e h.1, slotsCallFree_of_obey hnone rest h.2⟩

end

end CallFree

/-! ## Names below values -/

namespace Scopes

theorem allocate_pushAll (b : Binding) (vs : List Value) (s : Scopes) :
    (s.pushAll vs).allocate b = (s.allocate b).pushAll vs := by
  induction vs generalizing s with
  | nil => rfl
  | cons v vs ih => exact ih (s.cons v)

theorem assign?_cons (name : String) (v w : Value) (s : Scopes) :
    (s.cons w).assign? name v = (s.assign? name v).map (Scopes.cons w) := by
  have htop : (s.cons w).top.assign? name v =
      (s.top.assign? name v).map fun top => { top with stack := top.stack.cons w } := by
    show (Scope.replace? name v s.top.names).map _ = ((Scope.replace? name v s.top.names).map _).map _
    cases Scope.replace? name v s.top.names <;> rfl
  unfold Scopes.assign?
  rw [htop]
  cases s.top.assign? name v with
  | some top => rfl
  | none =>
    simp only [Option.map_none, below_cons]
    split
    · rfl
    · rfl

theorem assign?_pushAll (name : String) (v : Value) (vs : List Value) (s : Scopes) :
    ((s.pushAll vs).assign? name v).getD (s.pushAll vs) = ((s.assign? name v).getD s).pushAll vs := by
  induction vs generalizing s with
  | nil => rfl
  | cons w vs ih =>
    refine (ih (s.cons w)).trans ?_
    rw [assign?_cons]
    cases s.assign? name v <;> rfl

theorem declare_pushAll (names : List String) (vs : List Value) (s : Scopes) :
    (s.pushAll vs).declare names = (s.declare names).pushAll vs := by
  induction names generalizing s with
  | nil => rfl
  | cons name names ih =>
    show ((s.pushAll vs).allocate { name := name }).declare names = _
    rw [allocate_pushAll]
    exact ih _

theorem define_pushAll (definitions : List (String × Value)) (vs : List Value) (s : Scopes) :
    (s.pushAll vs).define definitions = (s.define definitions).pushAll vs := by
  induction definitions generalizing s with
  | nil => rfl
  | cons d definitions ih =>
    show ((s.pushAll vs).allocate { name := d.1, kind := .constant, value := d.2 }).define definitions = _
    rw [allocate_pushAll]
    exact ih _

end Scopes

/-! ## Doing what a conversation says -/

theorem Talk.within_bind {α β : Type} (s : Scopes) (x : Talk FaultCode α) (k : α → Talk FaultCode β) :
    (x >>= k).within s = x.within s >>= fun a => (k a).within s := by
  induction x with
  | done a => rfl
  | fail e => rfl
  | ask r next ih => exact congrArg (Talk.ask r) (funext ih)

/-- Where a conversation leads that ends so. -/
def goalFor {α : Type} (goal : α → Goal) : Except (FaultCode × Scopes) α → Goal
  | .ok a => goal a
  | .error (code, s) => .fault code s.bindings

/-- From a configuration on, the machine does what a conversation says and gets to the goal it gives, unless a
full stack stops it. -/
def Does (ui : Bool) (lines : Array Line) {α : Type} (x : Doing α) (c : Config) (goal : α → Goal) : Prop :=
  ∀ t r, x.Yields t r → Leads ui lines True c t (goalFor goal r)

namespace Does

variable {ui : Bool} {lines : Array Line} {α β : Type} {x : Doing α} {k : α → Doing β} {c c' : Config}
  {f : α → Config} {goal goal' : β → Goal}

theorem pure {b : β} (h : Leads ui lines True c [] (goal b)) : Does ui lines (pure b : Doing β) c goal := by
  intro t r hr
  obtain ⟨rfl, rfl⟩ := Talk.yields_pure.1 hr
  exact h

theorem bind (hx : Does ui lines x c fun a => .reach (f a)) (hk : ∀ a, Does ui lines (k a) (f a) goal) :
    Does ui lines (x >>= k) c goal := by
  intro t r hr
  rcases Talk.yields_bind.1 hr with ⟨e, hfail, rfl⟩ | ⟨a, t₁, t₂, rfl, ha, hrest⟩
  · exact hx t (.error e) hfail
  · exact (hx t₁ (.ok a) ha).trans (hk a t₂ r hrest)

/-- One conversation after another of which the first takes an instruction at least. -/
theorem bind_onward (hx : Does ui lines x c fun a => .progress (f a)) (hk : ∀ a, Does ui lines (k a) (f a) goal) :
    Does ui lines (x >>= k) c fun b => (goal b).onward := by
  intro t r hr
  rcases Talk.yields_bind.1 hr with ⟨e, hfail, rfl⟩ | ⟨a, t₁, t₂, rfl, ha, hrest⟩
  · exact hx t (.error e) hfail
  · have hboth := (hx t₁ (.ok a) ha).onward (hk a t₂ r hrest)
    rcases r with ⟨code, s⟩ | b <;> exact hboth

/-- Instructions that say nothing come first. -/
theorem after {y : Doing β} (h : Leads ui lines True c [] (.reach c')) (hy : Does ui lines y c' goal) :
    Does ui lines y c goal := fun t r hr => h.trans (hy t r hr)

theorem imp {y : Doing β} (hy : Does ui lines y c goal)
    (h : ∀ b t, Leads ui lines True c t (goal b) → Leads ui lines True c t (goal' b)) : Does ui lines y c goal' := by
  intro t r hr
  rcases r with ⟨code, s⟩ | b
  · exact hy t (.error (code, s)) hr
  · exact h b t (hy t (.ok b) hr)

theorem of_onward {y : Doing β} (hy : Does ui lines y c fun b => (goal b).onward) : Does ui lines y c goal :=
  hy.imp fun _ _ h => h.of_onward

theorem bind_progress (hx : Does ui lines x c fun a => .progress (f a)) (hk : ∀ a, Does ui lines (k a) (f a) goal) :
    Does ui lines (x >>= k) c goal := (bind_onward hx hk).of_onward

/-- Code for a conversation that leaves the names as they are. -/
theorem within {x : Talk FaultCode α} {s s' : Scopes} {b : Address} {g : α → Scopes}
    (hs : s'.bindings = s.bindings)
    (h : ∀ t r, x.Yields t r → Leads ui lines True c t (goalOf b s' (r.map g))) :
    Does ui lines (x.within s) c fun a => .reach ⟨b, g a⟩ := by
  intro t r hr
  obtain ⟨r', hr', rfl⟩ := Talk.yields_mapError.1 hr
  have hlead := h t r' hr'
  cases r' with
  | ok a => exact hlead
  | error code =>
    show Leads ui lines True c t (.fault code s.bindings)
    rw [← hs]
    exact hlead

/-- An instruction that asks once and goes on in the same way whatever the reply. -/
theorem request {r : Request} {next : r.Reply → Talk (Fault × Scopes) Config} {a : Address} {s : Scopes}
    {i : Instruction} {code : List Instruction} (h : CodeAt lines a (i :: code))
    (hi : advance ui i ⟨a, s⟩ = .ask r next) (hn : ∀ reply, next reply = .done c') :
    Does ui lines (.request r) ⟨a, s⟩ fun _ => .reach c' := by
  intro t o hr
  obtain ⟨reply, t', rfl, hdone⟩ := Talk.yields_ask.1 hr
  cases hdone
  exact h.asks hi reply (hn reply)

end Does

/-! ## Instructions of statements -/

section Instructions

variable {ui : Bool} {lines : Array Line} {a : Address} {s S : Scopes} {i : Instruction} {code : List Instruction}

/-- The values of loops are not among what names stand for. -/
theorem Scopes.get?_pushAll (name : String) (vs : List Value) (s : Scopes) :
    (s.pushAll vs).get? name = s.get? name := congrFun (Scopes.lookup_pushAll vs s) name

theorem Expr.value_does {e : Expr} (hfree : e.CallFree) (h : CodeAt lines a (e.code a)) (vs : List Value) :
    Does ui lines (e.value ui S) ⟨a, S.pushAll vs⟩ fun v => .reach ⟨a + e.size, (S.pushAll vs).cons v⟩ := by
  refine Does.within (Scopes.bindings_pushAll vs S) fun t r hr => ?_
  rw [← Scopes.lookup_pushAll vs S] at hr
  exact (e.code_leads hfree h hr).mono fun _ => trivial

theorem readName_does {name : String} (h : CodeAt lines a (.pushVariable name :: code))
    (hs : s.bindings = S.bindings) (hl : s.lookup = S.lookup) :
    Does ui lines ((readName S.lookup name).within S) ⟨a, s⟩ fun v => .reach ⟨a + 1, s.cons v⟩ := by
  refine Does.within hs fun t r hr => ?_
  rw [← hl] at hr
  exact readName_leads h hr fun _ => trivial

theorem binary_does {op : BinaryOperator} {x y : Value} (h : CodeAt lines a (.binary op :: code))
    (hs : s.bindings = S.bindings) :
    Does ui lines ((Talk.calculate (op.apply x y)).within S) ⟨a, (s.cons x).cons y⟩
      fun v => .reach ⟨a + 1, s.cons v⟩ :=
  Does.within hs fun _ _ hr => binary_leads h hr fun _ => trivial

/-- A branch goes to one of two addresses, depending on the top value. -/
def Branches (ui : Bool) (i : Instruction) (a : Address) (target : Bool → Address) : Prop :=
  ∀ (s : Scopes) (v : Value), advance ui i ⟨a, s.cons v⟩ =
    match v.toBoolean with
    | .ok x => .done ⟨target x, s⟩
    | .error f => .fail (calculationFault "jump" i f, s)

theorem branches_jumpFalse (b : Address) : Branches ui (.jumpFalse b) a fun x => if x then a + 1 else b :=
  fun s v => advance_jumpFalse ui a s b v

theorem branches_jumpTrue (b : Address) : Branches ui (.jumpTrue b) a fun x => if x then b else a + 1 :=
  fun s v => advance_jumpTrue ui a s b v

theorem branch_does {target : Bool → Address} {v : Value} (hi : Branches ui i a target)
    (h : CodeAt lines a (i :: code)) (hs : s.bindings = S.bindings) :
    Does ui lines ((Talk.calculate v.toBoolean).within S) ⟨a, s.cons v⟩ fun x => .progress ⟨target x, s⟩ := by
  intro t r hr
  obtain ⟨r', hr', rfl⟩ := Talk.yields_mapError.1 hr
  obtain ⟨rfl, rfl⟩ := Talk.yields_calculate.1 hr'
  have hadv := hi s v
  obtain ⟨line, hline, hinstr⟩ := h.head
  cases hb : v.toBoolean with
  | ok x =>
    rw [hb] at hadv
    refine .inl ⟨0, .one hline ?_⟩
    rw [hinstr, hadv]
    exact .done _
  | error f =>
    rw [hb] at hadv
    have hfault : Leads ui lines True _ _ _ := h.fails hadv
    rw [calculationFault_code, hs] at hfault
    exact hfault

/-- A condition with the branch behind it. -/
theorem holds_does {e : Expr} {target : Bool → Address} (hfree : e.CallFree)
    (hi : Branches ui i (a + e.size) target) (h : CodeAt lines a (e.code a ++ i :: code)) (vs : List Value) :
    Does ui lines (e.holds ui S) ⟨a, S.pushAll vs⟩ fun x => .progress ⟨target x, S.pushAll vs⟩ := by
  unfold Expr.holds
  rw [Talk.within_bind]
  have hbranch := h.right (b := a + e.size) (by rw [e.length_code])
  exact (Expr.value_does hfree h.left vs).bind fun v => branch_does hi hbranch (Scopes.bindings_pushAll vs S)

theorem store_does {name : String} {v : Value} {vs : List Value} (h : CodeAt lines a (.assign name :: code)) :
    Does ui lines (S.store name v) ⟨a, (S.pushAll vs).cons v⟩ fun S' => .reach ⟨a + 1, S'.pushAll vs⟩ := by
  intro t r hr
  unfold Scopes.store at hr
  cases hb : S.get? name with
  | some b =>
    rw [hb] at hr
    have hname : b.name = name := Scopes.name_of_get? hb
    have hadv := advance_assign_bound ui a (S.pushAll vs) v ((Scopes.get?_pushAll name vs S).trans hb)
    by_cases hk : b.kind = .constant
    · simp only [hk, if_true] at hr hadv
      cases hr
      have hfault : Leads ui lines True _ _ _ := h.fails hadv
      rwa [Scopes.bindings_pushAll] at hfault
    · simp only [hk, if_false] at hr hadv
      cases hr
      rw [hname, Scopes.assign?_pushAll] at hadv
      exact h.silent hadv
  | none =>
    rw [hb] at hr
    have hadv := advance_assign_unbound ui a (S.pushAll vs) v ((Scopes.get?_pushAll name vs S).trans hb)
    obtain ⟨taken, t', rfl, hdone⟩ := Talk.yields_ask.1 hr
    cases hdone
    refine h.asks hadv taken ?_
    cases (taken : Bool) with
    | true => rfl
    | false => simp only [Scopes.allocate_pushAll, Bool.false_eq_true, if_false]

end Instructions

/-! ## Loops that are being run -/

/-- A loop that is being run: what it keeps on the stack is the address behind it, above the values given here. -/
structure Running where
  kind : Loop
  below : List Value
  exit : Address
  length_below : below.length + 1 = kind.kept

/-- A `DO` loop that is being run. -/
def guardRunning (exit : Address) : Running := ⟨.doLoop, [], exit, rfl⟩

/-- A `FOR` loop that is being run. -/
def countRunning (limit step : Value) (exit : Address) : Running := ⟨.forLoop, [limit, step], exit, rfl⟩

/-- What running loops keep on the stack, where the innermost one comes first. -/
def held : List Running → List Value
  | [] => []
  | r :: rest => held rest ++ r.below ++ [.address r.exit]

/-- Where `EXIT` leads: to the address that the innermost loop of the kind keeps. -/
def landing (kind : Loop) (S : Scopes) : List Running → Goal
  | [] => .nowhere
  | r :: rest =>
    if r.kind = kind then .reach ⟨r.exit, S.pushAll (held rest ++ r.below)⟩ else landing kind S rest

/-- Where statements lead that end so and whose code goes on at an address. -/
def goalAt (b : Address) (loops : List Running) (n : Nat) : Ending → Goal
  | .done S => .reach ⟨b, S.pushAll (held loops)⟩
  | .exit kind S => landing kind S loops
  | .unfinished => .beyond n

section Loops

variable {ui : Bool} {lines : Array Line} {a : Address} {S : Scopes} {code : List Instruction}

theorem Scopes.pushAll_snoc (vs : List Value) (v : Value) (s : Scopes) :
    s.pushAll (vs ++ [v]) = (s.pushAll vs).cons v := Scopes.pushAll_append vs [v] s

/-- Dropping values one after the other. -/
theorem pops_lead {full : Prop} {s : Scopes} (vs : List Value)
    (h : CodeAt lines a (List.replicate vs.length .pop ++ code)) :
    Leads ui lines full ⟨a, s.pushAll vs⟩ [] (.reach ⟨a + vs.length, s⟩) := by
  -- the last value is on top, so it goes first
  generalize hn : vs.length = n at h ⊢
  induction n generalizing a vs with
  | zero =>
    rw [List.length_eq_zero_iff.1 hn]
    exact .here
  | succ n ih =>
    obtain ⟨ws, w, rfl⟩ : ∃ ws w, vs = ws ++ [w] := ⟨vs.dropLast, vs.getLast (by
      rintro rfl; cases hn), (List.dropLast_concat_getLast _).symm⟩
    rw [List.length_append, List.length_singleton] at hn
    rw [List.replicate_succ, List.cons_append] at h
    rw [Scopes.pushAll_snoc]
    have hpop : Leads ui lines full _ [] _ := h.silent (advance_pop ui a (s.pushAll ws) w)
    have hlen : ws.length = n := by omega
    have hrest := ih ws hlen h.tail
    rw [Nat.add_assoc, Nat.add_comm 1] at hrest
    exact hpop.trans hrest

/-- The code of `EXIT` drops what the loops inside keep and goes where the loop itself says. -/
theorem exit_leads {full : Prop} {kind : Loop} (loops : List Running) (hkind : kind ∈ loops.map Running.kind)
    (h : CodeAt lines a
      (List.replicate (keptBy ((loops.map Running.kind).takeWhile (· != kind))) .pop ++ [.jumpPop])) :
    Leads ui lines full ⟨a, S.pushAll (held loops)⟩ [] (landing kind S loops) := by
  induction loops generalizing a with
  | nil => cases hkind
  | cons r rest ih =>
    rw [held, landing]
    by_cases hr : r.kind = kind
    · have hinner : ((r :: rest).map Running.kind).takeWhile (· != kind) = [] := by
        simp [hr]
      rw [hinner] at h
      rw [if_pos hr, Scopes.pushAll_snoc]
      exact h.silent (advance_jumpPop ui a _ r.exit)
    · have hinner : ((r :: rest).map Running.kind).takeWhile (· != kind) =
          r.kind :: (rest.map Running.kind).takeWhile (· != kind) := by
        simp [hr]
      rw [hinner, keptBy, ← List.replicate_append_replicate, List.append_assoc] at h
      have hlen : (r.below ++ [Value.address r.exit]).length = r.kind.kept := by
        rw [List.length_append, List.length_singleton, r.length_below]
      rw [if_neg hr, List.append_assoc, Scopes.pushAll_append]
      rw [← hlen] at h
      have hmem : kind ∈ rest.map Running.kind := by
        rcases List.mem_cons.1 hkind with hk | hk
        · exact absurd hk.symm hr
        · exact hk
      have hcode := h.right (b := a + (r.below ++ [Value.address r.exit]).length) (by rw [List.length_replicate])
      exact (pops_lead _ h).trans (ih hmem hcode)

theorem goalAt_mono {b : Address} {loops : List Running} {k n : Nat} {e : Ending} {c : Config} {t : List Exchange}
    (hk : k ≤ n) (h : Leads ui lines True c t (goalAt b loops n e)) :
    Leads ui lines True c t (goalAt b loops k e) := by
  cases e with
  | done | exit => exact h
  | unfinished =>
    rcases h with ⟨m, c', hm, path⟩ | h
    · exact .inl ⟨m, c', Nat.le_trans hk hm, path⟩
    · exact .inr h

/-- Where a pass leads: back to the top of the loop, or where the loop leads. -/
def passGoal (top : Scopes → Config) (goal : Ending → Goal) : Pass → Goal
  | .again s => .progress (top s)
  | .stop e => goal e

/-- Passes of a loop. Each but the first begins at the top of the loop. -/
theorem repeated_does {pass : Scopes → Doing Pass} {top : Scopes → Config} {b : Address} {loops : List Running}
    {n : Nat} (hpass : ∀ s, Does ui lines (pass s) (top s) (passGoal top (goalAt b loops n))) (k : Nat) (hk : k ≤ n)
    (s : Scopes) (c : Config) (hfirst : Does ui lines (pass s) c (passGoal top (goalAt b loops n))) :
    Does ui lines (repeated pass k s) c (goalAt b loops k) := by
  induction k generalizing s c with
  | zero => exact Does.pure (.inl ⟨0, c, Nat.le_refl _, .here c⟩)
  | succ k ih =>
    intro t r hr
    rw [repeated] at hr
    rcases Talk.yields_bind.1 hr with ⟨e, hfail, rfl⟩ | ⟨p, t₁, t₂, rfl, hp, hrest⟩
    · exact hfirst t (.error e) hfail
    · have hlead := hfirst t₁ (.ok p) hp
      cases p with
      | stop e =>
        obtain ⟨rfl, rfl⟩ := Talk.yields_pure.1 hrest
        rw [List.append_nil]
        exact goalAt_mono hk hlead
      | again s' =>
        have hmore := ih (by omega) s' (top s') (hpass s') t₂ r hrest
        have hreach : Leads ui lines True c t₁ (.reach (top s')) := Leads.of_onward hlead
        rcases r with ⟨code, s''⟩ | e
        · exact hreach.trans hmore
        · cases e with
          | done | exit => exact hreach.trans hmore
          | unfinished => exact hlead.succ hmore

/-- What follows statements that may be left on the way. -/
theorem andThen_does {x : Doing Ending} {k : Scopes → Doing Ending} {c : Config} {b b' : Address}
    {loops : List Running} {n : Nat} (hx : Does ui lines x c (goalAt b' loops n))
    (hk : ∀ s, Does ui lines (k s) ⟨b', s.pushAll (held loops)⟩ (goalAt b loops n)) :
    Does ui lines (x >>= fun e => e.andThen k) c (goalAt b loops n) := by
  intro t r hr
  rcases Talk.yields_bind.1 hr with ⟨e, hfail, rfl⟩ | ⟨e, t₁, t₂, rfl, he, hrest⟩
  · exact hx t (.error e) hfail
  · have hlead := hx t₁ (.ok e) he
    cases e with
    | done s => exact hlead.trans (hk s t₂ r hrest)
    | exit | unfinished =>
      obtain ⟨rfl, rfl⟩ := Talk.yields_pure.1 hrest
      rw [List.append_nil]
      exact hlead

/-- Statements with instructions behind them that lead on. -/
theorem Does.goalAt_trans {x : Doing Ending} {c : Config} {b b' : Address} {loops : List Running} {n : Nat}
    (hx : Does ui lines x c (goalAt b' loops n))
    (h : ∀ s : Scopes, Leads ui lines True ⟨b', s.pushAll (held loops)⟩ [] (.reach ⟨b, s.pushAll (held loops)⟩)) :
    Does ui lines x c (goalAt b loops n) := by
  refine hx.imp fun e t hlead => ?_
  cases e with
  | done s =>
    have hboth := hlead.trans (h s)
    rwa [List.append_nil] at hboth
  | exit | unfinished => exact hlead

/-- What follows the body of a loop: the way out of this loop ends it, the way out of another goes on. -/
theorem passed_does {x : Doing Ending} {k : Scopes → Doing Pass} {c : Config} {goal : Pass → Goal} {b b' : Address}
    {running : Running} {loops : List Running} {n : Nat} (hstop : ∀ e, goal (.stop e) = goalAt b loops n e)
    (hx : Does ui lines x c (goalAt b' (running :: loops) n))
    (hexit : ∀ s : Scopes, Leads ui lines True ⟨running.exit, s.pushAll (held loops ++ running.below)⟩ []
      (.reach ⟨b, s.pushAll (held loops)⟩))
    (hk : ∀ s, Does ui lines (k s) ⟨b', s.pushAll (held (running :: loops))⟩ goal) :
    Does ui lines (x >>= fun e => e.passed running.kind k) c goal := by
  intro t r hr
  rcases Talk.yields_bind.1 hr with ⟨e, hfail, rfl⟩ | ⟨e, t₁, t₂, rfl, he, hrest⟩
  · exact hx t (.error e) hfail
  · have hlead := hx t₁ (.ok e) he
    cases e with
    | done s => exact hlead.trans (hk s t₂ r hrest)
    | unfinished =>
      obtain ⟨rfl, rfl⟩ := Talk.yields_pure.1 hrest
      rw [List.append_nil, goalFor, hstop]
      exact hlead
    | exit kind s =>
      obtain ⟨rfl, rfl⟩ := Talk.yields_pure.1 hrest
      rw [goalFor, hstop]
      change Leads ui lines True c t₁ (landing kind s (running :: loops)) at hlead
      rw [landing] at hlead
      by_cases hkind : running.kind = kind
      · rw [if_pos hkind] at hlead
        rw [if_pos hkind.symm]
        exact hlead.trans (hexit s)
      · rw [if_neg hkind] at hlead
        rw [if_neg (Ne.symm hkind), List.append_nil]
        exact hlead

/-! ## Conditions of loops -/

theorem headGuard_does {head : Option Guard} {b : Address} (hfree : ∀ g ∈ head, g.condition.CallFree)
    (h : CodeAt lines a (headCode a b head)) (vs : List Value) :
    Does ui lines (goesOn ui head S) ⟨a, S.pushAll vs⟩
      fun x => .reach ⟨if x then a + headSize head else b, S.pushAll vs⟩ := by
  cases head with
  | none => exact Does.pure .here
  | some g =>
    obtain ⟨untilTrue, condition⟩ := g
    have hcall : condition.CallFree := hfree _ rfl
    simp only [headCode] at h
    cases untilTrue with
    | true =>
      exact Does.of_onward (Does.bind_onward (holds_does hcall (branches_jumpTrue b) h vs) fun x => Does.pure (by
        cases x <;> exact .here))
    | false =>
      exact Does.of_onward (Does.bind_onward (holds_does hcall (branches_jumpFalse b) h vs) fun x => Does.pure (by
        cases x <;> exact .here))

theorem tailGuard_does {tail : Option Guard} {b : Address} (hfree : ∀ g ∈ tail, g.condition.CallFree)
    (h : CodeAt lines a (tailCode a b tail ++ code)) (vs : List Value) :
    Does ui lines (goesOn ui tail S) ⟨a, S.pushAll vs⟩
      fun x => .progress ⟨if x then b else a + tailSize tail, S.pushAll vs⟩ := by
  cases tail with
  | none =>
    obtain ⟨line, hline, hinstr⟩ := h.head
    refine Does.pure (.inl ⟨0, .one hline ?_⟩)
    rw [hinstr, advance_jump]
    exact .done _
  | some g =>
    obtain ⟨untilTrue, condition⟩ := g
    have hcall : condition.CallFree := hfree _ rfl
    simp only [tailCode, List.append_assoc, List.singleton_append] at h
    cases untilTrue with
    | true =>
      have hboth : Does ui lines (goesOn ui (some ⟨true, condition⟩) S) ⟨a, S.pushAll vs⟩
          fun x => Goal.onward (.reach ⟨if x then b else a + condition.size + 1, S.pushAll vs⟩) :=
        Does.bind_onward (holds_does hcall (branches_jumpFalse b) h vs) fun x => Does.pure (by
          cases x <;> exact .here)
      exact hboth
    | false =>
      have hboth : Does ui lines (goesOn ui (some ⟨false, condition⟩) S) ⟨a, S.pushAll vs⟩
          fun x => Goal.onward (.reach ⟨if x then b else a + condition.size + 1, S.pushAll vs⟩) :=
        Does.bind_onward (holds_does hcall (branches_jumpTrue b) h vs) fun x => Does.pure (by
          cases x <;> exact .here)
      exact hboth

/-- The test of a counting loop with the branch behind it. -/
theorem counts_does {counter : String} {limit step : Value} {s : Scopes} {i : Instruction} {target : Bool → Address}
    (h : CodeAt lines a (countTest counter ++ i :: code)) (hi : Branches ui i (a + 7) target)
    (hstep : s.items[1]? = some step) (hlimit : s.items[2]? = some limit) (hs : s.bindings = S.bindings)
    (hl : s.lookup = S.lookup) :
    Does ui lines (counts counter limit step S) ⟨a, s⟩ fun x => .progress ⟨target x, s⟩ := by
  unfold counts
  simp only [Talk.within_bind]
  have hcode : CodeAt lines a (.copy 2 :: .pushVariable counter :: .binary .subtract :: .copy 2 ::
    .binary .multiply :: .pushValue (.number 0.0) :: .binary .greaterEqual :: i :: code) := h
  refine Does.after (hcode.pushes (advance_copy ui a hlimit) fun _ => trivial) ?_
  refine (readName_does (s := s.cons limit) hcode.tail hs hl).bind fun current => ?_
  refine (binary_does hcode.tail.tail hs).bind fun distance => ?_
  refine Does.after (hcode.tail.tail.tail.pushes (advance_copy ui _ (s := s.cons distance) hstep)
    fun _ => trivial) ?_
  refine (binary_does hcode.tail.tail.tail.tail hs).bind fun product => ?_
  refine Does.after (hcode.tail.tail.tail.tail.tail.pushes (advance_pushValue ui _ _ _) fun _ => trivial) ?_
  refine (binary_does hcode.tail.tail.tail.tail.tail.tail hs).bind fun test => ?_
  exact branch_does hi hcode.tail.tail.tail.tail.tail.tail.tail hs

theorem advanceCounter_does {counter : String} {step : Value} {vs : List Value}
    (h : CodeAt lines a (.copy 1 :: .pushVariable counter :: .binary .add :: .assign counter :: code))
    (hstep : (S.pushAll vs).items[1]? = some step) :
    Does ui lines (advanceCounter counter step S) ⟨a, S.pushAll vs⟩ fun S' => .reach ⟨a + 4, S'.pushAll vs⟩ := by
  unfold advanceCounter
  simp only [Talk.within_bind]
  have hs := Scopes.bindings_pushAll vs S
  refine Does.bind (f := fun v => ⟨a + 3, (S.pushAll vs).cons v⟩) ?_ fun next => store_does h.tail.tail.tail
  refine Does.after (h.pushes (advance_copy ui a hstep) fun _ => trivial) ?_
  refine (readName_does (s := (S.pushAll vs).cons step) h.tail hs (Scopes.lookup_pushAll vs S)).bind
    fun current => ?_
  exact binary_does h.tail.tail hs

/-! ## Loops -/

/-- A `DO` loop whose body does what it should. -/
theorem guardLoop_does {head tail : Option Guard} {body : Scopes → Doing Ending} {size n : Nat} {loops : List Running}
    {start done : Address} (hstart : start = a + 1 + headSize head) (hdone : done = start + size + tailSize tail)
    (hhead : ∀ g ∈ head, g.condition.CallFree) (htail : ∀ g ∈ tail, g.condition.CallFree)
    (hopen : CodeAt lines a (.pushValue (.address (done + 1)) :: headCode (a + 1) done head))
    (hclose : CodeAt lines (start + size) (tailCode (start + size) (a + 1) tail ++ [.pop]))
    (hbody : ∀ s, Does ui lines (body s) ⟨start, s.pushAll (held (guardRunning (done + 1) :: loops))⟩
      (goalAt (start + size) (guardRunning (done + 1) :: loops) n)) :
    Does ui lines (repeated (guardPass ui head tail body) n S) ⟨a, S.pushAll (held loops)⟩
      (goalAt (done + 1) loops n) := by
  -- while the loop runs, the address behind it is on top of the stack
  have hheld (s : Scopes) : s.pushAll (held (guardRunning (done + 1) :: loops)) =
      (s.pushAll (held loops)).cons (.address (done + 1)) := by
    rw [held, Scopes.pushAll_snoc, guardRunning, List.append_nil]
  have hend (s : Scopes) : Leads ui lines True ⟨done, s.pushAll (held (guardRunning (done + 1) :: loops))⟩ []
      (.reach ⟨done + 1, s.pushAll (held loops)⟩) := by
    have hpop := hclose.right (b := done) (by rw [length_tailCode, hdone])
    rw [hheld]
    exact hpop.silent (advance_pop ui done _ _)
  let top : Scopes → Config := fun s => ⟨a + 1, s.pushAll (held (guardRunning (done + 1) :: loops))⟩
  have hpass (s : Scopes) : Does ui lines (guardPass ui head tail body s) (top s)
      (passGoal top (goalAt (done + 1) loops n)) := by
    unfold guardPass
    refine (headGuard_does hhead hopen.tail _).bind fun goes => ?_
    cases goes with
    | false => exact Does.pure (hend s)
    | true =>
      simp only [if_true]
      rw [← hstart]
      refine passed_does (fun _ => rfl) (hbody s) (fun s => by rw [guardRunning, List.append_nil]; exact .here) fun s => ?_
      -- the test of the tail leads back to the head, or to the end where that address is dropped
      have htest : Does ui lines (goesOn ui tail s) _ _ :=
        tailGuard_does htail hclose (held (guardRunning (done + 1) :: loops))
      intro t r hr
      rcases Talk.yields_bind.1 hr with ⟨e, hfail, rfl⟩ | ⟨goes, t₁, t₂, rfl, hgoes, hrest⟩
      · exact htest t (.error e) hfail
      · have hlead := htest t₁ (.ok goes) hgoes
        cases goes with
        | true =>
          obtain ⟨rfl, rfl⟩ := Talk.yields_pure.1 hrest
          rw [List.append_nil]
          exact hlead
        | false =>
          obtain ⟨rfl, rfl⟩ := Talk.yields_pure.1 hrest
          have hreach : Leads ui lines True _ t₁ (.reach ⟨done, _⟩) := Leads.of_onward (by rw [hdone]; exact hlead)
          exact hreach.trans (hend s)
  refine Does.after (hopen.pushes (advance_pushValue ui a _ _) fun _ => trivial) ?_
  rw [← hheld]
  exact repeated_does hpass n (Nat.le_refl n) S (top S) (hpass S)

/-- A `FOR` loop whose body does what it should, from where its limit and its step are on the stack. -/
theorem countLoop_does {counter : String} {limit step : Value} {body : Scopes → Doing Ending} {size n : Nat}
    {loops : List Running} {again done : Address} (hagain : again = a + 9) (hdone : done = again + size + 12)
    (hopen : CodeAt lines a (.pushValue (.address (done + 1)) :: countTest counter ++ [Instruction.jumpFalse done]))
    (hclose : CodeAt lines (again + size) (closeCode counter again))
    (hbody : ∀ s, Does ui lines (body s) ⟨again, s.pushAll (held (countRunning limit step (done + 1) :: loops))⟩
      (goalAt (again + size) (countRunning limit step (done + 1) :: loops) n)) :
    Does ui lines (repeated (countPass counter limit step body) n S)
      ⟨a, ((S.pushAll (held loops)).cons limit).cons step⟩ (goalAt (done + 3) loops n) := by
  -- while the loop runs, its limit, its step and the address behind it are on top of the stack
  have hheld (s : Scopes) : s.pushAll (held (countRunning limit step (done + 1) :: loops)) =
      (((s.pushAll (held loops)).cons limit).cons step).cons (.address (done + 1)) := by
    rw [held, Scopes.pushAll_snoc, Scopes.pushAll_append]
    rfl
  unfold closeCode at hclose
  have hcode := hclose.right (b := again + size + 4) rfl
  have hpops := hcode.right (b := again + size + 11) rfl
  have hafter (s : Scopes) : Leads ui lines True ⟨done + 1, s.pushAll (held loops ++ [limit, step])⟩ []
      (.reach ⟨done + 3, s.pushAll (held loops)⟩) := by
    rw [Scopes.pushAll_append]
    have hcode : CodeAt lines (done + 1) (List.replicate 2 .pop ++ []) := by
      rw [hdone]
      exact hpops.tail.tail
    exact pops_lead [limit, step] hcode
  have hend (s : Scopes) :
      Leads ui lines True ⟨done, s.pushAll (held (countRunning limit step (done + 1) :: loops))⟩ []
        (.reach ⟨done + 3, s.pushAll (held loops)⟩) := by
    have hcode : CodeAt lines done (List.replicate 3 .pop ++ []) := by
      rw [hdone]
      exact hpops.tail
    rw [hheld]
    exact pops_lead [limit, step, .address (done + 1)] hcode
  have hitems (s : Scopes) : (s.pushAll (held (countRunning limit step (done + 1) :: loops))).items =
      .address (done + 1) :: step :: limit :: (s.pushAll (held loops)).items := by rw [hheld]; rfl
  -- each pass but the first begins with the test behind the body
  let top : Scopes → Config :=
    fun s => ⟨again + size + 4, s.pushAll (held (countRunning limit step (done + 1) :: loops))⟩
  let turn : Pass → Goal := fun
    | .again s => .reach (top s)
    | .stop e => goalAt (done + 3) loops n e
  have hpass (s : Scopes) (p : Address) (htest : Does ui lines (counts counter limit step s)
        ⟨p, s.pushAll (held (countRunning limit step (done + 1) :: loops))⟩ fun x => .progress
        ⟨if x then again else done, s.pushAll (held (countRunning limit step (done + 1) :: loops))⟩) :
      Does ui lines (countPass counter limit step body s)
        ⟨p, s.pushAll (held (countRunning limit step (done + 1) :: loops))⟩
        (passGoal top (goalAt (done + 3) loops n)) := by
    -- the test alone takes some instructions, so that every pass does
    have hturn : Does ui lines (countPass counter limit step body s)
        ⟨p, s.pushAll (held (countRunning limit step (done + 1) :: loops))⟩ fun e => (turn e).onward := by
      refine Does.bind_onward htest fun goes => ?_
      cases goes with
      | false => exact Does.pure (hend s)
      | true =>
        refine passed_does (fun _ => rfl) (hbody s) hafter fun s => ?_
        exact (advanceCounter_does hclose (by rw [hitems]; rfl)).bind fun s' => Does.pure .here
    refine hturn.imp fun e t h => ?_
    cases e with
    | again s' => exact h
    | stop e => exact h.of_onward
  have htail (s : Scopes) : Does ui lines (counts counter limit step s) (top s) fun x => .progress
      ⟨if x then again else done, s.pushAll (held (countRunning limit step (done + 1) :: loops))⟩ := by
    subst hdone
    exact counts_does hcode (branches_jumpTrue again) (by rw [hitems]; rfl) (by rw [hitems]; rfl)
      (Scopes.bindings_pushAll _ s) (Scopes.lookup_pushAll _ s)
  refine Does.after (hopen.pushes (advance_pushValue ui a _ _) fun _ => trivial) ?_
  rw [← hheld]
  refine repeated_does (fun s => hpass s _ (htail s)) n (Nat.le_refl n) S _ (hpass S (a + 1) ?_)
  subst hagain
  exact counts_does hopen.tail (branches_jumpFalse done) (by rw [hitems]; rfl) (by rw [hitems]; rfl)
    (Scopes.bindings_pushAll _ S) (Scopes.lookup_pushAll _ S)

end Loops

/-! ## Simple statements -/

section Simple

variable {ui : Bool} {lines : Array Line} {a : Address} {S : Scopes} {code : List Instruction}

theorem declare_leads {full : Prop} {names : List String} {s : Scopes} (h : CodeAt lines a (names.map .allocVar)) :
    Leads ui lines full ⟨a, s⟩ [] (.reach ⟨a + names.length, s.declare names⟩) := by
  induction names generalizing a s with
  | nil => exact .here
  | cons name names ih =>
    rw [List.map_cons] at h
    have halloc : Leads ui lines full _ [] _ := h.silent (advance_allocVar ui a s name)
    have hrest := ih (s := s.allocate { name := name }) h.tail
    rw [Nat.add_assoc, Nat.add_comm 1] at hrest
    exact halloc.trans hrest

theorem define_leads {full : Prop} {definitions : List (String × Value)} {s : Scopes}
    (h : CodeAt lines a (definitions.map fun (name, v) => .allocConst name v)) :
    Leads ui lines full ⟨a, s⟩ [] (.reach ⟨a + definitions.length, s.define definitions⟩) := by
  induction definitions generalizing a s with
  | nil => exact .here
  | cons d definitions ih =>
    rw [List.map_cons] at h
    have halloc : Leads ui lines full _ [] _ := h.silent (advance_allocConst ui a s d.1 d.2)
    have hrest := ih (s := s.allocate { name := d.1, kind := .constant, value := d.2 }) h.tail
    rw [Nat.add_assoc, Nat.add_comm 1] at hrest
    exact halloc.trans hrest

theorem stepValue_does {step : Option Expr} (hfree : ∀ e ∈ step, e.CallFree) (h : CodeAt lines a (stepCode a step))
    {s : Scopes} (hs : s.bindings = S.bindings) (hl : s.lookup = S.lookup) :
    Does ui lines (stepValue ui step S) ⟨a, s⟩ fun v => .reach ⟨a + stepSize step, s.cons v⟩ := by
  cases step with
  | none => exact Does.pure (h.pushes (advance_pushValue ui a s _) fun _ => trivial)
  | some e =>
    refine Does.within hs fun t r hr => ?_
    rw [← hl] at hr
    exact (e.code_leads (hfree e rfl) h hr).mono fun _ => trivial

theorem printed_does {e : Option Expr} (hfree : ∀ x ∈ e, x.CallFree) (h : CodeAt lines a (printCode a e))
    (vs : List Value) :
    Does ui lines (printed ui e S) ⟨a, S.pushAll vs⟩ fun v => .reach ⟨a + printSize e, (S.pushAll vs).cons v⟩ := by
  cases e with
  | none => exact Does.pure (h.pushes (advance_pushValue ui a _ _) fun _ => trivial)
  | some e => exact Expr.value_does (hfree e rfl) h vs

/-- The instruction of a dialog in a statement, with the one that drops the answer. -/
theorem dialogTail_leads {d : Dialog} {ws : List Value} {s : Scopes} {t : List Exchange} {r : Except FaultCode Value}
    (h : CodeAt lines a (.dialog d :: if d.answers then [.pop] else [])) (hlen : ws.length = d.defaults.length)
    (hr : (d.converse ui ws).Yields t r) :
    Leads ui lines True ⟨a, s.pushAll ws⟩ t (goalOf (a + if d.answers then 2 else 1) s (r.map fun _ => s)) := by
  -- the answer of a dialog that has one is on the stack and is dropped
  have hdrop (h : CodeAt lines (a + 1) [.pop]) (hlead : Leads ui lines True ⟨a, s.pushAll ws⟩ t
      (goalOf (a + 1) s (r.map s.cons))) : Leads ui lines True ⟨a, s.pushAll ws⟩ t
      (goalOf (a + 2) s (r.map fun _ => s)) := by
    cases r with
    | error code => exact hlead
    | ok v =>
      have hboth := hlead.trans (h.silent (advance_pop ui (a + 1) s v))
      rw [List.append_nil] at hboth
      exact hboth
  cases d with
  | message =>
    match ws, hlen with
    | [kind, text], _ => exact message_leads h hr
  | msgBox =>
    match ws, hlen with
    | [prompt, buttons, title], _ => exact hdrop h.tail (msgBox_leads h hr fun _ => trivial)
  | inputBox =>
    match ws, hlen with
    | [prompt, title, initial], _ => exact hdrop h.tail (inputBox_leads h hr fun _ => trivial)

/-- A dialog in a statement leaves nothing behind. -/
theorem dialogStatement_does {d : Dialog} {slots : List Slot} (hfree : SlotsCallFree slots)
    (h : CodeAt lines a (codeOfSlots a d.defaults slots ++ .dialog d :: if d.answers then [.pop] else []))
    (vs : List Value) :
    Does ui lines (Talk.within S do d.converse ui (← evaluateSlots ui S.lookup d.defaults slots))
      ⟨a, S.pushAll vs⟩ fun _ => .reach ⟨a + (sizeOfSlots d.defaults slots + if d.answers then 2 else 1),
        S.pushAll vs⟩ := by
  refine Does.within (Scopes.bindings_pushAll vs S) fun t r hr => ?_
  rw [← Scopes.lookup_pushAll vs S] at hr
  have htail := h.right (b := a + sizeOfSlots d.defaults slots) (by rw [length_codeOfSlots])
  rcases Talk.yields_bind.1 hr with ⟨code, hfail, rfl⟩ | ⟨ws, t₁, t₂, rfl, hws, hrest⟩
  · exact (slots_lead slots hfree h.left hfail).mono fun _ => trivial
  · refine ((slots_lead slots hfree h.left hws).mono fun _ => trivial).trans ?_
    rw [← Nat.add_assoc]
    exact dialogTail_leads htail (length_of_evaluateSlots ui _ hws) hrest

end Simple

/-! ## Statements -/

section Statements

variable {ui : Bool} {lines : Array Line} {R : Rules} {n : Nat}

mutual

theorem Stmt.lines_do (hnone : ∀ r, ¬ R.routine r) : (stmt : Stmt) → ∀ {a : Nat} {p : Position}
    {loops : List Running} {S : Scopes}, stmt.Obeys R (loops.map Running.kind) false → stmt.routines a = [] →
    CodeAt lines a (instructionsOf (stmt.lines a p)) →
    Does ui lines (stmt.interpret ui n S) ⟨a, S.pushAll (held loops)⟩ (goalAt (a + stmt.size) loops n)
  | .share _, a, p, loops, S, _, _, _ => by
    rw [Stmt.interpret]
    exact Does.pure .here
  | .declare names, a, p, loops, S, _, _, h => by
    rw [Stmt.interpret]
    rw [Stmt.lines, instructionsOf_mark] at h
    refine Does.pure ?_
    rw [Stmt.size, goalAt, ← Scopes.declare_pushAll]
    exact declare_leads h
  | .constants definitions, a, p, loops, S, _, _, h => by
    rw [Stmt.interpret]
    rw [Stmt.lines, instructionsOf_mark] at h
    refine Does.pure ?_
    rw [Stmt.size, goalAt, ← Scopes.define_pushAll]
    exact define_leads h
  -- without routines there is none to define, to leave or to call
  | .routine _ _ _ _, _, _, _, _, _, hfree, _ => by cases hfree
  | .exitRoutine, _, _, _, _, hobeys, _, _ => by cases hobeys
  | .call r _, _, _, _, _, hobeys, _, _ => absurd hobeys.1 (hnone r)
  | .branch c yes, a, p, loops, S, hobeys, hfree, h => by
    rw [Stmt.interpret]
    obtain ⟨hc, hyes⟩ := h.branch
    have hsize : a + (Stmt.branch c yes).size = a + c.size + 1 + yes.size := by rw [Stmt.size]; omega
    rw [hsize]
    refine (holds_does (c.callFree_of_obeys hnone hobeys.1) (branches_jumpFalse _) hc _).bind_progress fun x => ?_
    cases x with
    | true => exact yes.lines_do hnone hobeys.2 hfree hyes
    | false => exact Does.pure .here
  | .branchElse c yes no, a, p, loops, S, hobeys, hfree, h => by
    rw [Stmt.interpret]
    obtain ⟨hc, hyes, hjump, hno⟩ := h.branchElse
    rw [Stmt.routines, List.append_eq_nil_iff] at hfree
    have hsize : a + (Stmt.branchElse c yes no).size = a + c.size + 1 + yes.size + 1 + no.size := by
      rw [Stmt.size]; omega
    rw [hsize]
    refine (holds_does (c.callFree_of_obeys hnone hobeys.1) (branches_jumpFalse _) hc _).bind_progress
      fun x => ?_
    cases x with
    | true =>
      refine (yes.lines_do hnone hobeys.2.1 hfree.1 hyes).goalAt_trans fun s => ?_
      exact hjump.silent (advance_jump ui _ _ _)
    | false => exact no.lines_do hnone hobeys.2.2 hfree.2 hno
  | .countLoop counter start limit step body, a, p, loops, S, hobeys, hfree, h => by
    rw [Stmt.interpret]
    obtain ⟨_, hstart, hlimit, hstep, hbodyObeys⟩ := hobeys
    obtain ⟨hhead, hbody, hclose⟩ := h.countLoop
    have hagain : @Eq Nat (a + countHeadSize start limit step)
        (a + start.size + 1 + limit.size + stepSize step + 9) := by rw [countHeadSize]; omega
    -- the start value, its assignment and the limit, the step, the test
    obtain ⟨hcodeStart, hassign, hcodeStep, hopen⟩ := hhead.openCode
    have hsize : a + (Stmt.countLoop counter start limit step body).size =
        a + countHeadSize start limit step + body.size + 12 + 3 := by rw [Stmt.size]; omega
    rw [hsize]
    refine (Expr.value_does (start.callFree_of_obeys hnone hstart) hcodeStart _).bind fun v => ?_
    refine (store_does hassign).bind fun s => ?_
    refine (Expr.value_does (limit.callFree_of_obeys hnone hlimit) hassign.tail _).bind fun limit' => ?_
    refine (stepValue_does (fun e he => e.callFree_of_obeys hnone (hstep e he)) hcodeStep
      (s := (s.pushAll (held loops)).cons limit') (Scopes.bindings_pushAll _ s) (Scopes.lookup_pushAll _ s)).bind
      fun step' => ?_
    exact countLoop_does hagain rfl hopen hclose fun s => body.lines_do hnone hbodyObeys hfree hbody
  | .guardLoop head body tail, a, p, loops, S, hobeys, hfree, h => by
    rw [Stmt.interpret]
    obtain ⟨hopen, hbody, hclose⟩ := h.guardLoop
    have hsize : a + (Stmt.guardLoop head body tail).size =
        a + 1 + headSize head + body.size + tailSize tail + 1 := by rw [Stmt.size]; omega
    rw [hsize]
    exact guardLoop_does rfl rfl (fun g hg => g.condition.callFree_of_obeys hnone (hobeys.1 g hg))
      (fun g hg => g.condition.callFree_of_obeys hnone (hobeys.2.2 g hg)) hopen hclose
      fun s => body.lines_do hnone hobeys.2.1 hfree hbody
  | .exitLoop kind inner, a, p, loops, S, hobeys, _, h => by
    rw [Stmt.interpret]
    rw [Stmt.lines, instructionsOf_mark] at h
    obtain ⟨hkind, rfl⟩ := hobeys
    exact Does.pure (exit_leads loops hkind h)
  | .print e, a, p, loops, S, hobeys, _, h => by
    rw [Stmt.interpret]
    rw [Stmt.lines, instructionsOf_mark] at h
    have hprint := h.right (b := a + printSize e) (by simp)
    refine (printed_does (fun x hx => x.callFree_of_obeys hnone (hobeys x hx)) h.left _).bind fun v => ?_
    refine (Does.request hprint (advance_print ui _ _ v) fun _ => rfl).bind fun _ => Does.pure .here
  | .notify notice, a, p, loops, S, _, _, h => by
    rw [Stmt.interpret]
    rw [Stmt.lines, instructionsOf_mark] at h
    exact (Does.request h (advance_notify ui a _ notice) fun _ => rfl).bind fun _ => Does.pure .here
  | .dialog d slots, a, p, loops, S, hobeys, _, h => by
    rw [Stmt.interpret]
    rw [Stmt.lines, instructionsOf_mark] at h
    exact (dialogStatement_does (slotsCallFree_of_obey hnone slots hobeys) h _).bind fun _ => Does.pure .here
  | .assign name none e, a, p, loops, S, hobeys, _, h => by
    rw [Stmt.interpret]
    rw [Stmt.lines, instructionsOf_mark] at h
    have hstore := h.right (b := a + e.size) (by simp)
    have hsize : a + (Stmt.assign name none e).size = a + e.size + 1 := by
      simp only [Stmt.size, Option.isSome_none, Bool.false_eq_true, if_false]; omega
    rw [hsize]
    refine (Expr.value_does (e.callFree_of_obeys hnone hobeys.2) h.left _).bind fun v => ?_
    exact (store_does hstore).bind fun s => Does.pure .here
  | .assign name (some op) e, a, p, loops, S, hobeys, _, h => by
    rw [Stmt.interpret, assigned]
    simp only [Talk.within_bind]
    rw [Stmt.lines, instructionsOf_mark] at h
    have hcode : CodeAt lines (a + 1) (e.code (a + 1) ++ [.binary op, .assign name]) := h.tail
    have hop := hcode.right (b := a + 1 + e.size) (by simp)
    have hs := Scopes.bindings_pushAll (held loops) S
    have hsize : a + (Stmt.assign name (some op) e).size = a + 1 + e.size + 2 := by
      simp only [Stmt.size, Option.isSome_some, if_true]; omega
    rw [hsize]
    refine Does.bind (f := fun v => ⟨a + 1 + e.size + 1, (S.pushAll (held loops)).cons v⟩) ?_ fun v =>
      (store_does hop.tail).bind fun s => Does.pure .here
    refine (readName_does h hs (Scopes.lookup_pushAll _ S)).bind fun old => ?_
    have hvalue : Does ui lines (e.value ui S) _ _ :=
      Expr.value_does (e.callFree_of_obeys hnone hobeys.2) hcode.left (held loops ++ [old])
    rw [Scopes.pushAll_snoc] at hvalue
    exact hvalue.bind fun new => binary_does hop hs

theorem Block.lines_do (hnone : ∀ r, ¬ R.routine r) : (block : Block) → ∀ {a : Nat}
    {loops : List Running} {S : Scopes}, block.Obeys R (loops.map Running.kind) false → block.routines a = [] →
    CodeAt lines a (instructionsOf (block.lines a)) →
    Does ui lines (block.interpret ui n S) ⟨a, S.pushAll (held loops)⟩ (goalAt (a + block.size) loops n)
  | .nil, a, loops, S, _, _, _ => by
    rw [Block.interpret]
    exact Does.pure .here
  | .cons p first rest, a, loops, S, hobeys, hfree, h => by
    rw [Block.interpret]
    obtain ⟨hfirst, hrest⟩ := h.cons
    rw [Block.routines, List.append_eq_nil_iff] at hfree
    rw [Block.size, ← Nat.add_assoc]
    exact andThen_does (first.lines_do hnone hobeys.1 hfree.1 hfirst) fun s =>
      rest.lines_do hnone hobeys.2 hfree.2 hrest

end

end Statements

end MacroBasic
