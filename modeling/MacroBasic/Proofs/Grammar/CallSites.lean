/-
The calls of a script and where their code stands. Every call of the tree is found at its address, and no
instruction enters a scope but the first one of a call.
-/
import MacroBasic.Proofs.Grammar.Pieces
import MacroBasic.Proofs.Grammar.Rules

namespace MacroBasic

open Machine

/-- A call in a script, with the address where its code begins. -/
structure CallSite where
  address : Address
  routine : Routine
  arguments : List Expr
  /-- Whether the call is an expression, whose value is that of the name of the routine. -/
  inExpression : Bool

namespace CallSite

/-- The code of a call. -/
def code (c : CallSite) : List Instruction :=
  .pushScope :: codeOfAll (c.address + 1) c.arguments ++ c.routine.enter ++
    if c.inExpression then [.pushVariable c.routine.name] else []

/-- The address behind the arguments, where the parameters are bound. -/
def ready (c : CallSite) : Nat := c.address + 1 + sizeOfAll c.arguments

/-- The address where the routine is called. -/
def calling (c : CallSite) : Nat := c.ready + 2 * c.routine.parameters.length

/-- The address behind the instruction that leaves the scope of the call. -/
def behind (c : CallSite) : Nat := c.calling + 2

end CallSite

/-! ## Calls in trees -/

mutual

/-- The calls in an expression at address `a`. -/
def Expr.sites (a : Address) : Expr → List CallSite
  | .literal _ | .variable _ => []
  | .call r arguments => ⟨a, r, arguments, true⟩ :: sitesOfAll (a + 1) arguments
  | .unary _ e => e.sites a
  | .binary _ l r => l.sites a ++ r.sites (a + l.size)
  | .conjunction first rest => first.sites a ++ sitesOfRest (a + first.size) rest
  | .choice c x y => c.sites a ++ x.sites (a + c.size + 1) ++ y.sites (a + c.size + x.size + 2)
  | .dialog d slots => sitesOfSlots a d.defaults slots

def sitesOfAll (a : Address) : List Expr → List CallSite
  | [] => []
  | e :: rest => e.sites a ++ sitesOfAll (a + e.size) rest

def sitesOfRest (a : Address) : List Expr → List CallSite
  | [] => []
  | e :: rest => e.sites (a + 1) ++ sitesOfRest (a + 1 + e.size) rest

def sitesOfSlots (a : Address) (defaults : List Value) : List Slot → List CallSite
  | [] => []
  | s :: rest => s.sites a ++ sitesOfSlots (a + s.size defaults.isEmpty) defaults.tail rest

def Slot.sites (a : Address) : Slot → List CallSite
  | .omitted => []
  | .given e => e.sites a

end

/-- The calls in an expression that may be absent. -/
def sitesOfOption (a : Address) (e : Option Expr) : List CallSite :=
  match e with
  | some e => e.sites a
  | none => []

mutual

/-- The calls in a statement at address `a`. -/
def Stmt.sites (a : Address) : Stmt → List CallSite
  | .routine isFunction _ _ body => body.sites (a + routineHeadSize isFunction)
  | .branch c yes => c.sites a ++ yes.sites (a + c.size + 1)
  | .branchElse c yes no =>
    c.sites a ++ yes.sites (a + c.size + 1) ++ no.sites (a + c.size + 1 + yes.size + 1)
  | .countLoop _ start limit step body =>
    start.sites a ++ limit.sites (a + start.size + 1) ++ sitesOfOption (a + start.size + 1 + limit.size) step ++
      body.sites (a + countHeadSize start limit step)
  | .guardLoop head body tail =>
    sitesOfOption (a + 1) (head.map Guard.condition) ++ body.sites (a + 1 + headSize head) ++
      sitesOfOption (a + 1 + headSize head + body.size) (tail.map Guard.condition)
  | .print e => sitesOfOption a e
  | .dialog d slots => sitesOfSlots a d.defaults slots
  | .assign _ none e => e.sites a
  | .assign _ (some _) e => e.sites (a + 1)
  | .call r arguments => ⟨a, r, arguments, false⟩ :: sitesOfAll (a + 1) arguments
  | .share _ | .declare _ | .constants _ | .exitLoop _ _ | .exitRoutine | .notify _ => []

/-- The calls in a block at address `a`. -/
def Block.sites (a : Address) : Block → List CallSite
  | .nil => []
  | .cons _ first rest => first.sites a ++ rest.sites (a + first.size)

end

/-! ## Their code -/

section Sited

variable {lines : Array Line} {R : Rules} {a b : Nat} {code code' : List Instruction} {sites sites' : List CallSite}

/-- The code of a call stands at its address, it calls what may be called, and there is an argument for each
parameter. -/
structure CallSite.Stands (lines : Array Line) (R : Rules) (c : CallSite) : Prop where
  code : CodeAt lines c.address c.code
  routine : R.routine c.routine
  length : c.arguments.length = c.routine.parameters.length
  obeys : AllObey R c.arguments

/-- Some calls stand at their addresses, and code enters scopes only where they begin. -/
structure Sited (lines : Array Line) (R : Rules) (a : Nat) (code : List Instruction) (sites : List CallSite) :
    Prop where
  stands : ∀ c ∈ sites, c.Stands lines R
  begins : EachAt (fun b x => x = .pushScope → ∃ c ∈ sites, c.address = b) a code

theorem Sited.plain (h : ∀ x ∈ code, x ≠ .pushScope) : Sited lines R a code [] :=
  ⟨nofun, eachAt_of_forall fun x hx _ heq => absurd heq (h x hx)⟩

theorem Sited.append (h : Sited lines R a code sites) (h' : Sited lines R b code' sites')
    (hb : a + code.length = b) : Sited lines R a (code ++ code') (sites ++ sites') := by
  refine ⟨fun c hc => (List.mem_append.1 hc).elim (h.stands c) (h'.stands c), .append ?_ ?_ hb⟩
  · intro i x hx heq
    obtain ⟨c, hc, hat⟩ := h.begins i x hx heq
    exact ⟨c, List.mem_append_left _ hc, hat⟩
  · intro i x hx heq
    obtain ⟨c, hc, hat⟩ := h'.begins i x hx heq
    exact ⟨c, List.mem_append_right _ hc, hat⟩

/-- Code that enters no scope may follow. -/
theorem Sited.before (h : Sited lines R a code sites) (h' : ∀ x ∈ code', x ≠ .pushScope) :
    Sited lines R a (code ++ code') sites := by
  have hboth := h.append (Sited.plain h') rfl
  rwa [List.append_nil] at hboth

/-- Code that enters no scope may come first. -/
theorem Sited.behind (h : ∀ x ∈ code, x ≠ .pushScope) (h' : Sited lines R b code' sites)
    (hb : a + code.length = b) : Sited lines R a (code ++ code') sites := (Sited.plain h).append h' hb

theorem Sited.after (h : Sited lines R (a + 1) code sites) (x : Instruction) (hx : x ≠ .pushScope) :
    Sited lines R a (x :: code) sites :=
  .behind (fun y hy => by rw [List.mem_singleton.1 hy]; exact hx) h rfl

theorem Routine.enter_ne_pushScope (r : Routine) : ∀ x ∈ r.enter, x ≠ .pushScope := by
  simp only [Routine.enter, bindParameters, List.mem_append, List.mem_flatMap, List.mem_cons, List.not_mem_nil,
    or_false]
  rintro x (⟨p, _, rfl | rfl⟩ | rfl | rfl) h <;> cases h

/-- A call is sited if its arguments are. -/
theorem Sited.call {r : Routine} {arguments : List Expr} {inExpression : Bool}
    (h : CodeAt lines a (CallSite.code ⟨a, r, arguments, inExpression⟩)) (hr : R.routine r)
    (hlength : arguments.length = r.parameters.length) (hobeys : AllObey R arguments)
    (harguments : Sited lines R (a + 1) (codeOfAll (a + 1) arguments) (sitesOfAll (a + 1) arguments)) :
    Sited lines R a (CallSite.code ⟨a, r, arguments, inExpression⟩)
      (⟨a, r, arguments, inExpression⟩ :: sitesOfAll (a + 1) arguments) := by
  have hfirst : Sited lines R a [.pushScope] [⟨a, r, arguments, inExpression⟩] := by
    refine ⟨fun c hc => ?_, .one fun _ => ⟨_, List.mem_singleton.2 rfl, rfl⟩⟩
    rw [List.mem_singleton.1 hc]
    exact ⟨h, hr, hlength, hobeys⟩
  have hlast : ∀ x ∈ (if inExpression then [Instruction.pushVariable r.name] else []), x ≠ .pushScope := by
    cases inExpression with
    | true => exact fun x hx => by rw [List.mem_singleton.1 hx]; exact nofun
    | false => exact nofun
  exact ((hfirst.append harguments rfl).before r.enter_ne_pushScope).before hlast

end Sited

section Expressions

variable {lines : Array Line} {R : Rules}

theorem pushValues_ne_pushScope (vs : List Value) : ∀ x ∈ vs.map Instruction.pushValue, x ≠ .pushScope :=
  List.forall_mem_map.2 fun _ _ => nofun

mutual

/-- The calls in an expression stand at their addresses. -/
theorem Expr.sited : (e : Expr) → ∀ {a : Nat}, e.Obeys R → CodeAt lines a (e.code a) →
    Sited lines R a (e.code a) (e.sites a)
  | .literal _, _, _, _ | .variable _, _, _, _ => .plain (by simp [Expr.code])
  | .call r arguments, a, hobeys, h => by
    obtain ⟨hr, hlength, harguments⟩ := hobeys
    have hcode : (Expr.call r arguments).code a = CallSite.code ⟨a, r, arguments, true⟩ := rfl
    rw [hcode] at h ⊢
    exact .call h hr hlength harguments (sited_all arguments harguments h.left.left.tail)
  | .unary _ e, a, hobeys, h => (e.sited hobeys h.left).before (by simp)
  | .binary _ l r, a, hobeys, h => by
    have hr := h.left.right (b := a + l.size) (by rw [l.length_code])
    exact ((l.sited hobeys.1 h.left.left).append (r.sited hobeys.2 hr) (by rw [l.length_code])).before (by simp)
  | .conjunction first rest, a, hobeys, h => by
    obtain ⟨hfirst, hrest, _⟩ := h.conjunction
    exact ((first.sited hobeys.1 hfirst).append (sited_rest rest hobeys.2 hrest)
      (by rw [first.length_code])).before (by simp)
  | .choice c x y, a, hobeys, h => by
    obtain ⟨hc, hyes, hno⟩ := h.choice
    have hx := (x.sited hobeys.2.1 hyes.tail).after (.jumpFalse (a + c.size + x.size + 2)) nofun
    have hy := (y.sited hobeys.2.2 hno.tail).after (.jump (a + c.size + x.size + 2 + y.size)) nofun
    rw [code_choice, Expr.sites, List.append_assoc (c.sites a)]
    exact (c.sited hobeys.1 hc).append (hx.append hy (by simp; omega)) (by rw [c.length_code])
  | .dialog d slots, a, hobeys, h => by
    refine (sited_slots slots hobeys h.left).before ?_
    split <;> simp

theorem sited_all : (es : List Expr) → ∀ {a : Nat}, AllObey R es → CodeAt lines a (codeOfAll a es) →
    Sited lines R a (codeOfAll a es) (sitesOfAll a es)
  | [], _, _, _ => .plain nofun
  | e :: rest, a, hobeys, h => by
    have hrest := h.right (b := a + e.size) (by rw [e.length_code])
    exact (e.sited hobeys.1 h.left).append (sited_all rest hobeys.2 hrest) (by rw [e.length_code])

theorem sited_rest : (es : List Expr) → ∀ {fails a : Nat}, AllObey R es → CodeAt lines a (codeOfRest fails a es) →
    Sited lines R a (codeOfRest fails a es) (sitesOfRest a es)
  | [], _, _, _, _ => .plain nofun
  | e :: rest, fails, a, hobeys, h => by
    have hrest := h.right (b := a + 1 + e.size) (by rw [List.length_cons, e.length_code]; omega)
    have he := (e.sited hobeys.1 h.left.tail).after (.jumpFalse fails) nofun
    exact he.append (sited_rest rest hobeys.2 hrest) (by simp; omega)

theorem sited_slots : (slots : List Slot) → ∀ {a : Nat} {defaults : List Value}, SlotsObey R slots →
    CodeAt lines a (codeOfSlots a defaults slots) →
    Sited lines R a (codeOfSlots a defaults slots) (sitesOfSlots a defaults slots)
  | [], _, defaults, _, _ => .plain (pushValues_ne_pushScope defaults)
  | slot :: rest, a, defaults, hobeys, h => by
    have hlength : a + (slot.code a defaults.head?).length = a + slot.size defaults.isEmpty := by
      rw [slot.length_code]
      cases defaults <;> rfl
    exact (slot.sited hobeys.1 h.left).append (sited_slots rest hobeys.2 (h.right hlength)) hlength

theorem Slot.sited : (slot : Slot) → ∀ {a : Nat} {standard : Option Value}, slot.Obeys R →
    CodeAt lines a (slot.code a standard) → Sited lines R a (slot.code a standard) (slot.sites a)
  | .omitted, _, none, _, _ => .plain nofun
  | .omitted, _, some v, _, _ => .plain (pushValues_ne_pushScope [v])
  | .given e, a, standard, hobeys, h => by
    refine (e.sited hobeys h.left).before ?_
    split <;> simp

end

end Expressions

section Statements

variable {lines : Array Line} {R : Rules} {a : Nat}

theorem sited_step {step : Option Expr} (hobeys : ∀ e ∈ step, e.Obeys R) (h : CodeAt lines a (stepCode a step)) :
    Sited lines R a (stepCode a step) (sitesOfOption a step) := by
  cases step with
  | some e => exact e.sited (hobeys e rfl) h
  | none => exact .plain (pushValues_ne_pushScope [_])

theorem sited_print {e : Option Expr} (hobeys : ∀ x ∈ e, x.Obeys R) (h : CodeAt lines a (printCode a e)) :
    Sited lines R a (printCode a e) (sitesOfOption a e) := by
  cases e with
  | some e => exact e.sited (hobeys e rfl) h
  | none => exact .plain (pushValues_ne_pushScope [_])

theorem sited_head {head : Option Guard} {exit : Nat} (hobeys : ∀ g ∈ head, g.condition.Obeys R)
    (h : CodeAt lines a (headCode a exit head)) :
    Sited lines R a (headCode a exit head) (sitesOfOption a (head.map Guard.condition)) := by
  cases head with
  | none => exact .plain nofun
  | some g =>
    refine (g.condition.sited (hobeys g rfl) h.left).before ?_
    cases g.untilTrue <;> simp

theorem sited_tail {tail : Option Guard} {back : Nat} (hobeys : ∀ g ∈ tail, g.condition.Obeys R)
    (h : CodeAt lines a (tailCode a back tail)) :
    Sited lines R a (tailCode a back tail) (sitesOfOption a (tail.map Guard.condition)) := by
  cases tail with
  | none => exact .plain (by simp [tailCode])
  | some g =>
    refine (g.condition.sited (hobeys g rfl) h.left).before ?_
    cases g.untilTrue <;> simp

/-- The code of a counting loop before its body. -/
theorem sited_open {counter : String} {start limit : Expr} {step : Option Expr} {done : Nat} (hstart : start.Obeys R)
    (hlimit : limit.Obeys R) (hstep : ∀ e ∈ step, e.Obeys R)
    (h : CodeAt lines a (openCode a counter start limit step done)) :
    Sited lines R a (openCode a counter start limit step done)
      (start.sites a ++ limit.sites (a + start.size + 1) ++
        sitesOfOption (a + start.size + 1 + limit.size) step) := by
  obtain ⟨hstartCode, hlimitCode, hstepCode, _⟩ := h.openCode
  have hs : Sited lines R _ (_ ++ (.pushValue (.address (done + 1)) :: countTest counter ++ [.jumpFalse done])) _ :=
    (sited_step hstep hstepCode).before (by simp [countTest])
  have hl := (limit.sited hlimit hlimitCode.tail).after (.assign counter) nofun
  rw [openCode, List.append_assoc]
  exact (start.sited hstart hstartCode).append (hl.append hs (by simp; omega)) (by rw [start.length_code])

mutual

/-- The calls in a statement stand at their addresses. -/
theorem Stmt.sited : (s : Stmt) → ∀ {a : Nat} {p : Position} {loops : List Loop} {inside : Bool},
    s.Obeys R loops inside → CodeAt lines a (instructionsOf (s.lines a p)) →
    Sited lines R a (instructionsOf (s.lines a p)) (s.sites a)
  | .share _, _, _, _, _, _, _ => .plain nofun
  | .declare names, _, _, _, _, _, _ => by
    rw [Stmt.lines, instructionsOf_mark]
    exact .plain (List.forall_mem_map.2 fun _ _ => nofun)
  | .constants definitions, _, _, _, _, _, _ => by
    rw [Stmt.lines, instructionsOf_mark]
    exact .plain (List.forall_mem_map.2 fun _ _ => nofun)
  | .routine isFunction name parameters body, a, p, _, _, hobeys, h => by
    obtain ⟨_, hbody, _⟩ := h.routine
    rw [instructionsOf_routine]
    -- there are no calls in the head of a routine
    refine .behind ?_ ((body.sited hobeys.2.2 hbody).before (by simp)) (by rw [length_defineCode])
    cases isFunction <;> simp [defineCode]
  | .branch c yes, a, p, _, _, hobeys, h => by
    obtain ⟨hc, hyes⟩ := h.branch
    rw [instructionsOf_branch]
    exact ((c.sited hobeys.1 hc.left).before (by simp)).append (yes.sited hobeys.2 hyes) (by simp; omega)
  | .branchElse c yes no, a, p, _, _, hobeys, h => by
    obtain ⟨hc, hyes, _, hno⟩ := h.branchElse
    have hskip := (no.sited hobeys.2.2 hno).after (.jump (a + c.size + 1 + yes.size + 1 + no.size)) nofun
    have hhead : Sited lines R a (_ ++ [.jumpFalse (a + c.size + 1 + yes.size + 1)]) (c.sites a) :=
      (c.sited hobeys.1 hc.left).before (by simp)
    rw [instructionsOf_branchElse, Stmt.sites, List.append_assoc (c.sites a)]
    exact hhead.append ((yes.sited hobeys.2.1 hyes).append hskip (by simp)) (by simp; omega)
  | .countLoop counter start limit step body, a, p, _, _, hobeys, h => by
    obtain ⟨_, hstart, hlimit, hstep, hbody⟩ := hobeys
    obtain ⟨hopen, hinner, _⟩ := h.countLoop
    rw [instructionsOf_countLoop]
    exact (sited_open hstart hlimit hstep hopen).append
      ((body.sited hbody hinner).before (by simp [closeCode, countTest])) (by rw [length_openCode])
  | .guardLoop head body tail, a, p, _, _, hobeys, h => by
    obtain ⟨hhead, hbody, htail⟩ := hobeys
    obtain ⟨hopen, hinner, hclose⟩ := h.guardLoop
    have hopen := (sited_head hhead hopen.tail).after
      (.pushValue (.address (a + 1 + headSize head + body.size + tailSize tail + 1))) nofun
    rw [instructionsOf_guardLoop, Stmt.sites, List.append_assoc]
    exact hopen.append ((body.sited hbody hinner).append ((sited_tail htail hclose.left).before (by simp)) (by simp))
      (by simp; omega)
  | .exitLoop _ inner, _, _, _, _, _, _ => by
    rw [Stmt.lines, instructionsOf_mark]
    refine .plain fun x hx => ?_
    rcases List.mem_append.1 hx with hx | hx
    · rw [(List.mem_replicate.1 hx).2]
      exact nofun
    · rw [List.mem_singleton.1 hx]
      exact nofun
  | .exitRoutine, _, _, _, _, _, _ | .notify _, _, _, _, _, _, _ => .plain (by simp [Stmt.lines])
  | .print e, a, p, _, _, hobeys, h => by
    rw [Stmt.lines, instructionsOf_mark] at h ⊢
    exact (sited_print hobeys h.left).before (by simp)
  | .dialog d slots, a, p, _, _, hobeys, h => by
    rw [Stmt.lines, instructionsOf_mark] at h ⊢
    refine (sited_slots slots hobeys h.left).before ?_
    split <;> simp
  | .assign name none e, a, p, _, _, hobeys, h => by
    rw [Stmt.lines, instructionsOf_mark] at h ⊢
    exact (e.sited hobeys.2 h.left).before (by simp)
  | .assign name (some op) e, a, p, _, _, hobeys, h => by
    rw [Stmt.lines, instructionsOf_mark] at h ⊢
    exact ((e.sited hobeys.2 h.left.tail).after (.pushVariable name) nofun).before (by simp)
  | .call r arguments, a, p, _, _, hobeys, h => by
    obtain ⟨hr, hlength, harguments⟩ := hobeys
    have hcode : instructionsOf ((Stmt.call r arguments).lines a p) = CallSite.code ⟨a, r, arguments, false⟩ := by
      rw [Stmt.lines, instructionsOf_mark]
      exact (List.append_nil _).symm
    rw [hcode] at h ⊢
    exact .call h hr hlength harguments (sited_all arguments harguments h.left.left.tail)

theorem Block.sited : (b : Block) → ∀ {a : Nat} {loops : List Loop} {inside : Bool}, b.Obeys R loops inside →
    CodeAt lines a (instructionsOf (b.lines a)) → Sited lines R a (instructionsOf (b.lines a)) (b.sites a)
  | .nil, _, _, _, _, _ => .plain nofun
  | .cons p first rest, a, _, _, hobeys, h => by
    obtain ⟨hfirst, hrest⟩ := h.cons
    rw [Block.lines, instructionsOf_append]
    exact (first.sited hobeys.1 hfirst).append (rest.sited hobeys.2 hrest) (by simp)

end

end Statements

end MacroBasic
