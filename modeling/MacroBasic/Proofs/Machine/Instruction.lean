/-
What each instruction does, as a conversation with the host. One equation for every instruction says what
it asks and where it goes, given the values it takes from the stack.
-/
import MacroBasic.Machine.Run
import MacroBasic.Proofs.Machine.Conversation

namespace MacroBasic

namespace Scopes

/-- The same scopes with one value more in the innermost one. -/
def cons (v : Value) (s : Scopes) : Scopes := { s with top := { s.top with stack := s.top.stack.cons v } }

/-- The values of the innermost scope, the top one first. -/
def items (s : Scopes) : List Value := s.top.stack.items

/-- Whether the innermost scope can hold no more values. -/
def Full (s : Scopes) : Prop := Stack.limit ≤ s.top.stack.size

instance (s : Scopes) : Decidable s.Full := inferInstanceAs (Decidable (_ ≤ _))

/-- The fault of pushing one value too many. -/
def overflow (s : Scopes) : Fault := .because .internal s.top.stack.whenFull

theorem depth_inner (s : Scopes) : s.depth + 1 = (s.top :: s.below).length + 1 := congrArg (· + 1) s.depth_eq

/-- The same scopes with a new one inside them. -/
def inner (s : Scopes) : Scopes := ⟨.empty, s.top :: s.below, s.depth + 1, s.depth_inner⟩

@[simp] theorem items_cons (v : Value) (s : Scopes) : (s.cons v).items = v :: s.items := rfl

@[simp] theorem get?_cons (name : String) (v : Value) (s : Scopes) : (s.cons v).get? name = s.get? name := rfl

@[simp] theorem size_cons (v : Value) (s : Scopes) : (s.cons v).top.stack.size = s.top.stack.size + 1 := rfl

@[simp] theorem below_cons (v : Value) (s : Scopes) : (s.cons v).below = s.below := rfl

theorem name_of_get? {name : String} {b : Binding} {s : Scopes} (h : s.get? name = some b) : b.name = name := by
  obtain ⟨frame, _, hb⟩ := List.exists_of_findSome?_eq_some h
  have hname := List.find?_some hb
  simpa using hname

/-- Scopes with a value on top are some scopes with the value put on them. -/
theorem exists_cons {s : Scopes} {v : Value} {rest : List Value} (h : s.items = v :: rest) :
    ∃ s' : Scopes, s = s'.cons v ∧ s'.items = rest := by
  obtain ⟨⟨names, items, size, size_eq, whenFull⟩, below, depth, depth_eq⟩ := s
  simp only [Scopes.items] at h
  subst h
  subst size_eq
  exact ⟨⟨⟨names, rest, rest.length, rfl, whenFull⟩, below, depth, depth_eq⟩, rfl, rfl⟩

end Scopes

namespace Machine

/-- An address with the scopes of a run that has come to it. -/
@[ext] structure Config where
  pc : Address
  scopes : Scopes

/-- The configuration of a machine. -/
def config (M : Machine) : Config := ⟨M.pc, M.scopes⟩

/-- How a run goes on after an operation on the scopes that gives the address to go on at. -/
def settled : EStateM.Result Fault Scopes Address → Talk (Fault × Scopes) Config
  | .ok a s => .done ⟨a, s⟩
  | .error f s => .fail (f, s)

/-- How a run goes on after an instruction. -/
def proceed : EStateM.Result Fault Scopes Next → Talk (Fault × Scopes) Config
  | .error f s => .fail (f, s)
  | .ok (.goto a) s => .done ⟨a, s⟩
  | .ok (.ask r resume) s => .ask r fun reply => settled (resume reply s)

/-- One instruction as a conversation. -/
def advance (ui : Bool) (i : Instruction) (c : Config) : Talk (Fault × Scopes) Config :=
  proceed (step ui c.pc i c.scopes)

/-- Puts a value on the stack and goes to an address, unless the stack is full. -/
def pushing (v : Value) (a : Address) (s : Scopes) : Talk (Fault × Scopes) Config :=
  if s.Full then .fail (s.overflow, s) else .done ⟨a, s.cons v⟩

/-! ## Stack operations -/

section Stack

variable (v : Value) (a : Address) (s : Scopes)

theorem push_eq : Scopes.push v s = if s.Full then .error s.overflow s else .ok () (s.cons v) := by
  unfold Scopes.push Scopes.values Scope.values Work.within Stack.push
  by_cases h : Stack.limit ≤ s.top.stack.size
  · rw [if_pos h, if_pos (show s.Full from h)]; rfl
  · rw [if_neg h, if_neg (show ¬ s.Full from h)]; rfl

theorem proceed_push : proceed ((do Scopes.push v; return .goto a : Work Scopes Next) s) = pushing v a s := by
  show proceed (EStateM.bind (Scopes.push v) _ s) = _
  rw [EStateM.bind, push_eq, pushing]
  by_cases h : s.Full
  · rw [if_pos h, if_pos h]; rfl
  · rw [if_neg h, if_neg h]; rfl

theorem settled_push : settled ((do Scopes.push v; return a : Work Scopes Address) s) = pushing v a s := by
  show settled (EStateM.bind (Scopes.push v) _ s) = _
  rw [EStateM.bind, push_eq, pushing]
  by_cases h : s.Full
  · rw [if_pos h, if_pos h]; rfl
  · rw [if_neg h, if_neg h]; rfl

theorem estate_get : (EStateM.get s : EStateM.Result Fault Scopes Scopes) = .ok s s := rfl

theorem pop_cons : Scopes.pop (s.cons v) = .ok v s := rfl

theorem peek_of {s : Scopes} {v : Value} {depth : Nat} (h : s.items[depth]? = some v) :
    Scopes.peek depth s = .ok v s := by
  unfold Scopes.peek Scopes.values Scope.values Work.within Stack.peek
  rw [show s.top.stack.items[depth]? = some v from h]

end Stack

/-! ## Instructions -/

section Equations

variable (ui : Bool) (pc : Address) (s : Scopes)

theorem advance_allocConst (name : String) (v : Value) :
    advance ui (.allocConst name v) ⟨pc, s⟩ =
      .done ⟨pc + 1, s.allocate { name := name, kind := .constant, value := v }⟩ := rfl

theorem advance_allocVar (name : String) :
    advance ui (.allocVar name) ⟨pc, s⟩ = .done ⟨pc + 1, s.allocate { name := name }⟩ := rfl

theorem advance_pushValue (v : Value) : advance ui (.pushValue v) ⟨pc, s⟩ = pushing v (pc + 1) s :=
  proceed_push v (pc + 1) s

theorem advance_pushVariable_bound {name : String} {b : Binding} (h : s.get? name = some b) :
    advance ui (.pushVariable name) ⟨pc, s⟩ =
      if b.value.isUninitialized then
        .fail (.because .uninitialized s!"Variable '{name}' hasn't been assigned a value yet", s)
      else pushing b.value (pc + 1) s := by
  simp only [advance, step, bind, EStateM.bind, get, getThe, MonadStateOf.get, estate_get, h]
  by_cases hu : b.value.isUninitialized
  · simp only [hu, if_true]; rfl
  · simp only [hu]; exact proceed_push b.value (pc + 1) s

theorem advance_pushVariable_unbound {name : String} (h : s.get? name = none) :
    advance ui (.pushVariable name) ⟨pc, s⟩ = .ask (.retrieve name) fun
      | some v => pushing v (pc + 1) s
      | none => .fail (.because .unknownVariable s!"Unknown variable '{name}'", s) := by
  simp only [advance, step, bind, EStateM.bind, get, getThe, MonadStateOf.get, estate_get, h]
  refine congrArg (Talk.ask (.retrieve name)) (funext fun reply => ?_)
  cases reply with
  | none => rfl
  | some v => exact settled_push v (pc + 1) s

theorem advance_pop (v : Value) : advance ui .pop ⟨pc, s.cons v⟩ = .done ⟨pc + 1, s⟩ := rfl

theorem advance_copy {s : Scopes} {depth : Nat} {v : Value} (h : s.items[depth]? = some v) :
    advance ui (.copy depth) ⟨pc, s⟩ = pushing v (pc + 1) s := by
  simp only [advance, step, bind, EStateM.bind, peek_of h]
  exact proceed_push v (pc + 1) s

theorem advance_assign_bound {name : String} {b : Binding} (v : Value) (h : s.get? name = some b) :
    advance ui (.assign name) ⟨pc, s.cons v⟩ =
      if b.kind = .constant then
        .fail (.because .assignmentToConstant s!"Assignment to constant {b.name} not allowed", s)
      else .done ⟨pc + 1, (s.assign? b.name v).getD s⟩ := by
  simp only [advance, step, bind, EStateM.bind, get, getThe, MonadStateOf.get, estate_get, pop_cons, h,
    assignBound]
  by_cases hk : b.kind = .constant
  · simp only [hk, if_true]; rfl
  · simp only [hk, if_false]; rfl

theorem advance_assign_unbound {name : String} (v : Value) (h : s.get? name = none) :
    advance ui (.assign name) ⟨pc, s.cons v⟩ = .ask (.assign name v) fun taken : Bool =>
      .done ⟨pc + 1, if taken then s else s.allocate { name := name, value := v }⟩ := by
  simp only [advance, step, bind, EStateM.bind, get, getThe, MonadStateOf.get, estate_get, pop_cons, h]
  refine congrArg (Talk.ask (.assign name v)) (funext fun taken => ?_)
  cases (taken : Bool) <;> rfl

theorem advance_binary (op : BinaryOperator) (l r : Value) :
    advance ui (.binary op) ⟨pc, (s.cons l).cons r⟩ =
      match op.apply l r with
      | .ok v => pushing v (pc + 1) s
      | .error f => .fail (calculationFault "binary" (.binary op) f, s) := by
  have hpop : Scopes.pop2 ((s.cons l).cons r) = .ok (l, r) s := rfl
  simp only [advance, step, bind, EStateM.bind, hpop, calculate]
  cases op.apply l r with
  | error f => rfl
  | ok v => exact proceed_push v (pc + 1) s

theorem advance_unary (op : UnaryOperator) (v : Value) :
    advance ui (.unary op) ⟨pc, s.cons v⟩ =
      match op.apply v with
      | .ok v => pushing v (pc + 1) s
      | .error f => .fail (calculationFault "unary" (.unary op) f, s) := by
  simp only [advance, step, bind, EStateM.bind, pop_cons, calculate]
  cases op.apply v with
  | error f => rfl
  | ok v => exact proceed_push v (pc + 1) s

theorem advance_print (v : Value) :
    advance ui .print ⟨pc, s.cons v⟩ = .ask (.print v.display) fun _ => .done ⟨pc + 1, s⟩ := rfl

theorem advance_notify (n : Notice) :
    advance ui (.notify n) ⟨pc, s⟩ = .ask (.notify n) fun _ => .done ⟨pc + 1, s⟩ := rfl

theorem advance_jump (a : Address) : advance ui (.jump a) ⟨pc, s⟩ = .done ⟨a, s⟩ := rfl

theorem advance_jumpTrue (a : Address) (v : Value) :
    advance ui (.jumpTrue a) ⟨pc, s.cons v⟩ =
      match v.toBoolean with
      | .ok b => .done ⟨if b then a else pc + 1, s⟩
      | .error f => .fail (calculationFault "jump" (.jumpTrue a) f, s) := by
  simp only [advance, step, bind, EStateM.bind, popCondition, pop_cons, calculate]
  cases v.toBoolean with
  | error f => rfl
  | ok b => cases b <;> rfl

theorem advance_jumpFalse (a : Address) (v : Value) :
    advance ui (.jumpFalse a) ⟨pc, s.cons v⟩ =
      match v.toBoolean with
      | .ok b => .done ⟨if b then pc + 1 else a, s⟩
      | .error f => .fail (calculationFault "jump" (.jumpFalse a) f, s) := by
  simp only [advance, step, bind, EStateM.bind, popCondition, pop_cons, calculate]
  cases v.toBoolean with
  | error f => rfl
  | ok b => cases b <;> rfl

theorem advance_jumpPop (a : Address) : advance ui .jumpPop ⟨pc, s.cons (.address a)⟩ = .done ⟨a, s⟩ := rfl

theorem advance_popScope {top next : Scope} {rest : List Scope} {depth : Nat} {h : depth = (next :: rest).length + 1} :
    advance ui .popScope ⟨pc, ⟨top, next :: rest, depth, h⟩⟩ =
      .done ⟨pc + 1, ⟨next, rest, depth - 1, by rw [h, List.length_cons, Nat.add_sub_cancel]⟩⟩ := rfl

theorem advance_call (a : Address) :
    advance ui (.call a) ⟨pc, s⟩ =
      .done ⟨a, s.allocate { name := returnName, kind := .constant, value := .address (pc + 1) }⟩ := rfl

theorem advance_ret {a : Address} (h : (s.get? returnName).map Binding.value = some (.address a)) :
    advance ui .ret ⟨pc, s⟩ = .done ⟨a, s⟩ := by
  simp only [advance, step, bind, EStateM.bind, get, getThe, MonadStateOf.get, estate_get, h]
  rfl

/-- A return goes to the address its call left, or fails where no call left one. -/
theorem advance_ret_cases :
    (∃ a, (s.get? returnName).map Binding.value = some (.address a) ∧
      advance ui .ret ⟨pc, s⟩ = .done ⟨a, s⟩) ∨
    advance ui .ret ⟨pc, s⟩ = .fail (.because .internal "RETURN WITHOUT CALL", s) := by
  cases hb : (s.get? returnName).map Binding.value with
  | none =>
    right
    simp only [advance, step, bind, EStateM.bind, get, getThe, MonadStateOf.get, estate_get, hb]
    rfl
  | some v =>
    cases v with
    | address a => exact .inl ⟨a, rfl, advance_ret ui pc s hb⟩
    | number | text | boolean | uninitialized =>
      right
      simp only [advance, step, bind, EStateM.bind, get, getThe, MonadStateOf.get, estate_get, hb]
      rfl

theorem advance_pushScope :
    advance ui .pushScope ⟨pc, s⟩ =
      if Scopes.limit ≤ s.depth then
        .fail (.because .stackOverflow s!"Call depth exceeds {Scopes.limit} frames", s)
      else .done ⟨pc + 1, s.inner⟩ := by
  simp only [advance, step, bind, EStateM.bind, Scopes.pushScope]
  by_cases h : Scopes.limit ≤ s.depth
  · simp only [h, if_true]; rfl
  · simp only [h, if_false]; rfl

theorem advance_message (kind text : Value) :
    advance ui (.dialog .message) ⟨pc, (s.cons kind).cons text⟩ =
      match kind.toInteger with
      | .ok n => .ask (.message (clampHalf n) text.display) fun _ => .done ⟨pc + 1, s⟩
      | .error f => .fail (calculationFault "host" (.dialog .message) f, s) := by
  simp only [advance, step, openDialog, hostInteger, bind, EStateM.bind, pop_cons, calculate]
  cases kind.toInteger <;> rfl

theorem advance_msgBox (prompt buttons title : Value) :
    advance true (.dialog .msgBox) ⟨pc, ((s.cons prompt).cons buttons).cons title⟩ =
      match buttons.toInteger with
      | .ok n => .ask (.msgBox prompt.display (clampHalf n) title.display) fun button : Int32 =>
        pushing (.number (Decimal.ofInt button.toInt)) (pc + 1) s
      | .error f => .fail (calculationFault "host" (.dialog .msgBox) f, s) := by
  simp only [advance, step, openDialog, requireUi, if_true, hostInteger, bind, EStateM.bind, pure, EStateM.pure,
    pop_cons, calculate]
  cases buttons.toInteger with
  | error f => rfl
  | ok n => exact congrArg (Talk.ask _) (funext fun button : Int32 => settled_push _ (pc + 1) s)

theorem advance_inputBox (prompt title initial : Value) :
    advance true (.dialog .inputBox) ⟨pc, ((s.cons prompt).cons title).cons initial⟩ =
      .ask (.inputBox prompt.display title.display initial.display) fun text : String =>
        pushing (.text text) (pc + 1) s := by
  simp only [advance, step, openDialog, requireUi, if_true, bind, EStateM.bind, pure, EStateM.pure, pop_cons]
  exact congrArg (Talk.ask _) (funext fun text : String => settled_push _ (pc + 1) s)

/-- A dialog that waits for the user is refused where that is not allowed. -/
theorem advance_dialog_refused {d : Dialog} (hd : d ≠ .message) :
    advance false (.dialog d) ⟨pc, s⟩ =
      .fail (.because .noUiAllowed ((Instruction.dialog d).render ++ " is not allowed in this context"), s) := by
  cases d with
  | message => exact absurd rfl hd
  | msgBox => rfl
  | inputBox => rfl

end Equations

end Machine

end MacroBasic
