/-
Expressions evaluated directly. The evaluator follows the tree: operands from left to right, `OR` both of
its operands, `AND` no operand behind the first one that is false, a choice only the value it chooses. It
sees what names stand for and may ask the host; calls of functions are not for it.
-/
import MacroBasic.Proofs.Grammar.Code
import MacroBasic.Proofs.Machine.Code

namespace MacroBasic

/-! ## The evaluator -/

/-- A calculation as a conversation, of which only the code of a fault matters. -/
def Talk.calculate {α : Type} (x : Except Fault α) : Talk FaultCode α := .ofExcept (x.mapError Fault.code)

/-- The value of a name: the host is asked for it when nothing binds the name. -/
def readName (names : String → Option Binding) (name : String) : Talk FaultCode Value :=
  match names name with
  | some b => if b.value.isUninitialized then .fail .uninitialized else .done b.value
  | none => .ask (.retrieve name) fun
    | some v => .done v
    | none => .fail .unknownVariable

/-- Opens a dialog with its parameters and gives its value. -/
def Dialog.converse (ui : Bool) : Dialog → List Value → Talk FaultCode Value
  | .message, [kind, text] => do
    let n ← .calculate kind.toInteger
    let _ ← .request (.message (Machine.clampHalf n) text.display)
    return .boolean true
  | .msgBox, [prompt, buttons, title] =>
    if ui then do
      let n ← .calculate buttons.toInteger
      let button ← .request (.msgBox prompt.display (Machine.clampHalf n) title.display)
      return .number (Decimal.ofInt (Int32.toInt button))
    else .fail .noUiAllowed
  | .inputBox, [prompt, title, initial] =>
    if ui then do
      let text ← .request (.inputBox prompt.display title.display initial.display)
      return .text text
    else .fail .noUiAllowed
  | _, _ => .fail .internal

section Evaluator

variable (ui : Bool) (names : String → Option Binding)

mutual

/-- The value of an expression without calls. -/
def Expr.evaluate : Expr → Talk FaultCode Value
  | .literal v => return v
  | .variable name => readName names name
  | .call _ _ => .fail .internal
  | .unary op e => do .calculate (op.apply (← e.evaluate))
  | .binary op l r => do
    let x ← l.evaluate
    let y ← r.evaluate
    .calculate (op.apply x y)
  | .conjunction first rest => do
    if ← .calculate (← first.evaluate).toBoolean then evaluateRest rest else return .boolean false
  | .choice c x y => do
    if ← .calculate (← c.evaluate).toBoolean then x.evaluate else y.evaluate
  | .dialog d slots => do d.converse ui (← evaluateSlots d.defaults slots)

/-- Whether all operands are true, of which none behind the first false one is evaluated. -/
def evaluateRest : List Expr → Talk FaultCode Value
  | [] => return .boolean true
  | e :: rest => do
    if ← .calculate (← e.evaluate).toBoolean then evaluateRest rest else return .boolean false

/-- The values of the parameters of a dialog, given the defaults still to be used. -/
def evaluateSlots (defaults : List Value) : List Slot → Talk FaultCode (List Value)
  | [] => return defaults
  | slot :: rest => do
    let v ← slot.evaluate defaults.head?
    let vs ← evaluateSlots defaults.tail rest
    return v.toList ++ vs

/-- The value of one parameter, unless it is beyond the used ones. -/
def Slot.evaluate (standard : Option Value) : Slot → Talk FaultCode (Option Value)
  | .omitted => return standard
  | .given e => do
    let v ← e.evaluate
    return standard.map fun _ => v

end

end Evaluator

/-! ## Calls and room -/

mutual

/-- Whether an expression calls no function. -/
def Expr.CallFree : Expr → Prop
  | .literal _ | .variable _ => True
  | .call _ _ => False
  | .unary _ e => e.CallFree
  | .binary _ l r => l.CallFree ∧ r.CallFree
  | .conjunction first rest => first.CallFree ∧ AllCallFree rest
  | .choice c x y => c.CallFree ∧ x.CallFree ∧ y.CallFree
  | .dialog _ slots => SlotsCallFree slots

def AllCallFree : List Expr → Prop
  | [] => True
  | e :: rest => e.CallFree ∧ AllCallFree rest

def SlotsCallFree : List Slot → Prop
  | [] => True
  | slot :: rest => slot.CallFree ∧ SlotsCallFree rest

def Slot.CallFree : Slot → Prop
  | .omitted => True
  | .given e => e.CallFree

end

mutual

/-- How many values an expression without calls has on the stack at once. -/
def Expr.height : Expr → Nat
  | .literal _ | .variable _ | .call _ _ => 1
  | .unary _ e => e.height
  | .binary _ l r => max l.height (r.height + 1)
  | .conjunction first rest => max first.height (heightOfRest rest)
  | .choice c x y => max c.height (max x.height y.height)
  | .dialog d slots => max 1 (heightOfSlots d.defaults slots)

def heightOfRest : List Expr → Nat
  | [] => 1
  | e :: rest => max e.height (heightOfRest rest)

def heightOfSlots (defaults : List Value) : List Slot → Nat
  | [] => defaults.length
  | slot :: rest => max (slot.height defaults.head?) (defaults.head?.toList.length + heightOfSlots defaults.tail rest)

def Slot.height (standard : Option Value) : Slot → Nat
  | .omitted => standard.toList.length
  | .given e => e.height

end

theorem heightOfRest_pos (es : List Expr) : 0 < heightOfRest es := by
  induction es with
  | nil => exact Nat.one_pos
  | cons e es ih => rw [heightOfRest]; omega

theorem Expr.height_pos (e : Expr) : 0 < e.height := by
  cases e with
  | unary _ e => exact e.height_pos
  | binary => rw [Expr.height]; omega
  | conjunction _ rest => have := heightOfRest_pos rest; rw [Expr.height]; omega
  | choice c => have := c.height_pos; rw [Expr.height]; omega
  | dialog => rw [Expr.height]; omega
  | _ => exact Nat.one_pos

/-! ## Conversations of the evaluator -/

/-- What names stand for in some scopes. -/
def Scopes.lookup (s : Scopes) : String → Option Binding := fun name => s.get? name

@[simp] theorem Scopes.lookup_cons (v : Value) (s : Scopes) : (s.cons v).lookup = s.lookup := rfl

theorem Talk.yields_calculate {α : Type} {x : Except Fault α} {t : List Exchange} {r : Except FaultCode α} :
    (Talk.calculate x).Yields t r ↔ t = [] ∧ r = x.mapError Fault.code := yields_ofExcept

section Conversations

variable (ui : Bool) (names : String → Option Binding)

/-- The value of a chain of `AND` behind an operand with the given value. -/
def evaluateFrom (v : Value) (rest : List Expr) : Talk FaultCode Value := do
  if ← .calculate v.toBoolean then evaluateRest ui names rest else return .boolean false

theorem evaluate_conjunction (first : Expr) (rest : List Expr) :
    (Expr.conjunction first rest).evaluate ui names =
      first.evaluate ui names >>= fun v => evaluateFrom ui names v rest := by
  rw [Expr.evaluate]; rfl

theorem evaluateRest_cons (e : Expr) (rest : List Expr) :
    evaluateRest ui names (e :: rest) = e.evaluate ui names >>= fun v => evaluateFrom ui names v rest := by
  rw [evaluateRest]; rfl

/-- A parameter has a value just if it has a default. -/
theorem isSome_of_evaluate {slot : Slot} {standard v : Option Value} {t : List Exchange}
    (h : (slot.evaluate ui names standard).Yields t (.ok v)) : v.isSome = standard.isSome := by
  cases slot with
  | omitted =>
    rw [Slot.evaluate, Talk.yields_pure] at h
    cases h.2
    rfl
  | given e =>
    rw [Slot.evaluate] at h
    rcases Talk.yields_bind.1 h with ⟨_, _, he⟩ | ⟨w, _, _, _, _, hv⟩
    · cases he
    · cases (Talk.yields_pure.1 hv).2
      rw [Option.isSome_map]

/-- A dialog gets as many values as it has defaults. -/
theorem length_of_evaluateSlots {defaults vs : List Value} {slots : List Slot} {t : List Exchange}
    (h : (evaluateSlots ui names defaults slots).Yields t (.ok vs)) : vs.length = defaults.length := by
  induction slots generalizing defaults vs t with
  | nil =>
    rw [evaluateSlots, Talk.yields_pure] at h
    cases h.2
    rfl
  | cons slot rest ih =>
    rw [evaluateSlots] at h
    rcases Talk.yields_bind.1 h with ⟨_, _, he⟩ | ⟨v, t₁, t₂, _, hv, h⟩
    · cases he
    rcases Talk.yields_bind.1 h with ⟨_, _, he⟩ | ⟨ws, t₃, t₄, _, hws, h⟩
    · cases he
    cases (Talk.yields_pure.1 h).2
    have hsome := isSome_of_evaluate ui names hv
    rw [List.length_append, ih hws]
    cases defaults with
    | nil => cases v <;> simp_all
    | cons d ds => cases v <;> simp_all; omega

end Conversations

end MacroBasic
