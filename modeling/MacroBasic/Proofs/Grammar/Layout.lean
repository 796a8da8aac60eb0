/-
Layouts of the code of a tree. For every instruction of a script there is a layout, and the instructions fit
them: an expression leaves one value more on the stack, a statement leaves the stack as it was, and inside of
loops the stack holds what the loops keep there.
-/
import MacroBasic.Proofs.Grammar.Pieces
import MacroBasic.Proofs.Grammar.Rules
import MacroBasic.Proofs.Machine.Layout

namespace MacroBasic

open Machine

/-! ## Layouts of expressions -/

/-- The layouts while so many values are pushed. -/
def pushLayouts : Nat → Shape → List Layout
  | 0, _ => []
  | n + 1, s => .shaped s :: pushLayouts n (s.push .value)

/-- The layouts while so many parameters are bound. -/
def bindLayouts (s : Shape) : Nat → List Layout
  | 0 => []
  | n + 1 => .shaped (s.values (n + 1)) :: .shaped (s.values (n + 1)) :: bindLayouts s n

/-- The layouts of the call of a routine once its arguments are on the stack. -/
def Routine.layouts (s : Shape) (r : Routine) : List Layout :=
  bindLayouts s.enter r.parameters.length ++ [.shaped s.enter, .returned s]

mutual

/-- The layouts of the instructions of an expression, given the shape before it. -/
def Expr.layouts (s : Shape) : Expr → List Layout
  | .literal _ | .variable _ => [.shaped s]
  | .call r arguments => .shaped s :: (layoutsOfAll s.enter arguments ++ r.layouts s) ++ [.shaped s]
  | .unary _ e => e.layouts s ++ [.shaped (s.push .value)]
  | .binary _ l r => l.layouts s ++ (r.layouts (s.push .value) ++ [.shaped (s.values 2)])
  | .conjunction first rest => first.layouts s ++ (layoutsOfRest s rest ++
    [.shaped (s.push .value), .shaped s, .shaped (s.push .value), .shaped s])
  | .choice c x y => c.layouts s ++ (.shaped (s.push .value) :: (x.layouts s ++
    (.shaped (s.push .value) :: y.layouts s)))
  | .dialog d slots => layoutsOfSlots s d.defaults slots ++ (.shaped (s.values d.defaults.length) ::
    if d.answers then [] else [.shaped s])

/-- The layouts of expressions one after the other. -/
def layoutsOfAll (s : Shape) : List Expr → List Layout
  | [] => []
  | e :: rest => e.layouts s ++ layoutsOfAll (s.push .value) rest

/-- The layouts of operands that each follow a branch. -/
def layoutsOfRest (s : Shape) : List Expr → List Layout
  | [] => []
  | e :: rest => .shaped (s.push .value) :: (e.layouts s ++ layoutsOfRest s rest)

/-- The layouts of the parameters of a dialog, given the defaults still to be used. -/
def layoutsOfSlots (s : Shape) (defaults : List Value) : List Slot → List Layout
  | [] => pushLayouts defaults.length s
  | slot :: rest => slot.layouts s defaults.isEmpty ++
    layoutsOfSlots (if defaults.isEmpty then s else s.push .value) defaults.tail rest

/-- The layouts of one parameter, which is dropped when it is beyond the used ones. -/
def Slot.layouts (s : Shape) (dropped : Bool) : Slot → List Layout
  | .omitted => if dropped then [] else [.shaped s]
  | .given e => e.layouts s ++ if dropped then [.shaped (s.push .value)] else []

end

/-! ## Layouts of statements -/

/-- What a loop keeps on the stack, given the address that it is left for. -/
def Loop.cells (behind : Address) : Loop → List Cell
  | .doLoop => [.exit behind]
  | .forLoop => [.exit behind, .value, .value]

/-- The shape inside of a loop, given the one around it. -/
def Loop.inner (kind : Loop) (behind : Address) (s : Shape) : Shape :=
  { s with cells := kind.cells behind ++ s.cells }

/-- The layouts of the test of a counting loop. -/
def testLayouts (s : Shape) : List Layout :=
  [.shaped s, .shaped (s.values 1), .shaped (s.values 2), .shaped (s.values 1), .shaped (s.values 2),
   .shaped (s.values 1), .shaped (s.values 2)]

def stepLayouts (s : Shape) (step : Option Expr) : List Layout :=
  match step with
  | some e => e.layouts s
  | none => [.shaped s]

def headLayouts (s : Shape) (head : Option Guard) : List Layout :=
  match head with
  | some g => g.condition.layouts s ++ [.shaped (s.push .value)]
  | none => []

def tailLayouts (s : Shape) (tail : Option Guard) : List Layout :=
  match tail with
  | some g => g.condition.layouts s ++ [.shaped (s.push .value)]
  | none => [.shaped s]

def printLayouts (s : Shape) (e : Option Expr) : List Layout :=
  match e with
  | some e => e.layouts s
  | none => [.shaped s]

/-- The layouts while so many places are dropped. -/
def popLayouts : Nat → Shape → List Layout
  | 0, _ => []
  | n + 1, s => .shaped s :: popLayouts n { s with cells := s.cells.tail }

/-- The layouts of a counting loop before its body, given the shapes around the loop and inside of it. -/
def openLayouts (s inner : Shape) (start limit : Expr) (step : Option Expr) : List Layout :=
  start.layouts s ++ (.shaped (s.push .value) :: (limit.layouts s ++ (stepLayouts (s.push .value) step ++
    (.shaped (s.values 2) :: (testLayouts inner ++ [.shaped (inner.push .value)])))))

/-- The layouts of a counting loop behind its body. -/
def closeLayouts (inner : Shape) : List Layout :=
  [.shaped inner, .shaped (inner.values 1), .shaped (inner.values 2), .shaped (inner.values 1)] ++
    (testLayouts inner ++ (.shaped (inner.push .value) :: popLayouts 3 inner))

mutual

/-- The layouts of a statement at address `a`, given the shape before it. -/
def Stmt.layouts (a : Address) (s : Shape) : Stmt → List Layout
  | .share _ => []
  | .declare names => names.map fun _ => .shaped s
  | .constants definitions => definitions.map fun _ => .shaped s
  | .routine isFunction _ _ body =>
    (if isFunction then [.shaped s] else []) ++ (.shaped s ::
      (body.layouts (a + routineHeadSize isFunction) .routine ++ [.shaped .routine]))
  | .branch c yes => c.layouts s ++ (.shaped (s.push .value) :: yes.layouts (a + c.size + 1) s)
  | .branchElse c yes no =>
    let start := a + c.size + 1
    c.layouts s ++ (.shaped (s.push .value) :: (yes.layouts start s ++
      (.shaped s :: no.layouts (start + yes.size + 1) s)))
  | .countLoop _ start limit step body =>
    let again := a + countHeadSize start limit step
    let inner := Loop.forLoop.inner (again + body.size + 12 + 1) s
    openLayouts s inner start limit step ++ (body.layouts again inner ++ closeLayouts inner)
  | .guardLoop head body tail =>
    let start := a + 1 + headSize head
    let done := start + body.size + tailSize tail
    let inner := Loop.doLoop.inner (done + 1) s
    .shaped s :: (headLayouts inner head ++ (body.layouts start inner ++ (tailLayouts inner tail ++
      [.shaped inner])))
  | .exitLoop _ inner => popLayouts (keptBy inner + 1) s
  | .exitRoutine => [.shaped s]
  | .print e => printLayouts s e ++ [.shaped (s.push .value)]
  | .notify _ => [.shaped s]
  | .dialog d slots => layoutsOfSlots s d.defaults slots ++ (.shaped (s.values d.defaults.length) ::
    if d.answers then [.shaped (s.push .value)] else [])
  | .assign _ none e => e.layouts s ++ [.shaped (s.push .value)]
  | .assign _ (some _) e => .shaped s :: (e.layouts (s.push .value) ++
    [.shaped (s.values 2), .shaped (s.push .value)])
  | .call r arguments => .shaped s :: (layoutsOfAll s.enter arguments ++ r.layouts s)

/-- The layouts of a block at address `a`, given the shape before it. -/
def Block.layouts (a : Address) (s : Shape) : Block → List Layout
  | .nil => []
  | .cons _ first rest => first.layouts a s ++ rest.layouts (a + first.size) s

end

/-! ## There is a layout for every instruction -/

@[simp] theorem length_pushLayouts (n : Nat) (s : Shape) : (pushLayouts n s).length = n := by
  induction n generalizing s with
  | zero => rfl
  | succ n ih => exact congrArg (· + 1) (ih _)

@[simp] theorem length_popLayouts (n : Nat) (s : Shape) : (popLayouts n s).length = n := by
  induction n generalizing s with
  | zero => rfl
  | succ n ih => exact congrArg (· + 1) (ih _)

@[simp] theorem length_bindLayouts (s : Shape) (n : Nat) : (bindLayouts s n).length = 2 * n := by
  induction n with
  | zero => rfl
  | succ n ih => simp [bindLayouts, ih]; omega

@[simp] theorem Routine.length_layouts (s : Shape) (r : Routine) :
    (r.layouts s).length = 2 * r.parameters.length + 2 := by
  simp [Routine.layouts]

mutual

@[simp] theorem Expr.length_layouts : (e : Expr) → (s : Shape) → (e.layouts s).length = e.size
  | .literal _, _ => rfl
  | .variable _, _ => rfl
  | .call r arguments, s => by simp [Expr.layouts, Expr.size, length_layoutsOfAll arguments]; omega
  | .unary _ e, s => by simp [Expr.layouts, Expr.size, e.length_layouts]
  | .binary _ l r, s => by simp [Expr.layouts, Expr.size, l.length_layouts, r.length_layouts]; omega
  | .conjunction first rest, s => by
    simp [Expr.layouts, Expr.size, first.length_layouts, length_layoutsOfRest rest]; omega
  | .choice c x y, s => by
    simp [Expr.layouts, Expr.size, c.length_layouts, x.length_layouts, y.length_layouts]; omega
  | .dialog d slots, s => by
    simp only [Expr.layouts, Expr.size, List.length_append, List.length_cons, length_layoutsOfSlots slots]
    split <;> rfl

@[simp] theorem length_layoutsOfAll : (es : List Expr) → (s : Shape) → (layoutsOfAll s es).length = sizeOfAll es
  | [], _ => rfl
  | e :: rest, s => by simp [layoutsOfAll, sizeOfAll, e.length_layouts, length_layoutsOfAll rest]

@[simp] theorem length_layoutsOfRest : (es : List Expr) → (s : Shape) → (layoutsOfRest s es).length = sizeOfRest es
  | [], _ => rfl
  | e :: rest, s => by simp [layoutsOfRest, sizeOfRest, e.length_layouts, length_layoutsOfRest rest]; omega

@[simp] theorem length_layoutsOfSlots : (slots : List Slot) → (s : Shape) → (defaults : List Value) →
    (layoutsOfSlots s defaults slots).length = sizeOfSlots defaults slots
  | [], s, defaults => by simp [layoutsOfSlots, sizeOfSlots]
  | slot :: rest, s, defaults => by
    simp only [layoutsOfSlots, sizeOfSlots, List.length_append, slot.length_layouts, length_layoutsOfSlots rest]

@[simp] theorem Slot.length_layouts : (slot : Slot) → (s : Shape) → (dropped : Bool) →
    (slot.layouts s dropped).length = slot.size dropped
  | .omitted, s, dropped => by cases dropped <;> rfl
  | .given e, s, dropped => by cases dropped <;> simp [Slot.layouts, Slot.size, e.length_layouts]

end

@[simp] theorem length_testLayouts (s : Shape) : (testLayouts s).length = 7 := rfl

@[simp] theorem length_stepLayouts (s : Shape) (step : Option Expr) : (stepLayouts s step).length = stepSize step := by
  cases step <;> simp [stepLayouts, stepSize]

@[simp] theorem length_headLayouts (s : Shape) (head : Option Guard) : (headLayouts s head).length = headSize head := by
  cases head <;> simp [headLayouts, headSize]

@[simp] theorem length_tailLayouts (s : Shape) (tail : Option Guard) : (tailLayouts s tail).length = tailSize tail := by
  cases tail <;> simp [tailLayouts, tailSize]

@[simp] theorem length_printLayouts (s : Shape) (e : Option Expr) : (printLayouts s e).length = printSize e := by
  cases e <;> simp [printLayouts, printSize]

@[simp] theorem length_openLayouts (s inner : Shape) (start limit : Expr) (step : Option Expr) :
    (openLayouts s inner start limit step).length = countHeadSize start limit step := by
  simp [openLayouts, countHeadSize]
  omega

@[simp] theorem length_closeLayouts (inner : Shape) : (closeLayouts inner).length = 15 := rfl

mutual

@[simp] theorem Stmt.length_layouts : (stmt : Stmt) → (a : Address) → (s : Shape) →
    (stmt.layouts a s).length = stmt.size
  | .share _, _, _ | .exitRoutine, _, _ | .notify _, _, _ => rfl
  | .declare names, _, _ => by simp [Stmt.layouts, Stmt.size]
  | .constants definitions, _, _ => by simp [Stmt.layouts, Stmt.size]
  | .routine isFunction _ _ body, a, s => by
    simp only [Stmt.layouts, Stmt.size, List.length_append, List.length_cons, body.length_layouts]
    cases isFunction <;> simp [routineHeadSize] <;> omega
  | .branch c yes, a, s => by simp [Stmt.layouts, Stmt.size, yes.length_layouts]; omega
  | .branchElse c yes no, a, s => by simp [Stmt.layouts, Stmt.size, yes.length_layouts, no.length_layouts]; omega
  | .countLoop _ start limit step body, a, s => by
    simp [Stmt.layouts, Stmt.size, body.length_layouts]; omega
  | .guardLoop head body tail, a, s => by simp [Stmt.layouts, Stmt.size, body.length_layouts]; omega
  | .exitLoop _ inner, _, _ => by simp [Stmt.layouts, Stmt.size]
  | .print e, _, _ => by simp [Stmt.layouts, Stmt.size]
  | .dialog d slots, _, s => by
    simp only [Stmt.layouts, Stmt.size, List.length_append, List.length_cons, length_layoutsOfSlots]
    split <;> rfl
  | .assign _ none e, _, _ => by simp [Stmt.layouts, Stmt.size]
  | .assign _ (some _) e, _, _ => by simp [Stmt.layouts, Stmt.size]; omega
  | .call r arguments, _, _ => by simp [Stmt.layouts, Stmt.size]; omega

@[simp] theorem Block.length_layouts : (b : Block) → (a : Address) → (s : Shape) → (b.layouts a s).length = b.size
  | .nil, _, _ => rfl
  | .cons _ first rest, a, s => by
    simp [Block.layouts, Block.size, first.length_layouts, rest.length_layouts]

end

/-! ## Expressions fit their layouts -/

theorem checked_iff {L : Address → Option Layout} {a : Address} {code : List Instruction} :
    Checked L a code ↔ EachAt (fun b i => ∃ l, L b = some l ∧ l.Fits L b i) a code := Iff.rfl

section Expressions

variable {L : Address → Option Layout}

mutual

/-- The layout before an expression is the first of its layouts. -/
theorem Expr.start : (e : Expr) → ∀ {a : Nat} {s : Shape}, ListsAt L a (e.layouts s) → L a = some (.shaped s)
  | .literal _, _, _, h | .variable _, _, _, h | .call _ _, _, _, h => h.first
  | .unary _ e, _, _, h => e.start h.left
  | .binary _ l _, _, _, h => l.start h.left
  | .conjunction first _, _, _, h => first.start h.left
  | .choice c _ _, _, _, h => c.start h.left
  | .dialog d slots, a, s, h => start_slots slots h.left (h.right (by rw [length_layoutsOfSlots])).first

theorem start_slots : (slots : List Slot) → ∀ {a : Nat} {s : Shape} {defaults : List Value},
    ListsAt L a (layoutsOfSlots s defaults slots) →
    L (a + sizeOfSlots defaults slots) = some (.shaped (s.values defaults.length)) → L a = some (.shaped s)
  | [], _, _, [], _, hend => hend
  | [], _, _, _ :: _, h, _ => h.first
  | .omitted :: rest, a, s, [], h, hend => start_slots rest (h.right rfl) (by
    rw [sizeOfSlots] at hend
    simpa [Slot.size] using hend)
  | .omitted :: _, _, _, _ :: _, h, _ => h.left.first
  | .given e :: _, _, _, _, h, _ => e.start h.left.left

end

theorem Machine.Shape.values_push (n : Nat) (s : Shape) : (s.push .value).values n = s.values (n + 1) := by
  induction n with
  | zero => rfl
  | succ n ih => exact congrArg (Shape.push .value) ih

theorem checked_push : ∀ (vs : List Value) {a : Nat} {s : Shape}, ListsAt L a (pushLayouts vs.length s) →
    L (a + vs.length) = some (.shaped (s.values vs.length)) → Checked L a (vs.map .pushValue)
  | [], _, _, _, _ => .nil
  | [_], _, _, h, hend => .one h.first ⟨.value, trivial, hend⟩
  | _ :: v :: vs, a, s, h, hend => by
    refine .cons h.first ⟨.value, trivial, h.tail.first⟩ (checked_push (v :: vs) h.tail ?_)
    rw [Shape.values_push, Nat.add_assoc, Nat.add_comm 1]
    exact hend

/-- Binding parameters to the values of a new scope takes the values from it. -/
theorem checked_bind : ∀ (names : List String) {a : Nat} {s : Shape}, (∀ p ∈ names, p ≠ returnName) →
    ListsAt L a (bindLayouts s names.length) → L (a + 2 * names.length) = some (.shaped s) →
    Checked L a (names.flatMap fun p => [.allocVar p, .assign p])
  | [], _, _, _, _, _ => .nil
  | name :: names, a, s, hnames, h, hend => by
    have hname := hnames name List.mem_cons_self
    have hrest : ∀ p ∈ names, p ≠ returnName := fun p hp => hnames p (List.mem_cons_of_mem _ hp)
    have htail : L (a + 2 + 2 * names.length) = some (.shaped s) := by
      rw [show a + 2 + 2 * names.length = a + 2 * (names.length + 1) by omega]
      exact hend
    have hnext : L (a + 1 + 1) = some (.shaped (s.values names.length)) := by
      cases names with
      | nil => exact hend
      | cons p names => exact h.tail.tail.first
    refine .cons h.first ⟨hname, h.tail.first⟩ (.cons h.tail.first ⟨hname, _, rfl, hnext⟩ ?_)
    exact checked_bind names hrest h.tail.tail htail

theorem start_all {es : List Expr} {a : Nat} {s : Shape} (h : ListsAt L a (layoutsOfAll s es))
    (hend : L (a + sizeOfAll es) = some (.shaped (s.values es.length))) : L a = some (.shaped s) := by
  cases es with
  | nil => exact hend
  | cons e rest => exact e.start h.left

theorem start_rest {es : List Expr} {a : Nat} {s : Shape} (h : ListsAt L a (layoutsOfRest s es))
    (hend : L (a + sizeOfRest es) = some (.shaped (s.push .value))) : L a = some (.shaped (s.push .value)) := by
  cases es with
  | nil => exact hend
  | cons e rest => exact h.first

theorem Routine.start {r : Routine} {a : Nat} {s : Shape} (h : ListsAt L a (r.layouts s)) :
    L a = some (.shaped (s.enter.values r.parameters.length)) := by
  unfold Routine.layouts at h
  cases hn : r.parameters.length with
  | zero => rw [hn] at h; exact h.first
  | succ n => rw [hn] at h; exact h.first

/-- A table knows the routines that may be called, and no name is that of the return address. -/
structure Knows (L : Address → Option Layout) (R : Rules) : Prop where
  name : ∀ n, R.name n → n ≠ returnName
  entry : ∀ r, R.routine r → L r.entry = some (.shaped .routine)
  parameter : ∀ r, R.routine r → ∀ p ∈ r.parameters, R.name p

variable {R : Rules}

theorem Routine.checked (hR : Knows L R) {r : Routine} (hr : R.routine r) {a : Nat} {s : Shape}
    (h : ListsAt L a (r.layouts s)) (hend : L (a + 2 * r.parameters.length + 2) = some (.shaped s)) :
    Checked L a r.enter := by
  have hcall : ListsAt L (a + 2 * r.parameters.length) [.shaped s.enter, .returned s] :=
    h.right (by rw [length_bindLayouts])
  refine .append (b := a + 2 * r.parameters.length) ?_ ?_ (by simp)
  · refine checked_bind (s := s.enter) _ (fun p hp => hR.name p (hR.parameter r hr p (List.mem_reverse.1 hp))) ?_ ?_
    · rw [List.length_reverse]
      exact h.left
    · rw [List.length_reverse]
      exact hcall.first
  · exact .cons hcall.first ⟨s, rfl, hR.entry r hr, hcall.tail.first⟩ (.one hcall.tail.first ⟨rfl, hend⟩)

/-- The arguments of a call and the call itself, without the result. -/
theorem checked_call (hR : Knows L R) {r : Routine} (hr : R.routine r) {arguments : List Expr}
    (hlength : arguments.length = r.parameters.length) {a : Nat} {s : Shape}
    (h : ListsAt L a (.shaped s :: (layoutsOfAll s.enter arguments ++ r.layouts s)))
    (harguments : L (a + 1 + sizeOfAll arguments) = some (.shaped (s.enter.values arguments.length)) →
      Checked L (a + 1) (codeOfAll (a + 1) arguments))
    (hend : L (a + 1 + sizeOfAll arguments + 2 * r.parameters.length + 2) = some (.shaped s)) :
    Checked L a (.pushScope :: codeOfAll (a + 1) arguments ++ r.enter) := by
  have hcall : ListsAt L (a + 1 + sizeOfAll arguments) (r.layouts s) :=
    h.tail.right (by rw [length_layoutsOfAll])
  have hready : L (a + 1 + sizeOfAll arguments) = some (.shaped (s.enter.values arguments.length)) := by
    rw [hlength]
    exact Routine.start hcall
  refine .cons h.first (start_all h.tail.left hready) ?_
  exact .append (b := a + 1 + sizeOfAll arguments) (harguments hready) (Routine.checked hR hr hcall hend)
    (by rw [length_codeOfAll])

mutual

/-- The instructions of an expression fit its layouts if one value more is on the stack behind it. -/
theorem Expr.checked (hR : Knows L R) : (e : Expr) → ∀ {a b : Nat} {s : Shape}, e.Obeys R → ListsAt L a (e.layouts s) →
    L b = some (.shaped (s.push .value)) → a + e.size = b → Checked L a (e.code a)
  | .literal v, a, b, s, _, h, hend, hb => by
    subst hb
    exact .one h.first ⟨.value, trivial, hend⟩
  | .variable name, a, b, s, _, h, hend, hb => by
    subst hb
    exact .one h.first hend
  | .call r arguments, a, b, s, hobeys, h, hend, hb => by
    obtain ⟨hr, hlength, hargs⟩ := hobeys
    have hresult : L (a + 1 + sizeOfAll arguments + 2 * r.parameters.length + 2) = some (.shaped s) :=
      (h.right (by simp; omega)).first
    rw [Expr.size] at hb
    rw [show b = a + 1 + sizeOfAll arguments + 2 * r.parameters.length + 2 + 1 by omega] at hend
    rw [Expr.code]
    refine (checked_call hR hr hlength h.left ?_ hresult).append (.one hresult hend) (by simp [length_codeOfAll]; omega)
    exact fun hready => checked_all hR arguments hargs h.left.tail.left hready
  | .unary op e, a, b, s, hobeys, h, hend, hb => by
    subst hb
    have hop : L (a + e.size) = some (.shaped (s.push .value)) := (h.right (by rw [e.length_layouts])).first
    exact (e.checked hR hobeys h.left hop rfl).append (.one hop ⟨s, rfl, hend⟩) (by simp)
  | .binary op l r, a, b, s, hobeys, h, hend, hb => by
    have hright : ListsAt L (a + l.size) (r.layouts (s.push .value) ++ [.shaped (s.values 2)]) :=
      h.right (by rw [l.length_layouts])
    have hop : L (a + l.size + r.size) = some (.shaped (s.values 2)) :=
      (hright.right (by rw [r.length_layouts])).first
    rw [Expr.size] at hb
    rw [show b = a + l.size + r.size + 1 by omega] at hend
    rw [Expr.code, List.append_assoc]
    refine .append (b := a + l.size) (l.checked hR hobeys.1 h.left (r.start hright.left) rfl) ?_ (by simp)
    exact (r.checked hR hobeys.2 hright.left hop rfl).append (.one hop ⟨s, rfl, hend⟩) (by simp)
  | .conjunction first rest, a, b, s, hobeys, h, hend, hb => by
    have hrest : ListsAt L (a + first.size) (layoutsOfRest s rest ++
        [.shaped (s.push .value), .shaped s, .shaped (s.push .value), .shaped s]) :=
      h.right (by rw [first.length_layouts])
    have hlast : ListsAt L (a + first.size + sizeOfRest rest)
        [.shaped (s.push .value), .shaped s, .shaped (s.push .value), .shaped s] :=
      hrest.right (by rw [length_layoutsOfRest])
    -- an operand that is false goes on at the instruction that pushes the value of the chain then
    have hfails : L (a + first.size + sizeOfRest rest + 3) = some (.shaped s) := hlast.tail.tail.tail.first
    rw [Expr.size] at hb
    rw [show b = a + first.size + sizeOfRest rest + 3 + 1 by omega] at hend
    refine checked_iff.2 (eachAt_conjunction.2 ⟨?_, ?_, ?_⟩)
    · exact first.checked hR hobeys.1 h.left (start_rest hrest.left hlast.first) rfl
    · exact checked_rest hR rest hobeys.2 hrest.left hlast.first hfails
    · refine Checked.cons hlast.first ⟨s, rfl, hlast.tail.first, hfails⟩ ?_
      refine .cons hlast.tail.first ⟨.value, trivial, hlast.tail.tail.first⟩ ?_
      exact .cons hlast.tail.tail.first hend (.one hfails ⟨.value, trivial, hend⟩)
  | .choice c x y, a, b, s, hobeys, h, hend, hb => by
    have hbranch := h.right (b := a + c.size) (by rw [c.length_layouts])
    have hyes : ListsAt L (a + c.size + 1) (x.layouts s ++ (.shaped (s.push .value) :: y.layouts s)) := hbranch.tail
    have hskip : ListsAt L (a + c.size + x.size + 1) (.shaped (s.push .value) :: y.layouts s) :=
      hyes.right (by rw [x.length_layouts]; omega)
    rw [Expr.size] at hb
    rw [show b = a + c.size + x.size + 2 + y.size by omega] at hend
    refine checked_iff.2 (eachAt_choice.2 ⟨?_, ?_, ?_⟩)
    · exact c.checked hR hobeys.1 h.left hbranch.first rfl
    · refine Checked.cons hbranch.first ⟨s, rfl, x.start hyes.left, y.start hskip.tail⟩ ?_
      exact x.checked hR hobeys.2.1 hyes.left hskip.first (by omega)
    · exact Checked.cons hskip.first hend (y.checked hR hobeys.2.2 hskip.tail hend rfl)
  | .dialog d slots, a, b, s, hobeys, h, hend, hb => by
    have hopen := h.right (b := a + sizeOfSlots d.defaults slots) (by rw [length_layoutsOfSlots])
    rw [Expr.code]
    refine .append (b := a + sizeOfSlots d.defaults slots) (checked_slots hR slots hobeys h.left hopen.first) ?_
      (by rw [length_codeOfSlots])
    rw [Expr.size] at hb
    -- a dialog without an answer is followed by a push, so that there is a value in any case
    by_cases hd : d.answers = true
    · rw [if_pos hd] at hb ⊢
      rw [← hb] at hend
      refine .one hopen.first ⟨s, rfl, ?_⟩
      rw [if_pos hd]
      exact hend
    · have hpush : L (a + sizeOfSlots d.defaults slots + 1) = some (.shaped s) := by
        have := hopen.tail
        rw [if_neg hd] at this
        exact this.first
      rw [if_neg hd] at hb ⊢
      rw [← hb] at hend
      refine .cons hopen.first ⟨s, rfl, ?_⟩ (.one hpush ⟨.value, trivial, hend⟩)
      rw [if_neg hd]
      exact hpush

theorem checked_all (hR : Knows L R) : (es : List Expr) → ∀ {a : Nat} {s : Shape}, AllObey R es →
    ListsAt L a (layoutsOfAll s es) → L (a + sizeOfAll es) = some (.shaped (s.values es.length)) →
    Checked L a (codeOfAll a es)
  | [], _, _, _, _, _ => .nil
  | e :: rest, a, s, hobeys, h, hend => by
    have hrest : ListsAt L (a + e.size) (layoutsOfAll (s.push .value) rest) := h.right (by rw [e.length_layouts])
    have hend : L (a + e.size + sizeOfAll rest) = some (.shaped ((s.push .value).values rest.length)) := by
      rw [Shape.values_push, Nat.add_assoc]
      exact hend
    refine .append (b := a + e.size) (e.checked hR hobeys.1 h.left (start_all hrest hend) rfl) ?_ (by simp)
    exact checked_all hR rest hobeys.2 hrest hend

theorem checked_rest (hR : Knows L R) : (es : List Expr) → ∀ {a fails : Nat} {s : Shape}, AllObey R es →
    ListsAt L a (layoutsOfRest s es) → L (a + sizeOfRest es) = some (.shaped (s.push .value)) →
    L fails = some (.shaped s) → Checked L a (codeOfRest fails a es)
  | [], _, _, _, _, _, _, _ => .nil
  | e :: rest, a, fails, s, hobeys, h, hend, hfails => by
    have hrest : ListsAt L (a + 1 + e.size) (layoutsOfRest s rest) := h.tail.right (by rw [e.length_layouts])
    rw [sizeOfRest] at hend
    rw [show a + (e.size + 1 + sizeOfRest rest) = a + 1 + e.size + sizeOfRest rest by omega] at hend
    refine .cons h.first ⟨s, rfl, e.start h.tail.left, hfails⟩ ?_
    refine .append (b := a + 1 + e.size) (e.checked hR hobeys.1 h.tail.left (start_rest hrest hend) rfl) ?_ (by simp)
    exact checked_rest hR rest hobeys.2 hrest hend hfails

theorem checked_slots (hR : Knows L R) : (slots : List Slot) → ∀ {a : Nat} {s : Shape} {defaults : List Value},
    SlotsObey R slots → ListsAt L a (layoutsOfSlots s defaults slots) →
    L (a + sizeOfSlots defaults slots) = some (.shaped (s.values defaults.length)) →
    Checked L a (codeOfSlots a defaults slots)
  | [], _, _, defaults, _, h, hend => checked_push defaults h hend
  | .omitted :: rest, a, s, [], hobeys, h, hend => by
    rw [sizeOfSlots] at hend
    exact checked_slots hR rest hobeys.2 (h.right rfl) (by simpa [Slot.size] using hend)
  | .omitted :: rest, a, s, d :: defaults, hobeys, h, hend => by
    have hrest : ListsAt L (a + 1) (layoutsOfSlots (s.push .value) defaults rest) := h.tail
    have hend : L (a + 1 + sizeOfSlots defaults rest) = some (.shaped ((s.push .value).values defaults.length)) := by
      rw [Shape.values_push, Nat.add_assoc]
      exact hend
    exact .cons h.first ⟨.value, trivial, start_slots rest hrest hend⟩ (checked_slots hR rest hobeys.2 hrest hend)
  | .given e :: rest, a, s, [], hobeys, h, hend => by
    have hdrop : L (a + e.size) = some (.shaped (s.push .value)) := (h.left.right (by rw [e.length_layouts])).first
    have hrest : ListsAt L (a + (e.size + 1)) (layoutsOfSlots s [] rest) := h.right (by simp [Slot.size])
    have hend : L (a + (e.size + 1) + sizeOfSlots [] rest) = some (.shaped s) := by
      rw [Nat.add_assoc]
      exact hend
    refine .append (b := a + (e.size + 1)) ?_ (checked_slots hR rest hobeys.2 hrest hend) (by simp [Slot.code])
    exact (e.checked hR hobeys.1 h.left.left hdrop rfl).append
      (.one hdrop ⟨.value, s, rfl, start_slots rest hrest hend⟩) (by simp)
  | .given e :: rest, a, s, d :: defaults, hobeys, h, hend => by
    have hrest : ListsAt L (a + e.size) (layoutsOfSlots (s.push .value) defaults rest) :=
      h.right (by simp [Slot.layouts])
    have hend : L (a + e.size + sizeOfSlots defaults rest) =
        some (.shaped ((s.push .value).values defaults.length)) := by
      rw [Shape.values_push, Nat.add_assoc]
      exact hend
    have hcode : Checked L a (e.code a) := e.checked hR hobeys.1 h.left.left (start_slots rest hrest hend) rfl
    rw [codeOfSlots, Slot.code]
    simp only [List.head?_cons, Option.isNone_some, Bool.false_eq_true, if_false, List.append_nil]
    exact hcode.append (checked_slots hR rest hobeys.2 hrest hend) (by simp [Slot.size])

end

end Expressions

/-! ## Routines -/

section Routines

variable {L : Address → Option Layout}

/-- The layout before a statement is that behind it if the statement is empty, else the first of its layouts. -/
theorem Stmt.start (stmt : Stmt) {a : Nat} {s : Shape} (h : ListsAt L a (stmt.layouts a s))
    (hend : L (a + stmt.size) = some (.shaped s)) : L a = some (.shaped s) := by
  cases stmt with
  | share names => exact hend
  | declare names =>
    cases names with
    | nil => exact hend
    | cons n names => exact h.first
  | constants definitions =>
    cases definitions with
    | nil => exact hend
    | cons d definitions => exact h.first
  | routine isFunction name parameters body =>
    cases isFunction with
    | true => exact h.first
    | false => exact h.first
  | branch c yes => exact c.start h.left
  | branchElse c yes no => exact c.start h.left
  | countLoop counter start limit step body => exact start.start h.left.left
  | guardLoop head body tail => exact h.first
  | exitLoop kind inner => exact h.first
  | exitRoutine | notify | call => exact h.first
  | print e =>
    cases e with
    | none => exact h.first
    | some e => exact e.start h.left
  | dialog d slots => exact start_slots slots h.left (h.right (by rw [length_layoutsOfSlots])).first
  | assign name op e =>
    cases op with
    | none => exact e.start h.left
    | some op => exact h.first

theorem Block.start : (b : Block) → ∀ {a : Nat} {s : Shape}, ListsAt L a (b.layouts a s) →
    L (a + b.size) = some (.shaped s) → L a = some (.shaped s)
  | .nil, _, _, _, hend => hend
  | .cons _ first rest, a, s, h, hend => by
    refine first.start h.left (rest.start (h.right (by rw [first.length_layouts])) ?_)
    rw [Nat.add_assoc]
    exact hend

/-- The layouts of a routine from its body on. -/
theorem Stmt.routine_body {isFunction : Bool} {name : String} {parameters : List String} {body : Block} {a : Nat}
    {s : Shape} (h : ListsAt L a ((Stmt.routine isFunction name parameters body).layouts a s)) :
    ListsAt L (a + routineHeadSize isFunction) (body.layouts (a + routineHeadSize isFunction) .routine ++
      [.shaped .routine]) := by
  cases isFunction with
  | true => exact h.tail.tail
  | false => exact h.tail

mutual

/-- The table has the layout of a routine at the entry of every routine that a statement defines. -/
theorem Stmt.entries : (stmt : Stmt) → ∀ {a : Nat} {s : Shape}, ListsAt L a (stmt.layouts a s) →
    ∀ r ∈ stmt.routines a, L r.entry = some (.shaped .routine)
  | .routine isFunction name parameters body, a, s, h, r, hr => by
    have hbody := Stmt.routine_body h
    rw [Stmt.routines, List.mem_cons] at hr
    rcases hr with rfl | hr
    · exact body.start hbody.left (hbody.right (by rw [body.length_layouts])).first
    · exact body.entries hbody.left r hr
  | .branch c yes, a, s, h, r, hr => yes.entries (h.right (by rw [c.length_layouts])).tail r hr
  | .branchElse c yes no, a, s, h, r, hr => by
    have hyes := (h.right (b := a + c.size) (by rw [c.length_layouts])).tail
    have hno := (hyes.right (b := a + c.size + 1 + yes.size) (by rw [yes.length_layouts])).tail
    rw [Stmt.routines, List.mem_append] at hr
    rcases hr with hr | hr
    · exact yes.entries hyes.left r hr
    · exact no.entries hno r hr
  | .countLoop counter start limit step body, a, s, h, r, hr =>
    body.entries (h.right (by rw [length_openLayouts])).left r hr
  | .guardLoop head body tail, a, s, h, r, hr =>
    body.entries (h.tail.right (by rw [length_headLayouts])).left r hr
  | .share _, _, _, _, _, hr | .declare _, _, _, _, _, hr | .constants _, _, _, _, _, hr
  | .exitLoop _ _, _, _, _, _, hr | .exitRoutine, _, _, _, _, hr | .print _, _, _, _, _, hr
  | .notify _, _, _, _, _, hr | .dialog _ _, _, _, _, _, hr | .assign _ _ _, _, _, _, _, hr
  | .call _ _, _, _, _, _, hr => nomatch hr

theorem Block.entries : (b : Block) → ∀ {a : Nat} {s : Shape}, ListsAt L a (b.layouts a s) →
    ∀ r ∈ b.routines a, L r.entry = some (.shaped .routine)
  | .nil, _, _, _, _, hr => nomatch hr
  | .cons _ first rest, a, s, h, r, hr => by
    rw [Block.routines, List.mem_append] at hr
    rcases hr with hr | hr
    · exact first.entries h.left r hr
    · exact rest.entries (h.right (by rw [first.length_layouts])) r hr

end

end Routines

/-! ## Loops -/

/-- What loops keep on the stack, given the addresses that they are left for, the innermost one first. -/
def cellsOf : List (Loop × Address) → List Cell
  | [] => []
  | (kind, behind) :: around => kind.cells behind ++ cellsOf around

/-- The shape between two statements inside of loops. -/
def Machine.Shape.amid (inside : Bool) (loops : List (Loop × Address)) : Shape := ⟨inside, cellsOf loops, []⟩

/-- Where a loop is left for, the table expects what is left on the stack. -/
def Exits (L : Address → Option Layout) (inside : Bool) : List (Loop × Address) → Prop
  | [] => True
  | (kind, behind) :: around =>
    L behind = some (.shaped ⟨inside, (kind.cells behind).tail ++ cellsOf around, []⟩) ∧ Exits L inside around

section Loops

variable {L : Address → Option Layout} {inside : Bool}

theorem Loop.cells_eq (kind : Loop) (behind : Address) :
    kind.cells behind = .exit behind :: (kind.cells behind).tail := by
  cases kind <;> rfl

theorem Loop.length_cells (kind : Loop) (behind : Address) : (kind.cells behind).length = kind.kept := by
  cases kind <;> rfl

/-- Below what the inner loops keep is the address that a loop of the given kind is left for. -/
theorem Exits.exists_exit {kind : Loop} : ∀ {loops : List (Loop × Address)}, Exits L inside loops →
    kind ∈ loops.map Prod.fst → ∃ cells behind rest, cellsOf loops = cells ++ .exit behind :: rest ∧
      cells.length = keptBy ((loops.map Prod.fst).takeWhile (· != kind)) ∧
      L behind = some (.shaped ⟨inside, rest, []⟩)
  | (k, behind) :: around, ⟨hbehind, haround⟩, hmem => by
    by_cases hk : k = kind
    · subst hk
      refine ⟨[], behind, (k.cells behind).tail ++ cellsOf around, ?_, ?_, hbehind⟩
      · rw [cellsOf, k.cells_eq]
        rfl
      · simp [keptBy]
    · have hmem : kind ∈ around.map Prod.fst := by
        rcases List.mem_cons.1 hmem with h | h
        · exact absurd h.symm hk
        · exact h
      obtain ⟨cells, target, rest, hcells, hlength, htarget⟩ := haround.exists_exit hmem
      refine ⟨k.cells behind ++ cells, target, rest, ?_, ?_, htarget⟩
      · rw [cellsOf, hcells, List.append_assoc]
      · simp [keptBy, hk, Loop.length_cells, hlength]

/-- Dropping what is above an address and going there. -/
theorem checked_exit {target : Address} {rest : List Cell} {waiting : List (List Cell)}
    (htarget : L target = some (.shaped ⟨inside, rest, waiting⟩)) : ∀ (cells : List Cell) {a : Nat},
    ListsAt L a (popLayouts (cells.length + 1) ⟨inside, cells ++ .exit target :: rest, waiting⟩) →
    Checked L a (List.replicate cells.length Instruction.pop ++ [.jumpPop])
  | [], _, h => .one h.first ⟨target, _, rfl, htarget⟩
  | c :: cells, _, h => .cons h.first ⟨c, _, rfl, h.tail.first⟩ (checked_exit htarget cells h.tail)

theorem checked_test (counter : String) {a : Nat} {s : Shape} (h : ListsAt L a (testLayouts s))
    (hs : 2 < s.cells.length) (hend : L (a + 7) = some (.shaped (s.push .value))) :
    Checked L a (countTest counter) := by
  have hdistance := h.tail.tail.tail
  have hproduct := hdistance.tail.tail
  refine .cons h.first ⟨hs, h.tail.first⟩ (.cons h.tail.first h.tail.tail.first ?_)
  refine .cons h.tail.tail.first ⟨s, rfl, hdistance.first⟩ ?_
  refine .cons hdistance.first ⟨Nat.lt_succ_of_lt hs, hdistance.tail.first⟩ ?_
  refine .cons hdistance.tail.first ⟨s, rfl, hproduct.first⟩ ?_
  refine .cons hproduct.first ⟨.value, trivial, hproduct.tail.first⟩ ?_
  exact .one hproduct.tail.first ⟨s, rfl, hend⟩

theorem start_step {step : Option Expr} {a : Nat} {s : Shape} (h : ListsAt L a (stepLayouts s step)) :
    L a = some (.shaped s) := by
  cases step with
  | none => exact h.first
  | some e => exact e.start h

theorem start_head {head : Option Guard} {a : Nat} {s : Shape} (h : ListsAt L a (headLayouts s head))
    (hend : L (a + headSize head) = some (.shaped s)) : L a = some (.shaped s) := by
  cases head with
  | none => exact hend
  | some g => exact g.condition.start h.left

theorem start_tail {tail : Option Guard} {a : Nat} {s : Shape} (h : ListsAt L a (tailLayouts s tail)) :
    L a = some (.shaped s) := by
  cases tail with
  | none => exact h.first
  | some g => exact g.condition.start h.left

variable {R : Rules} (hR : Knows L R)

include hR

theorem checked_step {step : Option Expr} (hstep : ∀ e ∈ step, e.Obeys R) {a : Nat} {s : Shape}
    (h : ListsAt L a (stepLayouts s step)) (hend : L (a + stepSize step) = some (.shaped (s.push .value))) :
    Checked L a (stepCode a step) := by
  cases step with
  | none => exact .one h.first ⟨.value, trivial, hend⟩
  | some e => exact e.checked hR (hstep e rfl) h hend rfl

theorem checked_print {e : Option Expr} (he : ∀ x ∈ e, x.Obeys R) {a : Nat} {s : Shape}
    (h : ListsAt L a (printLayouts s e)) (hend : L (a + printSize e) = some (.shaped (s.push .value))) :
    Checked L a (printCode a e) := by
  cases e with
  | none => exact .one h.first ⟨.value, trivial, hend⟩
  | some e => exact e.checked hR (he e rfl) h hend rfl

theorem checked_head {head : Option Guard} (hhead : ∀ g ∈ head, g.condition.Obeys R) {a : Nat} {done : Address}
    {s : Shape} (h : ListsAt L a (headLayouts s head)) (hend : L (a + headSize head) = some (.shaped s))
    (hdone : L done = some (.shaped s)) : Checked L a (headCode a done head) := by
  cases head with
  | none => exact .nil
  | some g =>
    have hbranch := (h.right (b := a + g.condition.size) (by rw [g.condition.length_layouts])).first
    refine (g.condition.checked hR (hhead g rfl) h.left hbranch rfl).append (.one hbranch ?_) (by simp)
    split
    · exact ⟨s, rfl, hend, hdone⟩
    · exact ⟨s, rfl, hend, hdone⟩

theorem checked_tail {tail : Option Guard} (htail : ∀ g ∈ tail, g.condition.Obeys R) {a : Nat} {back : Address}
    {s : Shape} (h : ListsAt L a (tailLayouts s tail)) (hend : L (a + tailSize tail) = some (.shaped s))
    (hback : L back = some (.shaped s)) : Checked L a (tailCode a back tail) := by
  cases tail with
  | none => exact .one h.first hback
  | some g =>
    have hbranch := (h.right (b := a + g.condition.size) (by rw [g.condition.length_layouts])).first
    refine (g.condition.checked hR (htail g rfl) h.left hbranch rfl).append (.one hbranch ?_) (by simp)
    split
    · exact ⟨s, rfl, hend, hback⟩
    · exact ⟨s, rfl, hend, hback⟩

/-- The instructions of a counting loop before its body. -/
theorem checked_open {counter : String} (hcounter : R.name counter) {start limit : Expr} (hstart : start.Obeys R)
    (hlimit : limit.Obeys R) {step : Option Expr} (hstep : ∀ e ∈ step, e.Obeys R) {a done : Nat} {s : Shape}
    (h : ListsAt L a (openLayouts s (Loop.forLoop.inner (done + 1) s) start limit step))
    (hagain : L (a + countHeadSize start limit step) = some (.shaped (Loop.forLoop.inner (done + 1) s)))
    (hdone : L done = some (.shaped (Loop.forLoop.inner (done + 1) s))) :
    Checked L a (openCode a counter start limit step done) := by
  have hassign := h.right (b := a + start.size) (by rw [start.length_layouts])
  have hafter := hassign.tail.right (b := a + start.size + 1 + limit.size) (by rw [limit.length_layouts])
  have hexit := hafter.right (b := a + start.size + 1 + limit.size + stepSize step) (by rw [length_stepLayouts])
  have hbranch := (hexit.tail.right (b := a + start.size + 1 + limit.size + stepSize step + 1 + 7) rfl).first
  have hagain : L (a + start.size + 1 + limit.size + stepSize step + 1 + 7 + 1) =
      some (.shaped (Loop.forLoop.inner (done + 1) s)) := by
    rw [show a + start.size + 1 + limit.size + stepSize step + 1 + 7 + 1 = a + countHeadSize start limit step by
      simp only [countHeadSize]; omega]
    exact hagain
  refine checked_iff.2 (eachAt_openCode.2 ⟨?_, ?_, ?_, ?_⟩)
  · exact start.checked hR hstart h.left hassign.first rfl
  · refine Checked.cons hassign.first ⟨hR.name _ hcounter, s, rfl, limit.start hassign.tail.left⟩ ?_
    exact limit.checked hR hlimit hassign.tail.left (start_step hafter.left) rfl
  · exact checked_step hR hstep hafter.left hexit.first
  · refine Checked.cons hexit.first ⟨.exit (done + 1), rfl, hexit.tail.first⟩ ?_
    refine .append (checked_test counter hexit.tail.left ?_ hbranch) (.one hbranch ⟨_, rfl, hagain, hdone⟩) rfl
    exact Nat.le_add_left 3 _

omit hR in
/-- The instructions of a counting loop behind its body. -/
theorem checked_close {counter : String} (hcounter : counter ≠ returnName) {a : Nat} {behind again : Address}
    {s : Shape} (h : ListsAt L a (closeLayouts (Loop.forLoop.inner behind s)))
    (hagain : L again = some (.shaped (Loop.forLoop.inner behind s))) (hend : L (a + 15) = some (.shaped s)) :
    Checked L a (closeCode counter again) := by
  have htest := h.right (b := a + 4) rfl
  have hbranch := htest.right (b := a + 4 + 7) rfl
  have hpops := hbranch.tail
  refine checked_iff.2 (eachAt_closeCode.2 ⟨?_, ?_, ?_⟩)
  · refine Checked.cons h.first ⟨?_, h.tail.first⟩ (.cons h.tail.first h.tail.tail.first ?_)
    · exact Nat.le_add_left 2 _
    · refine .cons h.tail.tail.first ⟨_, rfl, h.tail.tail.tail.first⟩ ?_
      exact .one h.tail.tail.tail.first ⟨hcounter, _, rfl, htest.first⟩
  · exact checked_test counter htest.left (Nat.le_add_left 3 _) hbranch.first
  · refine Checked.cons hbranch.first ⟨_, rfl, hpops.first, hagain⟩ ?_
    refine .cons hpops.first ⟨_, _, rfl, hpops.tail.first⟩ ?_
    exact .cons hpops.tail.first ⟨_, _, rfl, hpops.tail.tail.first⟩ (.one hpops.tail.tail.first ⟨_, _, rfl, hend⟩)

end Loops

/-! ## Statements fit their layouts -/

section Statements

variable {L : Address → Option Layout} {R : Rules}

/-- Instructions that leave the stack alone. -/
theorem checked_still {s : Shape} : ∀ (code : List Instruction) {a : Nat}, (∀ i ∈ code, ∀ b, L (b + 1) =
    some (.shaped s) → s.Fits L b i) → ListsAt L a (code.map fun _ => .shaped s) →
    L (a + code.length) = some (.shaped s) → Checked L a code
  | [], _, _, _, _ => .nil
  | [i], _, hfits, h, hend => .one h.first (hfits i List.mem_cons_self _ hend)
  | i :: j :: code, a, hfits, h, hend => by
    refine .cons h.first (hfits i List.mem_cons_self a h.tail.first) ?_
    refine checked_still (j :: code) (fun x hx => hfits x (List.mem_cons_of_mem _ hx)) h.tail ?_
    rw [Nat.add_assoc, Nat.add_comm 1]
    exact hend

mutual

/-- The instructions of a statement inside of loops fit its layouts if the stack is the same behind it. -/
theorem Stmt.checked (hR : Knows L R) : (stmt : Stmt) → ∀ {a b : Nat} {p : Position} {inside : Bool}
    (loops : List (Loop × Address)), stmt.Obeys R (loops.map Prod.fst) inside → Exits L inside loops →
    ListsAt L a (stmt.layouts a (.amid inside loops)) → L b = some (.shaped (.amid inside loops)) →
    a + stmt.size = b → Checked L a (instructionsOf (stmt.lines a p))
  | .share _, _, _, _, _, _, _, _, _, _, _ => .nil
  | .declare names, a, b, p, inside, loops, hobeys, _, h, hend, hb => by
    subst hb
    rw [Stmt.lines, instructionsOf_mark]
    refine checked_still (s := .amid inside loops) _ ?_ ?_ ?_
    · intro i hi b hnext
      obtain ⟨name, hname, rfl⟩ := List.mem_map.1 hi
      exact ⟨hR.name name (hobeys name hname), hnext⟩
    · rw [List.map_map]
      exact h
    · rw [List.length_map]
      exact hend
  | .constants definitions, a, b, p, inside, loops, hobeys, _, h, hend, hb => by
    subst hb
    rw [Stmt.lines, instructionsOf_mark]
    refine checked_still (s := .amid inside loops) _ ?_ ?_ ?_
    · intro i hi b hnext
      obtain ⟨d, hd, rfl⟩ := List.mem_map.1 hi
      exact ⟨hR.name d.1 (hobeys d hd), hnext⟩
    · rw [List.map_map]
      exact h
    · rw [List.length_map]
      exact hend
  | .routine isFunction name parameters body, a, b, p, inside, loops, hobeys, _, h, hend, hb => by
    obtain ⟨hname, _, hbody⟩ := hobeys
    have hlaid := Stmt.routine_body h
    have hret := (hlaid.right (b := a + routineHeadSize isFunction + body.size) (by rw [body.length_layouts])).first
    rw [Stmt.size] at hb
    rw [show b = a + routineHeadSize isFunction + body.size + 1 by omega] at hend
    -- the body has a stack of its own, so no loop around the routine is left from it
    refine checked_iff.2 (eachAt_routine.2 ⟨?_, body.checked hR [] hbody trivial hlaid.left hret rfl, ?_⟩)
    · cases isFunction with
      | true => exact Checked.cons h.first ⟨hR.name _ hname, h.tail.first⟩ (.one h.tail.first hend)
      | false => exact Checked.one h.first hend
    · exact Checked.one hret ⟨rfl, rfl⟩
  | .branch c yes, a, b, p, inside, loops, hobeys, hexits, h, hend, hb => by
    have hbranch := h.right (b := a + c.size) (by rw [c.length_layouts])
    rw [Stmt.size] at hb
    rw [show b = a + c.size + 1 + yes.size by omega] at hend
    refine checked_iff.2 (eachAt_branch.2 ⟨?_, yes.checked hR loops hobeys.2 hexits hbranch.tail hend rfl⟩)
    exact (c.checked hR hobeys.1 h.left hbranch.first rfl).append
      (.one hbranch.first ⟨_, rfl, yes.start hbranch.tail hend, hend⟩) (by rw [c.length_code])
  | .branchElse c yes no, a, b, p, inside, loops, hobeys, hexits, h, hend, hb => by
    have hbranch := h.right (b := a + c.size) (by rw [c.length_layouts])
    have hskip := hbranch.tail.right (b := a + c.size + 1 + yes.size) (by rw [yes.length_layouts])
    rw [Stmt.size] at hb
    rw [show b = a + c.size + 1 + yes.size + 1 + no.size by omega] at hend
    refine checked_iff.2 (eachAt_branchElse.2 ⟨?_, ?_, Checked.one hskip.first hend, ?_⟩)
    · exact (c.checked hR hobeys.1 h.left hbranch.first rfl).append
        (.one hbranch.first ⟨_, rfl, yes.start hbranch.tail.left hskip.first, no.start hskip.tail hend⟩)
        (by rw [c.length_code])
    · exact yes.checked hR loops hobeys.2.1 hexits hbranch.tail.left hskip.first rfl
    · exact no.checked hR loops hobeys.2.2 hexits hskip.tail hend rfl
  | .countLoop counter start limit step body, a, b, p, inside, loops, hobeys, hexits, h, hend, hb => by
    obtain ⟨hcounter, hstart, hlimit, hstep, hbody⟩ := hobeys
    have hinner := h.right (b := a + countHeadSize start limit step) (by rw [length_openLayouts])
    have hclose := hinner.right (b := a + countHeadSize start limit step + body.size) (by rw [body.length_layouts])
    have hagain := body.start hinner.left (hclose 0 _ rfl)
    have hdone := hclose 12 _ rfl
    have hbehind := hclose 13 _ rfl
    rw [Stmt.size] at hb
    rw [show b = a + countHeadSize start limit step + body.size + 15 by omega] at hend
    refine checked_iff.2 (eachAt_countLoop.2 ⟨?_, ?_, checked_close (hR.name _ hcounter) hclose hagain hend⟩)
    · exact checked_open hR hcounter hstart hlimit hstep h.left hagain hdone
    · exact body.checked hR ((.forLoop, _) :: loops) hbody ⟨hbehind, hexits⟩ hinner.left (hclose 0 _ rfl) rfl
  | .guardLoop head body tail, a, b, p, inside, loops, hobeys, hexits, h, hend, hb => by
    obtain ⟨hhead, hbody, htail⟩ := hobeys
    have hinner := h.tail.right (b := a + 1 + headSize head) (by rw [length_headLayouts])
    have hclose := hinner.right (b := a + 1 + headSize head + body.size) (by rw [body.length_layouts])
    have hdone := (hclose.right (b := a + 1 + headSize head + body.size + tailSize tail)
      (by rw [length_tailLayouts])).first
    rw [Stmt.size] at hb
    rw [show b = a + 1 + headSize head + body.size + tailSize tail + 1 by omega] at hend
    have hafter := start_tail hclose.left
    have hstart := body.start hinner.left hafter
    -- the loop goes back to its head, where the stack has to be as it was the first time
    have hagain := start_head h.tail.left hstart
    refine checked_iff.2 (eachAt_guardLoop.2 ⟨?_, ?_, ?_⟩)
    · exact Checked.cons h.first ⟨.exit _, rfl, hagain⟩ (checked_head hR hhead h.tail.left hstart hdone)
    · exact body.checked hR ((.doLoop, _) :: loops) hbody ⟨hend, hexits⟩ hinner.left hafter rfl
    · exact (checked_tail hR htail hclose.left hdone hagain).append (.one hdone ⟨_, _, rfl, hend⟩) (by simp)
  | .exitLoop kind inner, a, b, p, inside, loops, hobeys, hexits, h, _, _ => by
    obtain ⟨hmem, rfl⟩ := hobeys
    -- the loops inside of the one that is left have their values on top, and the exit drops them
    obtain ⟨cells, behind, rest, hcells, hlength, hbehind⟩ := hexits.exists_exit hmem
    rw [Stmt.lines, instructionsOf_mark, ← hlength]
    refine checked_exit hbehind cells ?_
    rw [hlength, ← hcells]
    exact h
  | .exitRoutine, _, _, _, _, _, hobeys, _, h, _, _ => .one h.first ⟨hobeys, rfl⟩
  | .print e, a, b, p, inside, loops, hobeys, _, h, hend, hb => by
    subst hb
    have hprint := (h.right (b := a + printSize e) (by rw [length_printLayouts])).first
    rw [Stmt.lines, instructionsOf_mark]
    exact (checked_print hR hobeys h.left hprint).append (.one hprint ⟨_, rfl, hend⟩) (by simp)
  | .notify n, a, b, p, inside, loops, _, _, h, hend, hb => by
    subst hb
    exact .one h.first hend
  | .dialog d slots, a, b, p, inside, loops, hobeys, _, h, hend, hb => by
    have hopen := h.right (b := a + sizeOfSlots d.defaults slots) (by rw [length_layoutsOfSlots])
    rw [Stmt.lines, instructionsOf_mark]
    refine .append (b := a + sizeOfSlots d.defaults slots) (checked_slots hR slots hobeys h.left hopen.first) ?_
      (by rw [length_codeOfSlots])
    rw [Stmt.size] at hb
    by_cases hd : d.answers = true
    · have hpop : L (a + sizeOfSlots d.defaults slots + 1) =
          some (.shaped (Shape.push .value (.amid inside loops))) := by
        have := hopen.tail
        rw [if_pos hd] at this
        exact this.first
      rw [if_pos hd] at hb ⊢
      rw [← hb] at hend
      refine .cons hopen.first ⟨_, rfl, ?_⟩ (.one hpop ⟨_, _, rfl, hend⟩)
      rw [if_pos hd]
      exact hpop
    · rw [if_neg hd] at hb ⊢
      rw [← hb] at hend
      refine .one hopen.first ⟨_, rfl, ?_⟩
      rw [if_neg hd]
      exact hend
  | .assign name none e, a, b, p, inside, loops, hobeys, _, h, hend, hb => by
    have hassign := (h.right (b := a + e.size) (by rw [e.length_layouts])).first
    rw [show b = a + e.size + 1 by simp [Stmt.size] at hb; omega] at hend
    rw [Stmt.lines, instructionsOf_mark]
    exact (e.checked hR hobeys.2 h.left hassign rfl).append (.one hassign ⟨hR.name _ hobeys.1, _, rfl, hend⟩) (by simp)
  | .assign name (some op) e, a, b, p, inside, loops, hobeys, _, h, hend, hb => by
    have hop := h.tail.right (b := a + 1 + e.size) (by rw [e.length_layouts])
    rw [show b = a + 1 + e.size + 1 + 1 by simp [Stmt.size] at hb; omega] at hend
    rw [Stmt.lines, instructionsOf_mark]
    refine .cons h.first (e.start h.tail.left) ?_
    refine .append (b := a + 1 + e.size) (e.checked hR hobeys.2 h.tail.left hop.first rfl) ?_ (by simp)
    exact .cons hop.first ⟨_, rfl, hop.tail.first⟩ (.one hop.tail.first ⟨hR.name _ hobeys.1, _, rfl, hend⟩)
  | .call r arguments, a, b, p, inside, loops, hobeys, _, h, hend, hb => by
    obtain ⟨hr, hlength, hargs⟩ := hobeys
    rw [Stmt.size] at hb
    rw [show b = a + 1 + sizeOfAll arguments + 2 * r.parameters.length + 2 by omega] at hend
    rw [Stmt.lines, instructionsOf_mark]
    exact checked_call hR hr hlength h (fun hready => checked_all hR arguments hargs h.tail.left hready) hend

theorem Block.checked (hR : Knows L R) : (block : Block) → ∀ {a b : Nat} {inside : Bool}
    (loops : List (Loop × Address)), block.Obeys R (loops.map Prod.fst) inside → Exits L inside loops →
    ListsAt L a (block.layouts a (.amid inside loops)) → L b = some (.shaped (.amid inside loops)) →
    a + block.size = b → Checked L a (instructionsOf (block.lines a))
  | .nil, _, _, _, _, _, _, _, _, _ => .nil
  | .cons p first rest, a, b, inside, loops, hobeys, hexits, h, hend, hb => by
    have hrest := h.right (b := a + first.size) (by rw [first.length_layouts])
    rw [Block.size] at hb
    rw [show b = a + first.size + rest.size by omega] at hend
    refine checked_iff.2 (eachAt_cons.2 ⟨?_, rest.checked hR loops hobeys.2 hexits hrest hend rfl⟩)
    exact first.checked hR loops hobeys.1 hexits h.left (rest.start hrest hend) rfl

end

end Statements

end MacroBasic
