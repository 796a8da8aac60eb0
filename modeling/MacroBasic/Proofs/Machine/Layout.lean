/-
Layouts of the value stacks. A table gives for each address what the stacks hold when a run comes to it: the
innermost scope, and the scopes that wait for calls which are being prepared. Where every instruction fits the
layouts in the table, a run never reaches below the bottom of a stack, leaves every loop for the address behind
it, and returns from every routine to where it was called.
-/
import MacroBasic.Grammar.Assembly
import MacroBasic.Proofs.Machine.Code
import MacroBasic.Proofs.Value.Calculation

namespace MacroBasic

namespace Machine

/-! ## Layouts -/

/-- What is known about a place on a value stack: that there is a value, or that it is the address behind a
loop. -/
inductive Cell where
  | value
  | exit (a : Address)

/-- Whether a value can stand at a place. -/
def Cell.Admits : Cell → Value → Prop
  | .value, _ => True
  | .exit a, v => v = .address a

/-- What the stacks of one activation hold, the top value first. -/
structure Shape where
  /-- Whether it is the activation of a routine. -/
  inside : Bool
  /-- The places on the stack of the innermost scope. -/
  cells : List Cell
  /-- Those of the scopes that wait for calls, the nearest one first. -/
  waiting : List (List Cell)

namespace Shape

/-- A script between two statements outside of loops. -/
def script : Shape := ⟨false, [], []⟩

/-- A routine between two statements outside of loops. -/
def routine : Shape := ⟨true, [], []⟩

/-- One place more. -/
def push (c : Cell) (s : Shape) : Shape := { s with cells := c :: s.cells }

/-- So many values more. -/
def values : Nat → Shape → Shape
  | 0, s => s
  | n + 1, s => (s.values n).push .value

/-- A new scope for a call. -/
def enter (s : Shape) : Shape := ⟨s.inside, [], s.cells :: s.waiting⟩

end Shape

/-- What the stacks hold at an address: a shape, or anything in the scope of a call that has returned and
otherwise the given shape. -/
inductive Layout where
  | shaped (s : Shape)
  | returned (s : Shape)

section Fits

variable (L : Address → Option Layout) (a : Address)

/-- An instruction at an address finds what it needs, and where it leads the table has the shape that it
leaves. -/
def Shape.Fits (s : Shape) : Instruction → Prop
  | .allocConst name _ | .allocVar name => name ≠ returnName ∧ L (a + 1) = some (.shaped s)
  | .pushValue v => ∃ c : Cell, c.Admits v ∧ L (a + 1) = some (.shaped (s.push c))
  | .pushVariable _ => L (a + 1) = some (.shaped (s.push .value))
  | .pop => ∃ (c : Cell) (s' : Shape), s = s'.push c ∧ L (a + 1) = some (.shaped s')
  | .copy depth => depth < s.cells.length ∧ L (a + 1) = some (.shaped (s.push .value))
  | .assign name => name ≠ returnName ∧ ∃ s' : Shape, s = s'.push .value ∧ L (a + 1) = some (.shaped s')
  | .binary _ => ∃ s' : Shape, s = s'.values 2 ∧ L (a + 1) = some (.shaped (s'.push .value))
  | .unary _ => ∃ s' : Shape, s = s'.push .value ∧ L (a + 1) = some (.shaped s)
  | .print => ∃ s' : Shape, s = s'.push .value ∧ L (a + 1) = some (.shaped s')
  | .notify _ => L (a + 1) = some (.shaped s)
  | .dialog d => ∃ s' : Shape, s = s'.values d.defaults.length ∧
    L (a + 1) = some (.shaped (if d.answers then s'.push .value else s'))
  | .jump b => L b = some (.shaped s)
  | .jumpTrue b | .jumpFalse b => ∃ s' : Shape, s = s'.push .value ∧ L (a + 1) = some (.shaped s') ∧
    L b = some (.shaped s')
  | .jumpPop => ∃ (b : Address) (s' : Shape), s = s'.push (.exit b) ∧ L b = some (.shaped s')
  | .pushScope => L (a + 1) = some (.shaped s.enter)
  | .popScope => False
  | .call b => ∃ s' : Shape, s = s'.enter ∧ L b = some (.shaped .routine) ∧ L (a + 1) = some (.returned s')
  | .ret => s.inside = true ∧ s.waiting = []

/-- The same for any layout: only leaving the scope of a call needs nothing of it. -/
def Layout.Fits : Layout → Instruction → Prop
  | .shaped s, i => s.Fits L a i
  | .returned s, i => i = .popScope ∧ L (a + 1) = some (.shaped s)

/-- The instructions at an address fit the layouts in the table. -/
def Checked (code : List Instruction) : Prop :=
  ∀ i x, code[i]? = some x → ∃ l, L (a + i) = some l ∧ l.Fits L (a + i) x

end Fits

section Checked

variable {L : Address → Option Layout} {a : Address} {code code' : List Instruction} {i : Instruction} {l : Layout}

theorem Checked.nil : Checked L a [] := nofun

theorem Checked.cons (hl : L a = some l) (h : l.Fits L a i) (hrest : Checked L (a + 1) code) :
    Checked L a (i :: code) := by
  intro n x hx
  cases n with
  | zero => cases hx; exact ⟨l, hl, h⟩
  | succ n =>
    obtain ⟨l', hl', h'⟩ := hrest n x hx
    rw [Nat.add_assoc, Nat.add_comm 1 n] at hl' h'
    exact ⟨l', hl', h'⟩

theorem Checked.one (hl : L a = some l) (h : l.Fits L a i) : Checked L a [i] := .cons hl h .nil

theorem Checked.append {b : Address} (h : Checked L a code) (h' : Checked L b code')
    (hb : @Eq Nat (a + code.length) b) : Checked L a (code ++ code') := by
  subst hb
  intro n x hx
  rcases Nat.lt_or_ge n code.length with hn | hn
  · rw [List.getElem?_append_left hn] at hx
    exact h n x hx
  · rw [List.getElem?_append_right hn] at hx
    obtain ⟨l', hl', hfits⟩ := h' (n - code.length) x hx
    rw [Nat.add_assoc, Nat.add_sub_cancel' hn] at hl' hfits
    exact ⟨l', hl', hfits⟩

end Checked

/-! ## Stacks that are as the layouts say -/

/-- The values of a stack can stand at the given places. -/
def Holds : List Cell → List Value → Prop
  | [], [] => True
  | c :: cells, v :: values => c.Admits v ∧ Holds cells values
  | _, _ => False

section Stands

variable (L : Address → Option Layout)

/-- Where a scope says to return to. -/
def returnOf (scope : Scope) : Option Value := (scope.get? returnName).map Binding.value

/-- What stands around the innermost scope of an activation, given where that scope says to return to: the scopes
that wait in the activation, and below its outermost scope those of the activation it was called from, with the
shared scope at the very end. The outermost scope of a routine says where to return to; all these addresses are
listed. -/
inductive Around : Bool → List (List Cell) → Option Value → List Scope → List Address → Prop
  | script {back : Option Value} {shared : Scope} : Around false [] back [shared] []
  | routine {below : List Scope} {a : Address} {s : Shape} {calls : List Address} (hl : L a = some (.returned s))
      (h : Around s.inside (s.cells :: s.waiting) (some (.address a)) below calls) :
    Around true [] (some (.address a)) below (a :: calls)
  | waiting {inside : Bool} {cells : List Cell} {waiting : List (List Cell)} {back : Option Value} {next : Scope}
      {below : List Scope} {calls : List Address} (hnext : Holds cells next.stack.items)
      (h : Around inside waiting (returnOf next) below calls) :
    Around inside (cells :: waiting) back (next :: below) calls

/-- The scopes are as a shape says. -/
def Shape.Stands (s : Shape) (S : Scopes) (calls : List Address) : Prop :=
  Holds s.cells S.items ∧ Around L s.inside s.waiting (returnOf S.top) S.below calls

/-- The scopes are as a layout says. -/
def Layout.Stands : Layout → Scopes → List Address → Prop
  | .shaped s, S, calls => s.Stands L S calls
  | .returned s, S, calls => Around L s.inside (s.cells :: s.waiting) (returnOf S.top) S.below calls

/-- A configuration is as the layout in the table says. -/
def Laid (c : Config) (calls : List Address) : Prop := ∃ l, L c.pc = some l ∧ l.Stands L c.scopes calls

end Stands

section Stands

variable {L : Address → Option Layout} {s : Shape} {S : Scopes} {calls : List Address} {c : Cell} {v : Value}

theorem Holds.length_eq : ∀ {cells : List Cell} {values : List Value}, Holds cells values →
    values.length = cells.length
  | [], [], _ => rfl
  | _ :: _, _ :: _, h => congrArg (· + 1) (Holds.length_eq h.2)

theorem Shape.Stands.cons (h : s.Stands L S calls) (hc : c.Admits v) : (s.push c).Stands L (S.cons v) calls :=
  ⟨⟨hc, h.1⟩, h.2⟩

theorem Shape.Stands.uncons (h : (s.push c).Stands L S calls) :
    ∃ v S', S = S'.cons v ∧ c.Admits v ∧ s.Stands L S' calls := by
  obtain ⟨hitems, haround⟩ := h
  cases hs : S.items with
  | nil => rw [hs] at hitems; cases hitems
  | cons v rest =>
    obtain ⟨S', rfl, rfl⟩ := S.exists_cons hs
    exact ⟨v, S', rfl, hitems.1, hitems.2, haround⟩

/-! ## Names -/

theorem returnOf_allocate (a : Address) (scope : Scope) :
    returnOf (scope.allocate { name := returnName, kind := .constant, value := .address a }) = some (.address a) :=
  congrArg (Option.map Binding.value)
    (Scope.get?_allocate_self { name := returnName, kind := .constant, value := .address a } scope)

theorem find?_replace?_of_ne {name other : String} (hname : name ≠ other) {v : Value} :
    ∀ {names names' : List Binding}, Scope.replace? name v names = some names' →
      names'.find? (·.name == other) = names.find? (·.name == other)
  | [], _, h => nomatch h
  | first :: rest, names', h => by
    unfold Scope.replace? at h
    by_cases hfirst : first.name = name
    · rw [if_pos hfirst] at h
      cases h
      have hne : ¬ first.name = other := by rw [hfirst]; exact hname
      rw [List.find?_cons_of_neg (by simpa using hne), List.find?_cons_of_neg (by simpa using hne)]
    · rw [if_neg hfirst] at h
      obtain ⟨rest', hrest, rfl⟩ := Option.map_eq_some_iff.1 h
      rw [List.find?_cons, List.find?_cons, find?_replace?_of_ne hname hrest]

/-- Giving a name a value changes no stack and no return address. -/
theorem assign?_frame {name : String} (hname : name ≠ returnName) {v : Value} {scope scope' : Scope}
    (h : scope.assign? name v = some scope') :
    scope'.stack = scope.stack ∧ returnOf scope' = returnOf scope := by
  obtain ⟨names, hnames, rfl⟩ := Option.map_eq_some_iff.1 h
  exact ⟨rfl, congrArg (Option.map Binding.value) (find?_replace?_of_ne hname hnames)⟩

theorem Around.assignFirst? {name : String} (hname : name ≠ returnName) {v : Value} {inside : Bool}
    {waiting : List (List Cell)} {back : Option Value} {below below' : List Scope}
    (h : Around L inside waiting back below calls) (ha : Scopes.assignFirst? name v below = some below') :
    Around L inside waiting back below' calls := by
  induction h generalizing below' with
  | script =>
    have hlength := Scopes.assignFirst?_length ha
    obtain ⟨shared', rfl⟩ := List.length_eq_one_iff.1 hlength
    exact .script
  | routine hl h ih => exact .routine hl (ih ha)
  | waiting hnext h ih =>
    unfold Scopes.assignFirst? at ha
    split at ha
    · cases ha
      obtain ⟨hstack, hback⟩ := assign?_frame hname (by assumption)
      exact .waiting (by rw [hstack]; exact hnext) (by rw [hback]; exact h)
    · obtain ⟨below'', hbelow, rfl⟩ := Option.map_eq_some_iff.1 ha
      exact .waiting hnext (ih hbelow)

theorem Shape.Stands.allocate {b : Binding} (hb : b.name ≠ returnName) (h : s.Stands L S calls) :
    s.Stands L (S.allocate b) calls := by
  refine ⟨h.1, ?_⟩
  have hback : returnOf (S.allocate b).top = returnOf S.top :=
    congrArg (Option.map Binding.value) (Scope.get?_allocate_of_ne hb S.top)
  rw [hback]
  exact h.2

theorem Shape.Stands.assign {name : String} (hname : name ≠ returnName) (v : Value) (h : s.Stands L S calls) :
    s.Stands L ((S.assign? name v).getD S) calls := by
  cases hs : S.assign? name v with
  | none => exact h
  | some S' =>
    unfold Scopes.assign? at hs
    split at hs
    · rename_i top htop
      cases hs
      obtain ⟨hstack, hback⟩ := assign?_frame hname htop
      refine ⟨?_, ?_⟩
      · show Holds s.cells top.stack.items
        rw [hstack]
        exact h.1
      · show Around L s.inside s.waiting (returnOf top) S.below calls
        rw [hback]
        exact h.2
    · split at hs
      · cases hs
        exact ⟨h.1, h.2.assignFirst? hname (by assumption)⟩
      · cases hs

end Stands

/-! ## One instruction -/

/-- The addresses that the activations are to return to after an instruction, the innermost one first. -/
def track (pc : Address) (calls : List Address) : Instruction → List Address
  | .call _ => (pc + 1) :: calls
  | .ret => calls.tail
  | _ => calls

/-- A fault is internal only if it is that of a full stack. -/
def OnlyOverflow (e : Fault × Scopes) : Prop := e.1.code = .internal → e.2.Full ∧ e.1 = e.2.overflow

theorem onlyOverflow_of_ne {f : Fault} {S : Scopes} (h : f.code ≠ .internal) : OnlyOverflow (f, S) :=
  fun hf => absurd hf h

theorem onlyOverflow_calculation {α : Type} {x : Except Fault α} {f : Fault} (hx : Calculates x) (h : x = .error f)
    (role : String) (i : Instruction) (S : Scopes) : OnlyOverflow (calculationFault role i f, S) :=
  onlyOverflow_of_ne (by rw [code_calculationFault hx h]; decide)

section Step

variable {L : Address → Option Layout} {ui : Bool} {pc : Address} {s : Shape} {S : Scopes} {calls : List Address}
  {i : Instruction}

theorem Laid.shaped {c : Config} (hl : L c.pc = some (.shaped s)) (hS : s.Stands L c.scopes calls) : Laid L c calls :=
  ⟨_, hl, hS⟩

theorem ensures_pushing {v : Value} {a : Address} {c : Cell} (hS : s.Stands L S calls)
    (hl : L a = some (.shaped (s.push c))) (hc : c.Admits v) :
    (pushing v a S).Ensures (Laid L · calls) OnlyOverflow := by
  unfold pushing
  by_cases hfull : S.Full
  · rw [if_pos hfull]
    exact Talk.ensures_fail fun _ => ⟨hfull, rfl⟩
  · rw [if_neg hfull]
    exact Talk.ensures_done ⟨_, hl, hS.cons hc⟩

/-- Below the scope of a call is one that waits for it. -/
theorem Around.next {inside : Bool} {cells : List Cell} {waiting : List (List Cell)} {back : Option Value}
    {below : List Scope} (h : Around L inside (cells :: waiting) back below calls) :
    ∃ next rest, below = next :: rest ∧ Holds cells next.stack.items ∧
      Around L inside waiting (returnOf next) rest calls := by
  cases h with
  | waiting hnext h => exact ⟨_, _, rfl, hnext, h⟩

/-- A routine between two statements knows where it was called. -/
theorem Shape.Stands.returns (h : s.Stands L S calls) (hs : s.inside = true ∧ s.waiting = []) :
    ∃ a s' calls', returnOf S.top = some (.address a) ∧ calls = a :: calls' ∧ L a = some (.returned s') ∧
      Around L s'.inside (s'.cells :: s'.waiting) (some (.address a)) S.below calls' := by
  have haround := h.2
  rw [hs.1, hs.2] at haround
  generalize hback : returnOf S.top = back at haround
  cases haround with
  | routine hl hcaller => exact ⟨_, _, _, rfl, rfl, hl, hcaller⟩

theorem get?_of_returnOf {v : Value} (h : returnOf S.top = some v) :
    (S.get? returnName).map Binding.value = some v := by
  obtain ⟨b, hb, rfl⟩ := Option.map_eq_some_iff.1 h
  unfold Scopes.get? Scopes.frames
  rw [List.findSome?_cons, hb]
  rfl

theorem dialog_advance {d : Dialog} (h : s.Fits L pc (.dialog d)) (hS : s.Stands L S calls) :
    (advance ui (.dialog d) ⟨pc, S⟩).Ensures (Laid L · calls) OnlyOverflow := by
  obtain ⟨s', rfl, hl⟩ := h
  cases d with
  | message =>
    obtain ⟨text, S₁, rfl, _, hS₁⟩ := hS.uncons
    obtain ⟨kind, S', rfl, _, hS'⟩ := hS₁.uncons
    rw [advance_message]
    cases hk : kind.toInteger with
    | ok n => exact Talk.ensures_ask fun _ => Talk.ensures_done (.shaped hl hS')
    | error f => exact Talk.ensures_fail (onlyOverflow_calculation kind.toInteger_calculates hk _ _ _)
  | msgBox =>
    obtain ⟨title, S₁, rfl, _, hS₁⟩ := hS.uncons
    obtain ⟨buttons, S₂, rfl, _, hS₂⟩ := hS₁.uncons
    obtain ⟨prompt, S', rfl, _, hS'⟩ := hS₂.uncons
    cases ui with
    | false =>
      rw [advance_dialog_refused _ _ (d := .msgBox) nofun]
      exact Talk.ensures_fail (onlyOverflow_of_ne nofun)
    | true =>
      rw [advance_msgBox]
      cases hb : buttons.toInteger with
      | ok n => exact Talk.ensures_ask fun _ => ensures_pushing hS' hl trivial
      | error f => exact Talk.ensures_fail (onlyOverflow_calculation buttons.toInteger_calculates hb _ _ _)
  | inputBox =>
    obtain ⟨initial, S₁, rfl, _, hS₁⟩ := hS.uncons
    obtain ⟨title, S₂, rfl, _, hS₂⟩ := hS₁.uncons
    obtain ⟨prompt, S', rfl, _, hS'⟩ := hS₂.uncons
    cases ui with
    | false =>
      rw [advance_dialog_refused _ _ (d := .inputBox) nofun]
      exact Talk.ensures_fail (onlyOverflow_of_ne nofun)
    | true =>
      rw [advance_inputBox]
      exact Talk.ensures_ask fun _ => ensures_pushing hS' hl trivial

/-- An instruction that fits a shape leads from scopes of that shape to where the table says so, and its faults
are internal only where a stack is full. -/
theorem Shape.Fits.advance (h : s.Fits L pc i) (hS : s.Stands L S calls) :
    (advance ui i ⟨pc, S⟩).Ensures (Laid L · (track pc calls i)) OnlyOverflow := by
  cases i with
  | allocConst name v =>
    rw [advance_allocConst]
    exact Talk.ensures_done (.shaped h.2 (hS.allocate h.1))
  | allocVar name =>
    rw [advance_allocVar]
    exact Talk.ensures_done (.shaped h.2 (hS.allocate h.1))
  | pushValue v =>
    obtain ⟨c, hc, hl⟩ := h
    rw [advance_pushValue]
    exact ensures_pushing hS hl hc
  | pushVariable name =>
    cases hb : S.get? name with
    | some b =>
      rw [advance_pushVariable_bound _ _ _ hb]
      by_cases hu : b.value.isUninitialized = true
      · rw [if_pos hu]
        exact Talk.ensures_fail (onlyOverflow_of_ne nofun)
      · rw [if_neg hu]
        exact ensures_pushing hS h trivial
    | none =>
      rw [advance_pushVariable_unbound _ _ _ hb]
      refine Talk.ensures_ask fun reply => ?_
      cases reply with
      | some v => exact ensures_pushing hS h trivial
      | none => exact Talk.ensures_fail (onlyOverflow_of_ne nofun)
  | pop =>
    obtain ⟨c, s', rfl, hl⟩ := h
    obtain ⟨v, S', rfl, _, hS'⟩ := hS.uncons
    rw [advance_pop]
    exact Talk.ensures_done (.shaped hl hS')
  | copy depth =>
    have hdepth : depth < S.items.length := by rw [hS.1.length_eq]; exact h.1
    rw [advance_copy _ _ (List.getElem?_eq_getElem hdepth)]
    exact ensures_pushing hS h.2 trivial
  | assign name =>
    obtain ⟨hname, s', rfl, hl⟩ := h
    obtain ⟨v, S', rfl, _, hS'⟩ := hS.uncons
    cases hb : S'.get? name with
    | some b =>
      rw [advance_assign_bound _ _ _ _ hb]
      by_cases hk : b.kind = .constant
      · rw [if_pos hk]
        exact Talk.ensures_fail (onlyOverflow_of_ne nofun)
      · rw [if_neg hk]
        -- a return address is bound under a name of its own, which no assignment reaches
        have hne : b.name ≠ returnName := by rw [Scopes.name_of_get? hb]; exact hname
        exact Talk.ensures_done (.shaped hl (hS'.assign hne v))
    | none =>
      rw [advance_assign_unbound _ _ _ _ hb]
      refine Talk.ensures_ask fun taken => Talk.ensures_done (.shaped hl ?_)
      cases (taken : Bool) with
      | true => exact hS'
      | false => exact hS'.allocate hname
  | binary op =>
    obtain ⟨s', rfl, hl⟩ := h
    obtain ⟨r, S₁, rfl, _, hS₁⟩ := hS.uncons
    obtain ⟨l, S', rfl, _, hS'⟩ := hS₁.uncons
    rw [advance_binary]
    cases hop : op.apply l r with
    | ok v => exact ensures_pushing hS' hl trivial
    | error f => exact Talk.ensures_fail (onlyOverflow_calculation (op.apply_calculates l r) hop _ _ _)
  | unary op =>
    obtain ⟨s', rfl, hl⟩ := h
    obtain ⟨v, S', rfl, _, hS'⟩ := hS.uncons
    rw [advance_unary]
    cases hop : op.apply v with
    | ok v' => exact ensures_pushing hS' hl trivial
    | error f => exact Talk.ensures_fail (onlyOverflow_calculation (op.apply_calculates v) hop _ _ _)
  | print =>
    obtain ⟨s', rfl, hl⟩ := h
    obtain ⟨v, S', rfl, _, hS'⟩ := hS.uncons
    rw [advance_print]
    exact Talk.ensures_ask fun _ => Talk.ensures_done (.shaped hl hS')
  | notify n =>
    rw [advance_notify]
    exact Talk.ensures_ask fun _ => Talk.ensures_done (.shaped h hS)
  | dialog d => exact dialog_advance h hS
  | jump b =>
    rw [advance_jump]
    exact Talk.ensures_done (.shaped h hS)
  | jumpTrue b =>
    obtain ⟨s', rfl, hnext, hb⟩ := h
    obtain ⟨v, S', rfl, _, hS'⟩ := hS.uncons
    rw [advance_jumpTrue]
    cases hv : v.toBoolean with
    | error f => exact Talk.ensures_fail (onlyOverflow_calculation v.toBoolean_calculates hv _ _ _)
    | ok taken =>
      refine Talk.ensures_done (.shaped ?_ hS')
      cases taken with
      | true => exact hb
      | false => exact hnext
  | jumpFalse b =>
    obtain ⟨s', rfl, hnext, hb⟩ := h
    obtain ⟨v, S', rfl, _, hS'⟩ := hS.uncons
    rw [advance_jumpFalse]
    cases hv : v.toBoolean with
    | error f => exact Talk.ensures_fail (onlyOverflow_calculation v.toBoolean_calculates hv _ _ _)
    | ok taken =>
      refine Talk.ensures_done (.shaped ?_ hS')
      cases taken with
      | true => exact hnext
      | false => exact hb
  | jumpPop =>
    obtain ⟨b, s', rfl, hl⟩ := h
    obtain ⟨v, S', rfl, hv, hS'⟩ := hS.uncons
    cases hv
    rw [advance_jumpPop]
    exact Talk.ensures_done (.shaped hl hS')
  | pushScope =>
    rw [advance_pushScope]
    by_cases hlimit : Scopes.limit ≤ S.depth
    · rw [if_pos hlimit]
      exact Talk.ensures_fail (onlyOverflow_of_ne nofun)
    · rw [if_neg hlimit]
      exact Talk.ensures_done (.shaped h ⟨trivial, .waiting hS.1 hS.2⟩)
  | popScope => exact h.elim
  | call b =>
    obtain ⟨s', rfl, hb, hl⟩ := h
    rw [advance_call]
    refine Talk.ensures_done (.shaped hb ⟨hS.1, ?_⟩)
    show Around L true [] (returnOf (S.top.allocate _)) S.below _
    rw [returnOf_allocate]
    obtain ⟨next, rest, hbelow, hnext, haround⟩ := hS.2.next
    rw [hbelow]
    exact .routine hl (.waiting hnext haround)
  | ret =>
    obtain ⟨a, s', calls', hback, rfl, hl, haround⟩ := hS.returns h
    rw [advance_ret _ _ _ (get?_of_returnOf hback)]
    refine Talk.ensures_done ⟨_, hl, ?_⟩
    show Around L _ _ (returnOf S.top) S.below calls'
    rw [hback]
    exact haround

theorem Layout.Fits.advance {l : Layout} (h : l.Fits L pc i) (hS : l.Stands L S calls) :
    (advance ui i ⟨pc, S⟩).Ensures (Laid L · (track pc calls i)) OnlyOverflow := by
  cases l with
  | shaped s => exact Shape.Fits.advance h hS
  | returned s =>
    obtain ⟨rfl, hl⟩ := h
    obtain ⟨top, below, depth, hdepth⟩ := S
    obtain ⟨next, rest, rfl, hnext, haround⟩ := Around.next hS
    rw [advance_popScope]
    exact Talk.ensures_done (.shaped hl ⟨hnext, haround⟩)

end Step

end Machine

end MacroBasic
