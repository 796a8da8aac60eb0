/-
A chain of scopes. Names are looked up from the innermost scope outwards and the first match wins;
new names and all values without names belong to the innermost scope. There is always at least one
scope, and there is a limit to their number.
-/
import MacroBasic.Scope

namespace MacroBasic

/-- A chain of scopes. The number of scopes is kept beside them. -/
structure Scopes where
  /-- The innermost scope. -/
  top : Scope := .empty
  /-- The scopes around it, the nearest one first. -/
  below : List Scope := []
  /-- How many scopes there are. -/
  depth : Nat := below.length + 1
  depth_eq : depth = below.length + 1 := by rfl

namespace Scopes

/-- The most scopes a chain can have. -/
def limit : Nat := 65535

/-- A chain of one scope that holds nothing. -/
def empty : Scopes := {}

/-- The given scope, with a new one inside it. -/
def onBottom (bottom : Scope) : Scopes where
  below := [bottom]

/-- All scopes, the innermost one first. -/
def frames (s : Scopes) : List Scope := s.top :: s.below

/-- The outermost scope. -/
def bottom (s : Scopes) : Scope := s.below.getLastD s.top

/-! ## Names -/

/-- Binds a name in the innermost scope. -/
def allocate (b : Binding) (s : Scopes) : Scopes := { s with top := s.top.allocate b }

/-- The nearest binding of a name. -/
def get? (name : String) (s : Scopes) : Option Binding := s.frames.findSome? (·.get? name)

/-- The binding of a name in the innermost scope. -/
def getTop? (name : String) (s : Scopes) : Option Binding := s.top.get? name

/-- Changes the value of a name in the first of some scopes that binds it. -/
def assignFirst? (name : String) (v : Value) : List Scope → Option (List Scope)
  | [] => none
  | first :: rest =>
    match first.assign? name v with
    | some first => some (first :: rest)
    | none => (assignFirst? name v rest).map (first :: ·)

theorem assignFirst?_length {name : String} {v : Value} {l l' : List Scope}
    (h : assignFirst? name v l = some l') : l'.length = l.length := by
  induction l generalizing l' with
  | nil => simp [assignFirst?] at h
  | cons first rest ih =>
    unfold assignFirst? at h
    split at h
    · simp only [Option.some.injEq] at h; rw [← h]; rfl
    · obtain ⟨r, hr, rfl⟩ := Option.map_eq_some_iff.1 h
      simp [ih hr]

/-- The scopes in which a name has been given a value hold old bindings and bindings of that value. -/
theorem mem_assignFirst? {name : String} {v : Value} {l l' : List Scope} {f : Scope} {b : Binding}
    (h : assignFirst? name v l = some l') (hf : f ∈ l') (hb : b ∈ f.names) :
    (∃ f' ∈ l, b ∈ f'.names) ∨ b.value = v := by
  induction l generalizing l' with
  | nil => cases h
  | cons first rest ih =>
    unfold assignFirst? at h
    split at h
    · rename_i first' hfirst
      cases h
      obtain ⟨names, hnames, rfl⟩ := Option.map_eq_some_iff.1 hfirst
      rcases List.mem_cons.1 hf with rfl | hf
      · exact (Scope.mem_replace? hnames hb).imp_left fun hold => ⟨first, List.mem_cons_self .., hold⟩
      · exact .inl ⟨f, List.mem_cons_of_mem _ hf, hb⟩
    · obtain ⟨rest', hrest, rfl⟩ := Option.map_eq_some_iff.1 h
      rcases List.mem_cons.1 hf with rfl | hf
      · exact .inl ⟨f, List.mem_cons_self .., hb⟩
      · refine (ih hrest hf).imp_left ?_
        rintro ⟨f', hf', hold⟩
        exact ⟨f', List.mem_cons_of_mem _ hf', hold⟩

/-- Changes the value of the nearest binding of a name, if there is one. -/
def assign? (name : String) (v : Value) (s : Scopes) : Option Scopes :=
  match s.top.assign? name v with
  | some top => some { s with top := top }
  | none =>
    match h : assignFirst? name v s.below with
    | some below => some ⟨s.top, below, s.depth, by rw [s.depth_eq, assignFirst?_length h]⟩
    | none => none

/-! ## Scopes and values -/

/-- Enters a new scope. -/
def pushScope : Work Scopes Unit := fun s =>
  if limit ≤ s.depth then
    .error (.because .stackOverflow s!"Call depth exceeds {limit} frames") s
  else .ok () ⟨.empty, s.top :: s.below, s.depth + 1, by rw [s.depth_eq, List.length_cons]⟩

/-- Leaves the innermost scope and gives it. -/
def popScope : Work Scopes Scope := fun s =>
  match s with
  | { below := [], .. } => .error (.because .internal "SCOPE UNDERFLOW") s
  | { top := top, below := next :: rest, depth := depth, depth_eq := h } =>
    .ok top ⟨next, rest, depth - 1, by rw [h, List.length_cons, Nat.add_sub_cancel]⟩

/-- An operation on the values of the innermost scope. -/
def values {α : Type} (w : Work (Stack Value) α) : Work Scopes α :=
  (Scope.values w).within Scopes.top fun top s => { s with top := top }

/-- Puts a value on the stack of the innermost scope. -/
def push (v : Value) : Work Scopes Unit := values (Stack.push v)

/-- Takes the top value of the innermost scope. -/
def pop : Work Scopes Value := values Stack.pop

/-- Takes the two top values of the innermost scope and gives the lower one first. -/
def pop2 : Work Scopes (Value × Value) := values Stack.pop2

/-- The value `depth` places below the top of the innermost scope. -/
def peek (depth : Nat) : Work Scopes Value := values (Stack.peek depth)

end Scopes

end MacroBasic
