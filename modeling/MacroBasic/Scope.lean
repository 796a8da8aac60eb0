/-
A scope: named bindings in the order of their first allocation, and a stack of values without names.
Allocating a name again replaces its binding in place.
-/
import MacroBasic.Binding
import MacroBasic.Stack

namespace MacroBasic

/-- One frame of bindings and values. -/
structure Scope where
  names : List Binding := []
  stack : Stack Value := .empty

namespace Scope

/-- The scope that holds nothing. -/
def empty : Scope := {}

/-- Bindings with one more; an earlier binding of the same name gives up its place to it. -/
def put (b : Binding) : List Binding → List Binding
  | [] => [b]
  | first :: rest => if first.name = b.name then b :: rest else first :: put b rest

theorem mem_put {b x : Binding} {l : List Binding} (h : x ∈ put b l) : x = b ∨ x ∈ l := by
  induction l with
  | nil => exact .inl (List.mem_singleton.1 h)
  | cons first rest ih =>
    unfold put at h
    split at h
    · rcases List.mem_cons.1 h with hx | hx
      · exact .inl hx
      · exact .inr (List.mem_cons_of_mem _ hx)
    · rcases List.mem_cons.1 h with hx | hx
      · exact .inr (List.mem_cons.2 (.inl hx))
      · exact (ih hx).imp id (List.mem_cons_of_mem _)

/-- Bindings with the value of a name changed, if the name is bound. -/
def replace? (name : String) (v : Value) : List Binding → Option (List Binding)
  | [] => none
  | first :: rest =>
    if first.name = name then some ({ first with value := v } :: rest)
    else (replace? name v rest).map (first :: ·)

theorem mem_replace? {name : String} {v : Value} {b : Binding} {l l' : List Binding}
    (h : replace? name v l = some l') (hb : b ∈ l') : b ∈ l ∨ b.value = v := by
  induction l generalizing l' with
  | nil => cases h
  | cons first rest ih =>
    unfold replace? at h
    split at h
    · cases h
      rcases List.mem_cons.1 hb with rfl | hb
      · exact .inr rfl
      · exact .inl (List.mem_cons_of_mem _ hb)
    · obtain ⟨rest', hrest, rfl⟩ := Option.map_eq_some_iff.1 h
      rcases List.mem_cons.1 hb with rfl | hb
      · exact .inl (List.mem_cons_self ..)
      · exact (ih hrest hb).imp_left (List.mem_cons_of_mem _)

/-- Binds a name. -/
def allocate (b : Binding) (s : Scope) : Scope := { s with names := put b s.names }

/-- The binding of a name. -/
def get? (name : String) (s : Scope) : Option Binding := s.names.find? (·.name == name)

theorem get?_allocate_self (b : Binding) (s : Scope) : (s.allocate b).get? b.name = some b := by
  unfold get? allocate
  simp only
  induction s.names with
  | nil => simp [put]
  | cons first rest ih =>
    unfold put
    by_cases h : first.name = b.name
    · simp [h]
    · rw [if_neg h, List.find?_cons_of_neg (by simpa using h)]
      exact ih

theorem get?_allocate_of_ne {b : Binding} {name : String} (hb : b.name ≠ name) (s : Scope) :
    (s.allocate b).get? name = s.get? name := by
  unfold get? allocate
  simp only
  induction s.names with
  | nil => exact List.find?_cons_of_neg (by simpa using hb)
  | cons first rest ih =>
    unfold put
    by_cases h : first.name = b.name
    · rw [if_pos h, List.find?_cons_of_neg (by simpa using hb),
        List.find?_cons_of_neg (by rw [h]; simpa using hb)]
    · rw [if_neg h, List.find?_cons, List.find?_cons, ih]

/-- Whether a name is bound. -/
def contains (name : String) (s : Scope) : Bool := (s.get? name).isSome

/-- Changes the value of a name, if it is bound. -/
def assign? (name : String) (v : Value) (s : Scope) : Option Scope :=
  (replace? name v s.names).map fun names => { s with names := names }

/-- Drops all bindings and values. -/
def clear (s : Scope) : Scope where
  stack := s.stack.clear

/-- The same names and kinds, with no values. -/
def unbound (s : Scope) : Scope where
  names := s.names.map fun b => { b with value := .uninitialized }

/-- An operation on the values of a scope. -/
def values {α : Type} (w : Work (Stack Value) α) : Work Scope α :=
  w.within Scope.stack fun stack s => { s with stack := stack }

/-- A scope as a listing shows it. -/
def inspect (s : Scope) : String :=
  let names := s.names.map fun b => Text.quoted b.name ++ ": " ++ b.inspect
  "Scope \x7b names: \x7b" ++ ", ".intercalate names ++ "\x7d, stack: " ++
    s.stack.inspect Value.inspect ++ " \x7d"

end Scope

end MacroBasic
