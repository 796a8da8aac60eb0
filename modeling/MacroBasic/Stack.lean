/-
Stacks of limited size. Taking from an empty stack is a fault of the program that does it, and so is
pushing onto a full one.
-/
import MacroBasic.Work

namespace MacroBasic

/-- A stack. The number of items is kept beside them. -/
structure Stack (α : Type) where
  /-- The items, the top one first. -/
  items : List α := []
  /-- How many items there are. -/
  size : Nat := items.length
  size_eq : size = items.length := by rfl
  /-- What the fault of pushing onto a full stack reports. -/
  whenFull : String := "STACK OVERFLOW"

namespace Stack

variable {α : Type}

/-- The most items a stack can hold. -/
def limit : Nat := 65535

/-- The stack without items. -/
def empty : Stack α := {}

/-- Two stacks are equal when their items and their reports are. -/
theorem eq_of_items {s t : Stack α} (h : s.items = t.items) (h' : s.whenFull = t.whenFull) : s = t := by
  cases s with
  | mk items size size_eq whenFull =>
    cases t with
    | mk items' size' size_eq' whenFull' =>
      simp only at h h'
      subst h h' size_eq size_eq'
      rfl

/-- Whether there are no items. -/
def isEmpty (s : Stack α) : Bool := s.items.isEmpty

/-- The items from the bottom to the top. -/
def toList (s : Stack α) : List α := s.items.reverse

/-- The same stack with no items. -/
def clear (s : Stack α) : Stack α := { whenFull := s.whenFull }

/-- The fault of reaching below the bottom. -/
def underflow : Fault := .because .internal "STACK UNDERFLOW"

/-- The stack with one item more. -/
def cons (a : α) (s : Stack α) : Stack α where
  items := a :: s.items
  size := s.size + 1
  size_eq := by rw [s.size_eq, List.length_cons]
  whenFull := s.whenFull

/-- Puts an item on top. -/
def push (a : α) : Work (Stack α) Unit := fun s =>
  if limit ≤ s.size then .error (.because .internal s.whenFull) s else .ok () (s.cons a)

/-- Takes the top item. -/
def pop : Work (Stack α) α := fun s =>
  match s with
  | { items := [], .. } => .error underflow s
  | { items := a :: rest, size := size, size_eq := h, whenFull := m } =>
    .ok a ⟨rest, size - 1, by rw [h, List.length_cons, Nat.add_sub_cancel], m⟩

/-- Takes the two top items and gives the lower one first. -/
def pop2 : Work (Stack α) (α × α) := do
  let second ← pop
  let first ← pop
  return (first, second)

/-- The item `depth` places below the top. -/
def peek (depth : Nat) : Work (Stack α) α := fun s =>
  match s.items[depth]? with
  | some a => .ok a s
  | none => .error underflow s

/-- A stack as a listing shows it, from the bottom to the top. -/
def inspect (render : α → String) (s : Stack α) : String :=
  "[" ++ ", ".intercalate (s.toList.map render) ++ "]"

end Stack

end MacroBasic
