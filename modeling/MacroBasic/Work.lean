/-
Operations on a state that may fault. What an operation has done to the state before it faults stays
done, so a fault in the middle of two steps leaves the first one visible.
-/
import MacroBasic.Fault

namespace MacroBasic

/-- An operation on states of type `σ` that gives an `α` or faults, and leaves a state either way. -/
abbrev Work (σ α : Type) := EStateM Fault σ α

namespace Work

/-- An operation on a part of the state, where `get` finds the part and `set` puts it back. -/
def within {σ τ α : Type} (get : σ → τ) (set : τ → σ → σ) (w : Work τ α) : Work σ α := fun s =>
  match w (get s) with
  | .ok a t => .ok a (set t s)
  | .error f t => .error f (set t s)

/-- A result that does not depend on the state. -/
def ofExcept {σ α : Type} : Except Fault α → Work σ α
  | .ok a => fun s => .ok a s
  | .error f => fun s => .error f s

end Work

end MacroBasic
