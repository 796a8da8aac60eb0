/-
The host of a script: what the script asks of its surroundings and what it gets back. Every question
has its own kind of reply, and with any reply the host can ask for the run to be cancelled. A run learns
of such a request in no other way: one that comes from elsewhere while nothing is being asked, be it from
another thread or from the keyboard, is not part of this account.
-/
import MacroBasic.Instruction

namespace MacroBasic

/-- What a run asks of its host. -/
inductive Request where
  | print (text : String)
  | notify (n : Notice)
  /-- Show a message of the given kind. -/
  | message (kind : Int32) (text : String)
  /-- Let the user press one of some buttons. -/
  | msgBox (prompt : String) (buttons : Int32) (title : String)
  /-- Let the user enter a text. -/
  | inputBox (prompt title initial : String)
  /-- Take over an assignment to a name that no scope binds. -/
  | assign (name : String) (v : Value)
  /-- Give the value of a name that no scope binds. -/
  | retrieve (name : String)
  /-- Let the run go on although its time is over. -/
  | timeout
deriving BEq

namespace Request

/-- The kind of reply to a request. -/
def Reply : Request → Type
  | .print _ => Unit
  | .notify _ => Unit
  | .message _ _ => Unit
  | .msgBox _ _ _ => Int32
  | .inputBox _ _ _ => String
  | .assign _ _ => Bool
  | .retrieve _ => Option Value
  | .timeout => Bool

/-- The reply of a host that does not care: the first button has no number, the text stays as it was,
nothing is taken over, nothing is known, and time that is over is over. -/
def indifferent : (r : Request) → r.Reply
  | .print _ => ()
  | .notify _ => ()
  | .message _ _ => ()
  | .msgBox _ _ _ => (0 : Int32)
  | .inputBox _ _ initial => initial
  | .assign _ _ => false
  | .retrieve _ => none
  | .timeout => false

end Request

/-- The answer to a request. -/
structure Answer (r : Request) where
  reply : r.Reply
  /-- Whether the run is to be cancelled. -/
  cancel : Bool := false

/-- A host whose answers are actions of `m`. -/
structure Host (m : Type → Type) where
  ask : (r : Request) → m (Answer r)
  /-- The time in nanoseconds since some moment. -/
  clock : m Nat

/-- The host that does not care, with a given clock. -/
def Host.indifferent {m : Type → Type} [Monad m] (clock : m Nat) : Host m where
  ask r := pure ⟨r.indifferent, false⟩
  clock := clock

end MacroBasic
