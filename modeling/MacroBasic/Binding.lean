/-
Bindings: what a name stands for.
-/
import MacroBasic.Value

namespace MacroBasic

/-- What kind of thing a name stands for. -/
inductive Kind where
  | constant
  | variable
  | function
  | sub
deriving DecidableEq, Repr

/-- The name of a kind. -/
def Kind.name : Kind → String
  | .constant => "constant"
  | .variable => "variable"
  | .function => "function"
  | .sub => "sub"

/-- A kind as a listing shows it. -/
def Kind.inspect : Kind → String
  | .constant => "Const"
  | .variable => "Variable"
  | .function => "Function"
  | .sub => "Sub"

/-- A name with its kind and value. A routine also has the address of its first instruction and the
names of its parameters. -/
structure Binding where
  name : String
  kind : Kind := .variable
  value : Value := .uninitialized
  address : Option Address := none
  parameters : List String := []

namespace Binding

/-- The binding of a routine. -/
def routine (name : String) (kind : Kind) (address : Address) (parameters : List String) : Binding where
  name := name
  kind := kind
  address := some address
  parameters := parameters

/-- Whether a binding is that of a function or a sub. -/
def isRoutine (b : Binding) : Bool := b.kind == .function || b.kind == .sub

/-- A binding as a listing shows it. -/
def inspect (b : Binding) : String :=
  let address := match b.address with
    | some a => s!"Some({a})"
    | none => "None"
  let parameters := ", ".intercalate (b.parameters.map Text.quoted)
  "Identifier \x7b name: " ++ Text.quoted b.name ++ ", value: " ++ b.value.inspect ++ ", kind: " ++
    b.kind.inspect ++ ", address: " ++ address ++ ", formal_parameters: [" ++ parameters ++ "] \x7d"

end Binding

end MacroBasic
