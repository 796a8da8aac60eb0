/-
What parsing knows besides the symbols ahead: the names that are visible, the rules in force, and what
the scan of the text ended with. Moving on to a symbol that could not be scanned is a fault, raised at
the moment of moving.
-/
import MacroBasic.Grammar.Tree
import MacroBasic.Scopes
import MacroBasic.Symbol.Scanner

namespace MacroBasic.Grammar

/-- The surroundings of a parse. -/
structure Context where
  /-- The names declared so far, in the scopes they are declared in. -/
  names : Scopes
  /-- Whether every name has to be declared before it is used. -/
  explicit : Bool
  /-- Whether names may be shared with the surroundings of the script. -/
  external : Bool
  /-- The end symbol of the text, or the fault that stopped its scan. -/
  ending : Except Fault Symbol

/-- A parse that gives an `α` and leaves fewer than `n` symbols. -/
structure Parsed (α : Type) (n : Nat) where
  value : α
  rest : List Symbol
  shorter : rest.length < n

/-- A parse that gives an `α` and leaves at most `n` symbols. -/
structure Passed (α : Type) (n : Nat) where
  value : α
  rest : List Symbol
  atMost : rest.length ≤ n

namespace Parsed

variable {α β : Type} {n : Nat}

/-- Passes one symbol. -/
def one (a : α) (sym : Symbol) (rest : List Symbol) : Parsed α (sym :: rest).length :=
  ⟨a, rest, Nat.lt_succ_self _⟩

/-- The same parse with another result. -/
def map (f : α → β) (p : Parsed α n) : Parsed β n := ⟨f p.value, p.rest, p.shorter⟩

/-- The same parse, of which it is forgotten that it passes a symbol. -/
def passed (p : Parsed α n) : Passed α n := ⟨p.value, p.rest, Nat.le_of_lt p.shorter⟩

end Parsed

namespace Passed

variable {α β : Type} {n : Nat}

/-- Passes no symbol. -/
def stay (a : α) (s : List Symbol) : Passed α s.length := ⟨a, s, Nat.le_refl _⟩

/-- The same parse with another result. -/
def map (f : α → β) (p : Passed α n) : Passed β n := ⟨f p.value, p.rest, p.atMost⟩

/-- A parse of the symbols behind `sym`, seen from in front of it. -/
def behind (sym : Symbol) {rest : List Symbol} (p : Passed α rest.length) :
    Passed α (sym :: rest).length := ⟨p.value, p.rest, Nat.le_succ_of_le p.atMost⟩

/-- A parse of the symbols behind `sym`, which is passed too. -/
def past (sym : Symbol) {rest : List Symbol} (p : Passed α rest.length) :
    Parsed α (sym :: rest).length := ⟨p.value, p.rest, Nat.lt_succ_of_le p.atMost⟩

/-- A parse that goes on from where at most `n` symbols were left. -/
def within {k : Nat} (h : k ≤ n) (p : Passed α k) : Passed α n :=
  ⟨p.value, p.rest, Nat.le_trans p.atMost h⟩

/-- A parse that goes on from where fewer than `n` symbols were left. -/
def inside {k : Nat} (h : k < n) (p : Passed α k) : Parsed α n :=
  ⟨p.value, p.rest, Nat.lt_of_le_of_lt p.atMost h⟩

end Passed

namespace Context

/-! ## Looking at symbols -/

/-- The symbol that stands for the end of the text. -/
def eof (env : Context) : Symbol :=
  match env.ending with
  | .ok s => s
  | .error _ => { token := .eof, text := "", position := .zero }

/-- The symbol that parsing stands at. -/
def current (env : Context) : List Symbol → Symbol
  | [] => env.eof
  | s :: _ => s

/-- The class of the symbol that parsing stands at. -/
def token (env : Context) (s : List Symbol) : Token := (env.current s).token

/-- Moves on to the symbols `rest`, which fails where the scan of the text did. -/
def arrive (env : Context) (rest : List Symbol) : Except Fault Unit :=
  match rest, env.ending with
  | [], .error f => .error f
  | _, _ => .ok ()

/-! ## Faults -/

/-- The fault of finding another symbol than the expected one. -/
def unexpected (env : Context) (s : List Symbol) (expected : String) : Fault :=
  let sym := env.current s
  let found :=
    if sym.token = .eof then "end of source"
    else if sym.isNewline then "end of line"
    else "'" ++ sym.text ++ "'"
  sym.fault .unexpectedSymbol s!"Expected: {expected}; found {found}"

/-- The fault of finding no operand of an expression. -/
def missingOperand (env : Context) (s : List Symbol) : Fault :=
  let sym := env.current s
  if sym.token = .eof then
    sym.fault .unexpectedSymbol "Identifier, function or '(' expected but end of source found"
  else env.unexpected s "expression"

/-- The fault of breaking a rule at the current symbol. -/
def violation (env : Context) (s : List Symbol) (message : String) : Fault :=
  (env.current s).fault .violation message

/-- The fault of declaring a name again where it is declared already. -/
def alreadyDeclared (sym : Symbol) (name : String) : Fault :=
  sym.fault .alreadyExists s!"Identifier '{name}' is already declared"

/-- The fault of calling what is no routine. -/
def unknownRoutine (sym : Symbol) : Fault :=
  sym.fault .unknownIdentifier s!"Function or sub '{sym.text}' is not declared"

/-- The fault of a call with the wrong number of arguments. -/
def wrongCount (sym : Symbol) (expected found : Nat) : Fault :=
  sym.fault .wrongNumberOfParameters
    s!"Wrong number of parameters in call to function '{sym.text}' ({expected} expected but {found} found)"

/-- The fault of an absent opening parenthesis. -/
def missingOpen (env : Context) (s : List Symbol) (place : String) : Fault :=
  (env.current s).fault .missingOpeningParenthesis s!"Missing opening parenthesis '(' {place}"

/-- The fault of an absent closing parenthesis. -/
def missingClose (env : Context) (s : List Symbol) (place : String) : Fault :=
  (env.current s).fault .missingClosingParenthesis s!"Missing closing parenthesis ')' {place}"

/-- The fault of an absent comma. -/
def missingComma (env : Context) (s : List Symbol) (place : String) : Fault :=
  (env.current s).fault .missingComma s!"Missing ',' {place}"

/-! ## Required symbols -/

/-- Passes a symbol of the given class, or raises the given fault. -/
def require (env : Context) (t : Token) (s : List Symbol) (otherwise : Fault) :
    Except Fault (Parsed Symbol s.length) :=
  match s with
  | [] => .error otherwise
  | sym :: rest =>
    if sym.token = t then do
      env.arrive rest
      return .one sym sym rest
    else .error otherwise

/-- Passes a closing parenthesis. -/
def requireClose (env : Context) (s : List Symbol) (place : String) :
    Except Fault (Parsed Symbol s.length) :=
  env.require .closeParen s (env.missingClose s place)

end Context

end MacroBasic.Grammar
