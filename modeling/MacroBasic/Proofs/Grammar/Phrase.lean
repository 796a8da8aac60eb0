/-
Expressions as they are written. A phrase is a tree that keeps what an expression tree forgets: the
parentheses, the plus signs, and whether a function without parameters is called with parentheses. It
can be spelled out as symbols again; it has a meaning where its names are visible; and it has code, in
which operands come before their operators and every branch is counted from the beginning of the phrase.
-/
import MacroBasic.Proofs.Grammar.Reading

namespace MacroBasic.Grammar

/-! ## Marks -/

/-- A symbol as far as an expression depends on it: its class, the value of a literal, the text of a
name. -/
inductive Mark where
  | plain (t : Token)
  | number (v : Value)
  | text (v : Value)
  | name (n : String)

/-- The mark of a symbol. -/
def mark (sym : Symbol) : Mark :=
  match sym.token with
  | .number => .number (sym.value.getD .uninitialized)
  | .string => .text (sym.value.getD .uninitialized)
  | .name => .name sym.text
  | t => .plain t

namespace Mark

def comma : Mark := .plain .comma
def openParen : Mark := .plain .openParen
def closeParen : Mark := .plain .closeParen
def word (w : Word) : Mark := .plain (.word w)
def operator (op : BinaryOperator) : Mark := .plain (.operator (.binary op))
def factorial : Mark := .plain (.operator .factorial)

end Mark

/-! ## Tightness -/

/-- How tightly an operator binds, from zero for the loosest. -/
def tightness : BinaryOperator → Nat
  | .or => 0
  | .and => 1
  | .equal | .notEqual | .less | .lessEqual | .greater | .greaterEqual => 2
  | .add | .subtract | .concat | .modulus => 3
  | .multiply | .divide | .divideInt => 4
  | .power => 5

/-- The tightness of the operators of a level. -/
def Level.tightness : Level → Nat
  | .relation => 2
  | .sum => 3
  | .product => 4
  | .power => 5

/-- How tightly a mark binds what stands before it, if it does: a sign of the factorial more than any
operator, and the parenthesis of a call more than that. -/
def Mark.tightness? : Mark → Option Nat
  | .plain (.operator (.binary op)) => some (Grammar.tightness op)
  | .plain (.operator .factorial) => some 6
  | .plain .openParen => some 7
  | _ => none

/-! ## Phrases -/

/-- The signs in front of an operand. -/
inductive Sign where
  | minus
  | plus
  | not

/-- The token of a sign. -/
def Sign.token : Sign → Token
  | .minus => .operator (.binary .subtract)
  | .plus => .operator (.binary .add)
  | .not => .operator .not

/-- The operator that a sign stands for; a plus changes nothing. -/
def Sign.operator? : Sign → Option UnaryOperator
  | .minus => some .negate
  | .plus => none
  | .not => some .not

/-- The word of a dialog. -/
def dialogWord : Dialog → Word
  | .message => .message
  | .msgBox => .msgBox
  | .inputBox => .inputBox

mutual

/-- An expression as it is written. -/
inductive Phrase where
  | number (v : Value)
  | text (v : Value)
  /-- A word that stands for a value. -/
  | word (w : Word)
  /-- A name by itself: a variable, a constant, or the call of a function without parameters. -/
  | name (n : String)
  /-- A function with its arguments in parentheses. -/
  | apply (n : String) (arguments : List Phrase)
  | group (e : Phrase)
  | signed (s : Sign) (e : Phrase)
  | factorial (e : Phrase)
  | binary (op : BinaryOperator) (l r : Phrase)
  | conjunction (first : Phrase) (rest : List Phrase)
  /-- A word that stands for a function of one number. -/
  | function (w : Word) (e : Phrase)
  | choice (condition yes no : Phrase)
  | dialog (d : Dialog) (gaps : List Gap)

/-- A place for a parameter of a dialog. -/
inductive Gap where
  | omitted
  | given (e : Phrase)

end

/-- How tightly a phrase holds together. -/
def Phrase.tightness : Phrase → Nat
  | .binary op _ _ => Grammar.tightness op
  | .conjunction _ _ => 1
  | .factorial _ => 6
  | _ => 7

mutual

/-- A phrase of the grammar: operators group from the left, what stands under an operator holds together
more tightly than it, and a chain of `AND` is one node. -/
def Phrase.WellFormed : Phrase → Prop
  | .number _ | .text _ | .name _ => True
  | .word w => (wordValue? w).isSome
  | .apply _ arguments => WellFormedAll 0 arguments
  | .group e => e.WellFormed
  | .signed _ e => e.WellFormed ∧ 7 ≤ e.tightness
  | .factorial e => e.WellFormed ∧ 6 ≤ e.tightness
  | .binary op l r =>
    op ≠ .and ∧ l.WellFormed ∧ tightness op ≤ l.tightness ∧ r.WellFormed ∧ tightness op < r.tightness
  | .conjunction first rest =>
    first.WellFormed ∧ 2 ≤ first.tightness ∧ rest ≠ [] ∧ WellFormedAll 2 rest
  | .function w e => (wordFunction? w).isSome ∧ e.WellFormed
  | .choice c x y => c.WellFormed ∧ x.WellFormed ∧ y.WellFormed
  | .dialog d gaps => gaps.length ≤ d.most ∧ gaps ≠ [.omitted] ∧ WellFormedGaps gaps

/-- Phrases of the grammar that hold together at least so tightly. -/
def WellFormedAll (k : Nat) : List Phrase → Prop
  | [] => True
  | p :: rest => p.WellFormed ∧ k ≤ p.tightness ∧ WellFormedAll k rest

def WellFormedGaps : List Gap → Prop
  | [] => True
  | g :: rest => g.WellFormed ∧ WellFormedGaps rest

def Gap.WellFormed : Gap → Prop
  | .omitted => True
  | .given e => e.WellFormed

end

/-! ## Spelling -/

mutual

/-- The marks of a phrase in order. -/
def Phrase.render : Phrase → List Mark
  | .number v => [.number v]
  | .text v => [.text v]
  | .word w => [.word w]
  | .name n => [.name n]
  | .apply n arguments => .name n :: .openParen :: renderList arguments ++ [.closeParen]
  | .group e => .openParen :: e.render ++ [.closeParen]
  | .signed s e => .plain s.token :: e.render
  | .factorial e => e.render ++ [.factorial]
  | .binary op l r => l.render ++ .operator op :: r.render
  | .conjunction first rest => first.render ++ renderEach (.operator .and) rest
  | .function w e => .word w :: .openParen :: e.render ++ [.closeParen]
  | .choice c x y =>
    .word .iif :: .openParen :: c.render ++ .comma :: x.render ++ .comma :: y.render ++ [.closeParen]
  | .dialog d gaps => .word (dialogWord d) :: .openParen :: renderGaps gaps ++ [.closeParen]

/-- Phrases with commas between them. -/
def renderList : List Phrase → List Mark
  | [] => []
  | p :: rest => p.render ++ renderEach .comma rest

/-- Phrases that each follow the given mark. -/
def renderEach (m : Mark) : List Phrase → List Mark
  | [] => []
  | p :: rest => m :: p.render ++ renderEach m rest

/-- Places with commas between them. -/
def renderGaps : List Gap → List Mark
  | [] => []
  | g :: rest => g.render ++ renderMoreGaps rest

def renderMoreGaps : List Gap → List Mark
  | [] => []
  | g :: rest => .comma :: g.render ++ renderMoreGaps rest

def Gap.render : Gap → List Mark
  | .omitted => []
  | .given e => e.render

end

/-! ## Meaning -/

/-- The function that a visible name stands for. -/
def Context.function? (env : Context) (n : String) : Option Routine :=
  match env.names.get? n with
  | some b => if b.kind = .function then b.address.map (⟨n, ·, b.parameters⟩) else none
  | none => none

theorem function?_name {env : Context} {n : String} {r : Routine} (h : env.function? n = some r) :
    r.name = n := by
  unfold Context.function? at h
  split at h
  · split at h
    · obtain ⟨_, _, rfl⟩ := Option.map_eq_some_iff.1 h
      rfl
    · cases h
  · cases h

/-- The call of a function, if the number of arguments is right. -/
def call? (r : Routine) (arguments : List Expr) : Option Expr :=
  if arguments.length = r.parameters.length then some (.call r arguments) else none

/-- What a name by itself stands for. -/
def Context.name? (env : Context) (n : String) : Option Expr :=
  if env.readable n then some (.variable n) else (env.function? n).bind (call? · [])

mutual

/-- The expression that a phrase means, if all its names are visible and of the right kind and all its
calls have the right number of arguments. -/
def Phrase.meaning? (env : Context) : Phrase → Option Expr
  | .number v | .text v => some (.literal v)
  | .word w => (wordValue? w).map .literal
  | .name n => env.name? n
  | .apply n arguments => do
    let r ← env.function? n
    call? r (← meanings? env arguments)
  | .group e => e.meaning? env
  | .signed s e => (e.meaning? env).map (signed s.operator?)
  | .factorial e => (e.meaning? env).map (.unary .factorial)
  | .binary op l r => do return .binary op (← l.meaning? env) (← r.meaning? env)
  | .conjunction first rest => do return .conjunction (← first.meaning? env) (← meanings? env rest)
  | .function w e => do return .unary (← wordFunction? w) (← e.meaning? env)
  | .choice c x y => do return .choice (← c.meaning? env) (← x.meaning? env) (← y.meaning? env)
  | .dialog d gaps => (slotsOf? env gaps).map (.dialog d)

def meanings? (env : Context) : List Phrase → Option (List Expr)
  | [] => some []
  | p :: rest => do return (← p.meaning? env) :: (← meanings? env rest)

def slotsOf? (env : Context) : List Gap → Option (List Slot)
  | [] => some []
  | g :: rest => do return (← g.slot? env) :: (← slotsOf? env rest)

def Gap.slot? (env : Context) : Gap → Option Slot
  | .omitted => some .omitted
  | .given e => (e.meaning? env).map .given

end

/-! ## Code -/

/-- The same instruction when the code around it begins `n` places later. The address of a routine does
not depend on where it is called. -/
def shift (n : Nat) : Instruction → Instruction
  | .jump a => .jump (a + n)
  | .jumpTrue a => .jumpTrue (a + n)
  | .jumpFalse a => .jumpFalse (a + n)
  | i => i

/-- Code followed by code, each counted from its own beginning. -/
def link (c d : List Instruction) : List Instruction := c ++ d.map (shift c.length)

mutual

/-- The code of a phrase: operands first, then their operator. An operand of `AND` that is false branches
to the place that pushes false, which all operands of the chain share; `IIF` branches over the value that
is not chosen. -/
def Phrase.polish (env : Context) : Phrase → List Instruction
  | .number v | .text v => [.pushValue v]
  | .word w => ((wordValue? w).map .pushValue).toList
  | .name n =>
    if env.readable n then [.pushVariable n]
    else match env.function? n with
      | some r => [.pushScope, .call r.entry, .popScope, .pushVariable n]
      | none => []
  | .apply n arguments =>
    match env.function? n with
    | some r => link (link [.pushScope] (polishAll env arguments)) (r.enter ++ [.pushVariable n])
    | none => []
  | .group e => e.polish env
  | .signed s e => link (e.polish env) (s.operator?.map .unary).toList
  | .factorial e => link (e.polish env) [.unary .factorial]
  | .binary op l r => link (link (l.polish env) (r.polish env)) [.binary op]
  | .conjunction first rest => link (first.polish env) (polishRest env rest)
  | .function w e => link (e.polish env) ((wordFunction? w).map .unary).toList
  | .choice c x y =>
    let yes := x.polish env
    let no := y.polish env
    link (link (link (link (c.polish env) [.jumpFalse (yes.length + 2)]) yes) [.jump (no.length + 1)]) no
  | .dialog d gaps =>
    link (polishGaps env d.defaults gaps)
      (.dialog d :: if d.answers then [] else [.pushValue (.boolean true)])

/-- The code of phrases one after the other. -/
def polishAll (env : Context) : List Phrase → List Instruction
  | [] => []
  | p :: rest => link (p.polish env) (polishAll env rest)

/-- The code of a chain of `AND` from behind an operand on; its last instruction pushes false. -/
def polishRest (env : Context) : List Phrase → List Instruction
  | [] => [.jumpFalse 3, .pushValue (.boolean true), .jump 4, .pushValue (.boolean false)]
  | p :: rest =>
    let behind := link (p.polish env) (polishRest env rest)
    link [.jumpFalse behind.length] behind

/-- The code of the parameters of a dialog, given the defaults still to be used. -/
def polishGaps (env : Context) (defaults : List Value) : List Gap → List Instruction
  | [] => defaults.map .pushValue
  | g :: rest => link (g.polish env defaults.head?) (polishGaps env defaults.tail rest)

def Gap.polish (env : Context) (standard : Option Value) : Gap → List Instruction
  | .omitted => (standard.map Instruction.pushValue).toList
  | .given e => link (e.polish env) (if standard.isNone then [.pop] else [])

end

end MacroBasic.Grammar
