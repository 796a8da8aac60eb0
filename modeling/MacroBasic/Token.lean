/-
The vocabulary of the language: its operators, its words, and the classes of symbols a text is broken
into. Words may be written in any mix of capitals and small letters.
-/
import MacroBasic.Text.Capital
import MacroBasic.Value.Operator

namespace MacroBasic

/-! ## Operators -/

/-- How an operator of two operands is spelled. -/
def BinaryOperator.spelling : BinaryOperator → String
  | .add => "+"
  | .subtract => "-"
  | .multiply => "*"
  | .divide => "/"
  | .divideInt => "DIV"
  | .modulus => "MOD"
  | .power => "^"
  | .concat => "&"
  | .or => "OR"
  | .and => "AND"
  | .equal => "="
  | .notEqual => "<>"
  | .less => "<"
  | .lessEqual => "<="
  | .greater => ">"
  | .greaterEqual => ">="

/-- The operators as they stand in a text, where the signs `+` and `-` are the same before an operand
and between two. -/
inductive Operator where
  | binary (op : BinaryOperator)
  | factorial
  | not
deriving DecidableEq, Repr

/-- How an operator is spelled. -/
def Operator.spelling : Operator → String
  | .binary op => op.spelling
  | .factorial => "!"
  | .not => "NOT"

/-! ## Words -/

/-- The words of the language. -/
inductive Word where
  | atan
  | const
  | cos
  | debugClear
  | debugHide
  | debugPrint
  | debugShow
  | dim
  | doWord
  | doEvents
  | elseWord
  | endWord
  | endFunction
  | endIf
  | endSub
  | exit
  | external
  | falseWord
  | forWord
  | function
  | ifWord
  | iif
  | inputBox
  | loop
  | message
  | msgBox
  | next
  | pi
  | sin
  | step
  | sub
  | tan
  | thenWord
  | to
  | trueWord
  | untilWord
  | vbCr
  | vbCrLf
  | vbLf
  | vbTab
  | whileWord
deriving DecidableEq, Repr

namespace Word

/-- How a word is spelled. -/
def spelling : Word → String
  | .atan => "ATAN"
  | .const => "CONST"
  | .cos => "COS"
  | .debugClear => "DEBUGCLEAR"
  | .debugHide => "DEBUGHIDE"
  | .debugPrint => "DEBUGPRINT"
  | .debugShow => "DEBUGSHOW"
  | .dim => "DIM"
  | .doWord => "DO"
  | .doEvents => "DOEVENTS"
  | .elseWord => "ELSE"
  | .endWord => "END"
  | .endFunction => "ENDFUNCTION"
  | .endIf => "ENDIF"
  | .endSub => "ENDSUB"
  | .exit => "EXIT"
  | .external => "IMPORT"
  | .falseWord => "FALSE"
  | .forWord => "FOR"
  | .function => "FUNCTION"
  | .ifWord => "IF"
  | .iif => "IIF"
  | .inputBox => "INPUTBOX"
  | .loop => "LOOP"
  | .message => "MESSAGE"
  | .msgBox => "MSGBOX"
  | .next => "NEXT"
  | .pi => "PI"
  | .sin => "SIN"
  | .step => "STEP"
  | .sub => "SUB"
  | .tan => "TAN"
  | .thenWord => "THEN"
  | .to => "TO"
  | .trueWord => "TRUE"
  | .untilWord => "UNTIL"
  | .vbCr => "VBCR"
  | .vbCrLf => "VBCRLF"
  | .vbLf => "VBLF"
  | .vbTab => "VBTAB"
  | .whileWord => "WHILE"

/-- All words. -/
def all : List Word :=
  [.atan, .const, .cos, .debugClear, .debugHide, .debugPrint, .debugShow, .dim, .doWord, .doEvents,
   .elseWord, .endWord, .endFunction, .endIf, .endSub, .exit, .external, .falseWord, .forWord,
   .function, .ifWord, .iif, .inputBox, .loop, .message, .msgBox, .next, .pi, .sin, .step, .sub,
   .tan, .thenWord, .to, .trueWord, .untilWord, .vbCr, .vbCrLf, .vbLf, .vbTab, .whileWord]

end Word

/-! ## Tokens -/

/-- The classes of symbols. -/
inductive Token where
  | operator (op : Operator)
  /-- An operator joined to an equals sign. -/
  | update (op : BinaryOperator)
  | word (w : Word)
  | number
  | string
  | name
  | openParen
  | closeParen
  | comma
  /-- A colon or a line break. -/
  | delimiter
  | eof
deriving DecidableEq, Repr

namespace Token

/-- The operators that are written as words. -/
def operatorWords : List Operator :=
  [.binary .divideInt, .binary .modulus, .not, .binary .and, .binary .or]

/-- Every keyword with its token. The word for shared names has a second spelling. -/
def keywords : List (String × Token) :=
  Word.all.map (fun w => (w.spelling, .word w)) ++
    operatorWords.map (fun op => (op.spelling, .operator op)) ++
    [("EXTERNAL", .word .external)]

/-- The token of a text that is a keyword, in whatever case it is written. -/
def ofKeyword? (s : String) : Option Token := keywords.lookup (Text.toCapitals s)

/-- The words that may begin an expression. -/
def opensExpression : Word → Bool
  | .trueWord | .falseWord | .pi | .vbCrLf | .vbTab | .vbCr | .vbLf | .iif | .sin | .cos | .tan
  | .atan | .msgBox | .inputBox | .message => true
  | _ => false

/-- Whether a symbol of this class may begin an expression. -/
def startsExpression : Token → Bool
  | .number | .string | .name | .openParen => true
  | .operator (.binary .subtract) | .operator (.binary .add) | .operator .not => true
  | .word w => opensExpression w
  | _ => false

/-- A token as a reader calls it. -/
def display : Token → String
  | .operator op => op.spelling
  | .update op => op.spelling ++ "="
  | .word w => w.spelling
  | .number => "number"
  | .string => "string"
  | .name => "identifier"
  | .openParen => "("
  | .closeParen => ")"
  | .comma => ","
  | .delimiter => "end of statement"
  | .eof => "end of source"

end Token

end MacroBasic
