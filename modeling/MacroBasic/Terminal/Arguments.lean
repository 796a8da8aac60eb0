/-
The command line. Arguments are taken one after the other; the value of an option is looked at only
when the next argument is known to be an argument, so an unknown option is reported before a bad value
in front of it. Every option but `--import` may be given once. How a command line falls into options and
values follows the documented conventions for command lines; it is taken as given, and no theorem is about it.
-/
import MacroBasic.Options
import MacroBasic.Terminal.Sharing

namespace MacroBasic.Terminal

/-- Why a command line is not taken. -/
inductive ArgumentError where
  | unknownArgument
  | valueValidation
  | invalidValue
  | argumentConflict
  | tooManyValues
  | displayHelp
  | displayVersion
deriving DecidableEq, Repr

/-- Options without a value. -/
inductive Flag where
  | noExplicit
  | noExternal
  | allowUi
  | listing
  | verbose
deriving DecidableEq, Repr

/-- What a command line asks for. -/
structure Arguments where
  file : Option String := none
  flags : List Flag := []
  timeout : Option Nat := none
  imports : List (String × Value) := []

namespace Arguments

/-- Whether a flag is given. -/
def has (f : Flag) (a : Arguments) : Bool := a.flags.contains f

/-- The settings that a command line asks for. A time limit of zero is none. -/
def options (a : Arguments) : Options where
  explicit := !a.has .noExplicit
  external := !a.has .noExternal
  ui := a.has .allowUi
  timeout := match a.timeout.getD 60000 with
    | 0 => none
    | ms => some ms

/-! ## Values -/

/-- An argument that has been met and whose value has not been looked at. -/
inductive Pending where
  | nothing
  | file (name : String)
  | timeout (value : Option String)
  | sharing (value : Option String)

/-- A natural number of at most 64 bits, perhaps behind a plus sign. -/
def parseWord (s : String) : Option Nat :=
  let digits := match s.toList with
    | '+' :: rest => rest
    | cs => cs
  if digits.isEmpty || !digits.all Char.isDigit then none
  else
    let n := Decimal.ofDigits digits
    if n < UInt64.size then some n else none

/-- Takes over the value of a pending argument. -/
def settle (a : Arguments) : Pending → Except ArgumentError Arguments
  | .nothing => .ok a
  | .file name => if name.isEmpty then .error .invalidValue else .ok { a with file := some name }
  | .timeout none => .error .invalidValue
  | .timeout (some value) =>
    if a.timeout.isSome then .error .argumentConflict
    else match parseWord value with
      | some ms => .ok { a with timeout := some ms }
      | none => .error .valueValidation
  | .sharing none => .error .invalidValue
  | .sharing (some value) =>
    match parseSharing value with
    | .ok binding => .ok { a with imports := a.imports ++ [binding] }
    | .error _ => .error .valueValidation

/-- Takes over a flag. -/
def raise (a : Arguments) (f : Flag) : Except ArgumentError Arguments :=
  if a.has f then .error .argumentConflict else .ok { a with flags := f :: a.flags }

/-! ## Arguments one by one -/

/-- What the name of an option stands for. -/
inductive Switch where
  | flag (f : Flag)
  | timeout
  | sharing
  | help
  | version

/-- The option with a long name. -/
def long? : String → Option Switch
  | "no-explicit" => some (.flag .noExplicit)
  | "no-external" => some (.flag .noExternal)
  | "allow-ui" => some (.flag .allowUi)
  | "listing" => some (.flag .listing)
  | "verbose" => some (.flag .verbose)
  | "timeout" => some .timeout
  | "import" => some .sharing
  | "help" => some .help
  | "version" => some .version
  | _ => none

/-- The option with a short name. None of them has a value. -/
def short? : Char → Option Switch
  | 'v' => some (.flag .verbose)
  | 'h' => some .help
  | 'V' => some .version
  | _ => none

/-- The state between two arguments. -/
abbrev Progress := Arguments × Pending

/-- Takes an option with the value that is joined to it, if there is one. -/
def takeOption (p : Progress) (joined : Option String) : Switch → Except ArgumentError Progress
  | .flag f =>
    if joined.isSome then .error .tooManyValues
    else do
      let a ← p.1.settle p.2
      return (← a.raise f, .nothing)
  | .help => if joined.isSome then .error .tooManyValues else do
    let _ ← p.1.settle p.2
    throw .displayHelp
  | .version => if joined.isSome then .error .tooManyValues else do
    let _ ← p.1.settle p.2
    throw .displayVersion
  | .timeout => do
    let a ← p.1.settle p.2
    match joined with
    | some _ => return (← a.settle (.timeout joined), .nothing)
    | none => return (a, .timeout none)
  | .sharing => do
    let a ← p.1.settle p.2
    match joined with
    | some _ => return (← a.settle (.sharing joined), .nothing)
    | none => return (a, .sharing none)

/-- Takes short options written together. -/
def takeShorts (p : Progress) : List Char → Except ArgumentError Progress
  | [] => .ok p
  | c :: rest =>
    match short? c with
    | some o => do takeShorts (← takeOption p none o) rest
    | none => .error .unknownArgument

/-- Takes the name of the script. -/
def takeFile (p : Progress) (name : String) : Except ArgumentError Progress :=
  match p.2, p.1.file with
  | .file _, _ => .error .unknownArgument
  | _, some _ => .error .unknownArgument
  | pending, none => do
    let a ← p.1.settle pending
    return (a, .file name)

/-- Takes an argument that is not the name of an option. -/
def takePlain (p : Progress) (text : String) : Except ArgumentError Progress :=
  match p.2 with
  | .timeout none => .ok (p.1, .timeout (some text))
  | .sharing none => .ok (p.1, .sharing (some text))
  | _ => takeFile p text

/-- Takes one argument before the end of the options. -/
def take (p : Progress) (text : String) : Except ArgumentError Progress :=
  match text.toList with
  | '-' :: '-' :: body =>
    let name := String.ofList (body.takeWhile (· != '='))
    let joined := match body.dropWhile (· != '=') with
      | [] => none
      | _ :: value => some (String.ofList value)
    match long? name with
    | some o => takeOption p joined o
    | none => .error .unknownArgument
  | '-' :: c :: rest => takeShorts p (c :: rest)
  | _ => takePlain p text

/-- Takes all arguments. Two hyphens alone end the options. -/
def takeAll (p : Progress) : List String → Except ArgumentError Progress
  | [] => .ok p
  | text :: rest =>
    if text = "--" then rest.foldlM takeFile p
    else do takeAll (← take p text) rest

/-- Reads a command line. -/
def parse (args : List String) : Except ArgumentError Arguments := do
  let (a, pending) ← takeAll ({}, .nothing) args
  a.settle pending

end Arguments

end MacroBasic.Terminal
