/-
Rules that a script can keep: which names it gives values to, which routines it calls and with how many
arguments, and where it leaves loops and routines. The rules speak of trees only; that the parser gives no
tree that breaks them is shown elsewhere.
-/
import MacroBasic.Grammar.Assembly

namespace MacroBasic

/-- What a script may use: the names it may give a value, and the routines it may call. -/
structure Rules where
  name : String → Prop
  routine : Routine → Prop

/-- Names that a routine may have as its parameters: they may have values, and they are different. -/
def Rules.Parameters (R : Rules) (names : List String) : Prop := (∀ p ∈ names, R.name p) ∧ names.Nodup

section Rules

variable (R : Rules)

mutual

/-- Every call in an expression is that of a routine that may be called, with an argument for each of its
parameters. -/
def Expr.Obeys : Expr → Prop
  | .literal _ | .variable _ => True
  | .call r arguments => R.routine r ∧ arguments.length = r.parameters.length ∧ AllObey arguments
  | .unary _ e => e.Obeys
  | .binary _ l r => l.Obeys ∧ r.Obeys
  | .conjunction first rest => first.Obeys ∧ AllObey rest
  | .choice c x y => c.Obeys ∧ x.Obeys ∧ y.Obeys
  | .dialog _ slots => SlotsObey slots

def AllObey : List Expr → Prop
  | [] => True
  | e :: rest => e.Obeys ∧ AllObey rest

def SlotsObey : List Slot → Prop
  | [] => True
  | slot :: rest => slot.Obeys ∧ SlotsObey rest

def Slot.Obeys : Slot → Prop
  | .omitted => True
  | .given e => e.Obeys

end

mutual

/-- A statement inside the given loops, the innermost one first, gives values only to names that may have
them, calls only what may be called, and leaves only a loop or a routine that is around it. -/
def Stmt.Obeys (loops : List Loop) (inside : Bool) : Stmt → Prop
  | .share _ | .notify _ => True
  | .declare names => ∀ n ∈ names, R.name n
  | .constants definitions => ∀ d ∈ definitions, R.name d.1
  | .routine _ name parameters body => R.name name ∧ R.Parameters parameters ∧ body.Obeys [] true
  | .branch c yes => c.Obeys R ∧ yes.Obeys loops inside
  | .branchElse c yes no => c.Obeys R ∧ yes.Obeys loops inside ∧ no.Obeys loops inside
  | .countLoop counter start limit step body =>
    R.name counter ∧ start.Obeys R ∧ limit.Obeys R ∧ (∀ e ∈ step, e.Obeys R) ∧
      body.Obeys (.forLoop :: loops) inside
  | .guardLoop head body tail =>
    (∀ g ∈ head, g.condition.Obeys R) ∧ body.Obeys (.doLoop :: loops) inside ∧ ∀ g ∈ tail, g.condition.Obeys R
  | .exitLoop kind inner => kind ∈ loops ∧ inner = loops.takeWhile (· != kind)
  | .exitRoutine => inside = true
  | .print e => ∀ x ∈ e, x.Obeys R
  | .dialog _ slots => SlotsObey R slots
  | .assign name _ e => R.name name ∧ e.Obeys R
  | .call r arguments => R.routine r ∧ arguments.length = r.parameters.length ∧ AllObey R arguments

def Block.Obeys (loops : List Loop) (inside : Bool) : Block → Prop
  | .nil => True
  | .cons _ first rest => first.Obeys loops inside ∧ rest.Obeys loops inside

end

end Rules

section Rules

variable {R R' : Rules}

theorem allObey_iff {R : Rules} {es : List Expr} : AllObey R es ↔ ∀ e ∈ es, e.Obeys R := by
  induction es with
  | nil => exact ⟨fun _ _ he => absurd he List.not_mem_nil, fun _ => trivial⟩
  | cons e rest ih => rw [AllObey, ih, List.forall_mem_cons]

theorem slotsObey_iff {R : Rules} : ∀ {slots : List Slot}, SlotsObey R slots ↔ ∀ e, .given e ∈ slots → e.Obeys R
  | [] => ⟨fun _ => nofun, fun _ => trivial⟩
  | .omitted :: rest => by
    rw [SlotsObey, slotsObey_iff]
    simp [Slot.Obeys]
  | .given e :: rest => by
    rw [SlotsObey, slotsObey_iff]
    simp [Slot.Obeys]

mutual

/-- An expression keeps rules that allow to call more. -/
theorem Expr.obeys_mono (hR : ∀ r, R.routine r → R'.routine r) : (e : Expr) → e.Obeys R → e.Obeys R'
  | .literal _, _ | .variable _, _ => trivial
  | .call r arguments, ⟨hr, hlength, harguments⟩ => ⟨hR r hr, hlength, allObey_mono hR arguments harguments⟩
  | .unary _ e, h => e.obeys_mono hR h
  | .binary _ l r, h => ⟨l.obeys_mono hR h.1, r.obeys_mono hR h.2⟩
  | .conjunction first rest, h => ⟨first.obeys_mono hR h.1, allObey_mono hR rest h.2⟩
  | .choice c x y, h => ⟨c.obeys_mono hR h.1, x.obeys_mono hR h.2.1, y.obeys_mono hR h.2.2⟩
  | .dialog _ slots, h => slotsObey_mono hR slots h

theorem allObey_mono (hR : ∀ r, R.routine r → R'.routine r) : (es : List Expr) → AllObey R es → AllObey R' es
  | [], _ => trivial
  | e :: rest, h => ⟨e.obeys_mono hR h.1, allObey_mono hR rest h.2⟩

theorem slotsObey_mono (hR : ∀ r, R.routine r → R'.routine r) :
    (slots : List Slot) → SlotsObey R slots → SlotsObey R' slots
  | [], _ => trivial
  | .omitted :: rest, h => ⟨trivial, slotsObey_mono hR rest h.2⟩
  | .given e :: rest, h => ⟨e.obeys_mono hR h.1, slotsObey_mono hR rest h.2⟩

end

end Rules

/-! ## Routines of a script -/

mutual

/-- The routines that a statement at address `a` defines. -/
def Stmt.routines (a : Address) : Stmt → List Routine
  | .routine isFunction name parameters body =>
    let entry := a + routineHeadSize isFunction
    ⟨name, entry, parameters⟩ :: body.routines entry
  | .branch c yes => yes.routines (a + c.size + 1)
  | .branchElse c yes no =>
    let start := a + c.size + 1
    yes.routines start ++ no.routines (start + yes.size + 1)
  | .countLoop _ start limit step body => body.routines (a + countHeadSize start limit step)
  | .guardLoop head body _ => body.routines (a + 1 + headSize head)
  | _ => []

/-- The routines that a block at address `a` defines. -/
def Block.routines (a : Address) : Block → List Routine
  | .nil => []
  | .cons _ first rest => first.routines a ++ rest.routines (a + first.size)

end

section Routines

variable {R : Rules}

mutual

/-- The parameters of a routine are names that it may have as such. -/
theorem Stmt.parameters_of_mem_routines : (s : Stmt) → ∀ {a : Address} {loops : List Loop} {inside : Bool} {r : Routine},
    s.Obeys R loops inside → r ∈ s.routines a → R.Parameters r.parameters
  | .routine isFunction name parameters body, a, loops, inside, r, h, hr => by
    rw [Stmt.routines, List.mem_cons] at hr
    rcases hr with rfl | hr
    · exact h.2.1
    · exact body.parameters_of_mem_routines h.2.2 hr
  | .branch c yes, a, loops, inside, r, h, hr => yes.parameters_of_mem_routines h.2 hr
  | .branchElse c yes no, a, loops, inside, r, h, hr => by
    rw [Stmt.routines, List.mem_append] at hr
    rcases hr with hr | hr
    · exact yes.parameters_of_mem_routines h.2.1 hr
    · exact no.parameters_of_mem_routines h.2.2 hr
  | .countLoop counter start limit step body, a, loops, inside, r, h, hr => body.parameters_of_mem_routines h.2.2.2.2 hr
  | .guardLoop head body tail, a, loops, inside, r, h, hr => body.parameters_of_mem_routines h.2.1 hr
  | .share _, _, _, _, _, _, hr | .declare _, _, _, _, _, _, hr | .constants _, _, _, _, _, _, hr
  | .exitLoop _ _, _, _, _, _, _, hr | .exitRoutine, _, _, _, _, _, hr | .print _, _, _, _, _, _, hr
  | .notify _, _, _, _, _, _, hr | .dialog _ _, _, _, _, _, _, hr | .assign _ _ _, _, _, _, _, _, hr
  | .call _ _, _, _, _, _, _, hr => nomatch hr

theorem Block.parameters_of_mem_routines : (b : Block) → ∀ {a : Address} {loops : List Loop} {inside : Bool} {r : Routine},
    b.Obeys R loops inside → r ∈ b.routines a → R.Parameters r.parameters
  | .nil, _, _, _, _, _, hr => nomatch hr
  | .cons _ first rest, a, loops, inside, r, h, hr => by
    rw [Block.routines, List.mem_append] at hr
    rcases hr with hr | hr
    · exact first.parameters_of_mem_routines h.1 hr
    · exact rest.parameters_of_mem_routines h.2 hr

end

end Routines

end MacroBasic
