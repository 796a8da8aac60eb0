/-
Where the addresses in code lead. A script is taken apart into the statements in it with the addresses of
their code, so that the code of every routine body and of every loop can be found. The addresses that a
statement branches to, or pushes for leaving a loop by, lie in its own code or right behind it; they are
onward but for the branch that closes a loop, and they never cross the border of a routine body.
-/
import MacroBasic.Proofs.Grammar.Pushes
import MacroBasic.Proofs.Machine.Code

namespace MacroBasic

open Machine

/-! ## Parts of a script -/

mutual

/-- The statements inside of a statement at address `a`, each with the address at which it begins. -/
def Stmt.inner (a : Nat) : Stmt → List (Nat × Stmt)
  | .routine isFunction _ _ body => body.parts (a + routineHeadSize isFunction)
  | .branch c yes => yes.parts (a + c.size + 1)
  | .branchElse c yes no => yes.parts (a + c.size + 1) ++ no.parts (a + c.size + 1 + yes.size + 1)
  | .countLoop _ start limit step body => body.parts (a + countHeadSize start limit step)
  | .guardLoop head body _ => body.parts (a + 1 + headSize head)
  | _ => []

/-- The statements in a block at address `a`, and those inside of them. -/
def Block.parts (a : Nat) : Block → List (Nat × Stmt)
  | .nil => []
  | .cons _ first rest => (a, first) :: first.inner a ++ rest.parts (a + first.size)

end

/-- Addresses from one on up to another, which is not among them. -/
structure Span where
  first : Nat
  stop : Nat

/-- An address is in a span. -/
def Span.Contains (s : Span) (a : Nat) : Prop := s.first ≤ a ∧ a < s.stop

/-- The code of a loop. -/
structure Circuit where
  /-- Where it begins. -/
  first : Nat
  /-- Where every further pass begins. -/
  again : Nat
  /-- The branch that goes back. -/
  close : Nat
  /-- Where it ends. -/
  stop : Nat

/-- The body of a routine at address `a`, up to the return at its end. -/
def Stmt.body? (a : Nat) : Stmt → Option Span
  | .routine isFunction _ _ body =>
    some ⟨a + routineHeadSize isFunction, a + routineHeadSize isFunction + body.size + 1⟩
  | _ => none

/-- The code of a loop at address `a`. -/
def Stmt.circuit? (a : Nat) : Stmt → Option Circuit
  | .countLoop _ start limit step body =>
    let again := a + countHeadSize start limit step
    some ⟨a, again, again + body.size + 11, again + body.size + 15⟩
  | .guardLoop head body tail =>
    let done := a + 1 + headSize head + body.size + tailSize tail
    some ⟨a, a + 1, done - 1, done + 1⟩
  | _ => none

/-- The bodies of the routines in a script. -/
def Block.bodies (b : Block) : List Span := (b.parts 0).filterMap fun (a, s) => s.body? a

/-- The loops in a script. -/
def Block.circuits (b : Block) : List Circuit := (b.parts 0).filterMap fun (a, s) => s.circuit? a

/-! ## Where the parts are -/

theorem routineHeadSize_pos (isFunction : Bool) : 0 < routineHeadSize isFunction := by
  cases isFunction <;> decide

theorem tailSize_pos (tail : Option Guard) : 0 < tailSize tail := by
  cases tail with
  | none => exact Nat.one_pos
  | some g => exact Nat.succ_pos _

mutual

theorem Stmt.inner_within : (s : Stmt) → ∀ {a : Nat} {y : Nat × Stmt}, y ∈ s.inner a →
    a < y.1 ∧ y.1 + y.2.size ≤ a + s.size
  | .routine isFunction _ _ body, a, y, h => by
    have hy := body.parts_within h
    have hhead := routineHeadSize_pos isFunction
    rw [Stmt.size]
    omega
  | .branch c yes, a, y, h => by
    have hy := yes.parts_within h
    rw [Stmt.size]
    omega
  | .branchElse c yes no, a, y, h => by
    rw [Stmt.size]
    rcases List.mem_append.1 h with h | h
    · have hy := yes.parts_within h
      omega
    · have hy := no.parts_within h
      omega
  | .countLoop _ start limit step body, a, y, h => by
    have hy := body.parts_within h
    rw [Stmt.size]
    unfold countHeadSize at hy ⊢
    omega
  | .guardLoop head body tail, a, y, h => by
    have hy := body.parts_within h
    rw [Stmt.size]
    omega
  | .share _, _, _, h | .declare _, _, _, h | .constants _, _, _, h | .exitLoop _ _, _, _, h | .exitRoutine, _, _, h
  | .print _, _, _, h | .notify _, _, _, h | .dialog _ _, _, _, h | .assign _ _ _, _, _, h | .call _ _, _, _, h => by
    cases h

theorem Block.parts_within : (b : Block) → ∀ {a : Nat} {y : Nat × Stmt}, y ∈ b.parts a →
    a ≤ y.1 ∧ y.1 + y.2.size ≤ a + b.size
  | .nil, _, _, h => by cases h
  | .cons _ first rest, a, y, h => by
    rw [Block.size]
    rcases List.mem_append.1 h with h | h
    · rcases List.mem_cons.1 h with rfl | h
      · exact ⟨Nat.le_refl _, by simp only; omega⟩
      · have hy := first.inner_within h
        omega
    · have hy := rest.parts_within h
      omega

end

section Code

variable {lines : Array Line}

mutual

/-- The code of a part stands where the part does. -/
theorem Stmt.codeAt_inner : (s : Stmt) → ∀ {a : Nat} {p : Position} {y : Nat × Stmt},
    CodeAt lines a (instructionsOf (s.lines a p)) → y ∈ s.inner a →
    ∃ q, CodeAt lines y.1 (instructionsOf (y.2.lines y.1 q))
  | .routine _ _ _ body, a, p, y, h, hy => by
    obtain ⟨_, hbody, _⟩ := h.routine
    exact body.codeAt_parts hbody hy
  | .branch c yes, a, p, y, h, hy => by
    obtain ⟨_, hyes⟩ := h.branch
    exact yes.codeAt_parts hyes hy
  | .branchElse c yes no, a, p, y, h, hy => by
    obtain ⟨_, hyes, _, hno⟩ := h.branchElse
    rcases List.mem_append.1 hy with hy | hy
    · exact yes.codeAt_parts hyes hy
    · exact no.codeAt_parts hno hy
  | .countLoop _ start limit step body, a, p, y, h, hy => by
    obtain ⟨_, hbody, _⟩ := h.countLoop
    exact body.codeAt_parts hbody hy
  | .guardLoop head body tail, a, p, y, h, hy => by
    obtain ⟨_, hbody, _⟩ := h.guardLoop
    exact body.codeAt_parts hbody hy
  | .share _, _, _, _, _, hy | .declare _, _, _, _, _, hy | .constants _, _, _, _, _, hy | .exitLoop _ _, _, _, _, _, hy
  | .exitRoutine, _, _, _, _, hy | .print _, _, _, _, _, hy | .notify _, _, _, _, _, hy | .dialog _ _, _, _, _, _, hy
  | .assign _ _ _, _, _, _, _, hy | .call _ _, _, _, _, _, hy => by cases hy

theorem Block.codeAt_parts : (b : Block) → ∀ {a : Nat} {y : Nat × Stmt},
    CodeAt lines a (instructionsOf (b.lines a)) → y ∈ b.parts a →
    ∃ q, CodeAt lines y.1 (instructionsOf (y.2.lines y.1 q))
  | .nil, _, _, _, hy => by cases hy
  | .cons p first rest, a, y, h, hy => by
    obtain ⟨hfirst, hrest⟩ := h.cons
    rcases List.mem_append.1 hy with hy | hy
    · rcases List.mem_cons.1 hy with rfl | hy
      · exact ⟨p, hfirst⟩
      · exact first.codeAt_inner hfirst hy
    · exact rest.codeAt_parts hrest hy

end

/-- A routine body ends with a return, and the branch before it leads over it. -/
theorem Stmt.codeAt_body {s : Stmt} {a : Nat} {p : Position} {b : Span}
    (h : CodeAt lines a (instructionsOf (s.lines a p))) (hb : s.body? a = some b) :
    0 < b.first ∧ b.first < b.stop ∧ lines[b.first - 1]?.map Line.instruction = some (.jump b.stop) ∧
      lines[b.stop - 1]?.map Line.instruction = some .ret := by
  cases s with
  | routine isFunction name parameters body =>
    cases hb
    obtain ⟨hdefine, _, hret⟩ := h.routine
    have hhead := routineHeadSize_pos isFunction
    refine ⟨by simp only; omega, by simp only; omega, ?_, hret.first⟩
    cases isFunction with
    | true => exact hdefine.tail.first
    | false => exact hdefine.first
  | _ => cases hb

end Code

mutual

/-- The entry of a routine is where its body begins. -/
theorem Stmt.body_of_routine : (s : Stmt) → ∀ {a : Nat} {r : Routine}, r ∈ s.routines a →
    ∃ y ∈ (a, s) :: s.inner a, ∃ b, y.2.body? y.1 = some b ∧ b.first = r.entry
  | .routine isFunction name parameters body, a, r, h => by
    rcases List.mem_cons.1 h with rfl | h
    · exact ⟨_, List.mem_cons_self .., _, rfl, rfl⟩
    · obtain ⟨y, hy, hb⟩ := body.body_of_routine h
      exact ⟨y, List.mem_cons_of_mem _ hy, hb⟩
  | .branch c yes, a, r, h => by
    obtain ⟨y, hy, hb⟩ := yes.body_of_routine h
    exact ⟨y, List.mem_cons_of_mem _ hy, hb⟩
  | .branchElse c yes no, a, r, h => by
    rcases List.mem_append.1 h with h | h
    · obtain ⟨y, hy, hb⟩ := yes.body_of_routine h
      exact ⟨y, List.mem_cons_of_mem _ (List.mem_append_left _ hy), hb⟩
    · obtain ⟨y, hy, hb⟩ := no.body_of_routine h
      exact ⟨y, List.mem_cons_of_mem _ (List.mem_append_right _ hy), hb⟩
  | .countLoop _ start limit step body, a, r, h => by
    obtain ⟨y, hy, hb⟩ := body.body_of_routine h
    exact ⟨y, List.mem_cons_of_mem _ hy, hb⟩
  | .guardLoop head body tail, a, r, h => by
    obtain ⟨y, hy, hb⟩ := body.body_of_routine h
    exact ⟨y, List.mem_cons_of_mem _ hy, hb⟩
  | .share _, _, _, h | .declare _, _, _, h | .constants _, _, _, h | .exitLoop _ _, _, _, h | .exitRoutine, _, _, h
  | .print _, _, _, h | .notify _, _, _, h | .dialog _ _, _, _, h | .assign _ _ _, _, _, h | .call _ _, _, _, h => by
    cases h

theorem Block.body_of_routine : (b : Block) → ∀ {a : Nat} {r : Routine}, r ∈ b.routines a →
    ∃ y ∈ b.parts a, ∃ s, y.2.body? y.1 = some s ∧ s.first = r.entry
  | .nil, _, _, h => by cases h
  | .cons _ first rest, a, r, h => by
    rcases List.mem_append.1 h with h | h
    · obtain ⟨y, hy, hb⟩ := first.body_of_routine h
      exact ⟨y, List.mem_append_left _ hy, hb⟩
    · obtain ⟨y, hy, hb⟩ := rest.body_of_routine h
      exact ⟨y, List.mem_append_right _ hy, hb⟩

end

/-- The body of a routine lies behind the beginning of the routine, and ends with it. -/
theorem Stmt.body_within {s : Stmt} {a : Nat} {b : Span} (h : s.body? a = some b) :
    a < b.first ∧ b.first < b.stop ∧ b.stop = a + s.size := by
  cases s with
  | routine isFunction name parameters body =>
    cases h
    have hhead := routineHeadSize_pos isFunction
    rw [Stmt.size]
    exact ⟨by simp only; omega, by simp only; omega, by simp only; omega⟩
  | _ => cases h

theorem Stmt.circuit_within {s : Stmt} {a : Nat} {c : Circuit} (h : s.circuit? a = some c) :
    c.first = a ∧ c.first < c.again ∧ c.again ≤ c.close ∧ c.close < c.stop ∧ c.stop = a + s.size := by
  cases s with
  | countLoop counter start limit step body =>
    cases h
    rw [Stmt.size]
    unfold countHeadSize
    exact ⟨rfl, by simp only; omega, by simp only; omega, by simp only; omega, by simp only; omega⟩
  | guardLoop head body tail =>
    cases h
    have htail := tailSize_pos tail
    rw [Stmt.size]
    exact ⟨rfl, by simp only; omega, by simp only; omega, by simp only; omega, by simp only; omega⟩
  | _ => cases h

/-! ## Addresses in instructions -/

/-- The address that an instruction branches to, or pushes for leaving a loop by. -/
def Instruction.aim? : Instruction → Option Address
  | .jump t | .jumpTrue t | .jumpFalse t | .pushValue (.address t) => some t
  | _ => none

/-- Two addresses and all those between them are in the body of a routine, or all are outside of it. -/
def Span.Settles (s : Span) (lo hi : Nat) : Prop := s.stop ≤ lo ∨ hi < s.first ∨ s.first ≤ lo ∧ hi < s.stop

/-- No routine body begins or ends between two addresses. -/
def Calm (parts : List (Nat × Stmt)) (lo hi : Nat) : Prop :=
  ∀ y ∈ parts, ∀ b, y.2.body? y.1 = some b → b.Settles lo hi

/-- Both addresses are in the same routine bodies. -/
def Together (parts : List (Nat × Stmt)) (x t : Nat) : Prop :=
  ∀ y ∈ parts, ∀ b, y.2.body? y.1 = some b → (b.Contains x ↔ b.Contains t)

/-- What the address in an instruction is, given the parts of the script and the number of instructions. -/
structure Aimed (R : Rules) (parts : List (Nat × Stmt)) (n x : Nat) (i : Instruction) : Prop where
  called : ∀ t, i = .call t → ∃ r, R.routine r ∧ r.entry = t
  within : ∀ t, i.aim? = some t → t ≤ n
  onward : ∀ t : Nat, i.aim? = some t →
    x < t ∨ ∃ y ∈ parts, ∃ c, y.2.circuit? y.1 = some c ∧ c.close = x ∧ c.again = t
  together : ∀ t, i.aim? = some t → Together parts x t

section Aimed

variable {R : Rules} {parts : List (Nat × Stmt)} {n lo hi x t : Nat} {i : Instruction}

theorem Calm.mono {lo' hi' : Nat} (h : Calm parts lo hi) (hlo : lo ≤ lo' := by omega) (hhi : hi' ≤ hi := by omega) :
    Calm parts lo' hi' := by
  intro y hy b hb
  have := h y hy b hb
  unfold Span.Settles at this ⊢
  omega

theorem Calm.together (h : Calm parts lo hi) (hx : lo ≤ x ∧ x ≤ hi) (ht : lo ≤ t ∧ t ≤ hi) : Together parts x t := by
  intro y hy b hb
  have := h y hy b hb
  unfold Span.Settles at this
  unfold Span.Contains
  omega

theorem aimed_plain (hi : i.aim? = none) (hcall : ∀ t, i ≠ .call t) : Aimed R parts n x i := by
  refine ⟨fun t ht => absurd ht (hcall t), ?_, ?_, ?_⟩
  all_goals
    intro t ht
    rw [hi] at ht
    cases ht

theorem aimed_to (hi : i.aim? = some t) (hn : t ≤ n) (hx : x < t) (h : Together parts x t) : Aimed R parts n x i := by
  refine ⟨?_, ?_, ?_, ?_⟩
  · rintro t' rfl
    cases hi
  all_goals
    intro t' ht'
    rw [hi] at ht'
    cases ht'
  · exact hn
  · exact .inl hx
  · exact h

theorem aimed_call {r : Routine} (h : R.routine r) : Aimed R parts n x (.call r.entry) := by
  refine ⟨?_, by rintro _ ⟨⟩, by rintro _ ⟨⟩, by rintro _ ⟨⟩⟩
  rintro _ ⟨⟩
  exact ⟨r, h, rfl⟩

theorem aimed_push {v : Value} (h : v.Plain) : Aimed R parts n x (.pushValue v) := by
  cases v with
  | address a => cases h
  | number | text | boolean | uninitialized => exact aimed_plain rfl (by simp)

end Aimed

/-! ## Expressions -/

section Expressions

variable {R : Rules} {parts : List (Nat × Stmt)} {n : Nat}

theorem aimed_enter {r : Routine} (h : R.routine r) {a : Nat} : EachAt (Aimed R parts n) a r.enter := by
  refine eachAt_of_forall fun i hi b => ?_
  simp only [Routine.enter, bindParameters, List.mem_append, List.mem_flatMap, List.mem_cons, List.not_mem_nil,
    or_false] at hi
  rcases hi with ⟨p, _, rfl | rfl⟩ | rfl | rfl
  · exact aimed_plain rfl (by simp)
  · exact aimed_plain rfl (by simp)
  · exact aimed_call h
  · exact aimed_plain rfl (by simp)

theorem aimed_values {vs : List Value} (h : ∀ v ∈ vs, v.Plain) {a : Nat} :
    EachAt (Aimed R parts n) a (vs.map .pushValue) := by
  refine eachAt_of_forall fun i hi b => ?_
  obtain ⟨v, hv, rfl⟩ := List.mem_map.1 hi
  exact aimed_push (h v hv)

mutual

/-- The addresses in the code of an expression lead onward in it or right behind it. -/
theorem Expr.aimed : (e : Expr) → ∀ {a : Nat}, e.Obeys R → e.Proper R → a + e.size ≤ n → Calm parts a (a + e.size) →
    EachAt (Aimed R parts n) a (e.code a)
  | .literal v, a, _, h, _, _ => .one (aimed_push h)
  | .variable _, _, _, _, _, _ => .one (aimed_plain rfl (by simp))
  | .call r arguments, a, ho, hp, hn, hc => by
    rw [Expr.size] at hn hc
    refine .append (.append (b := a + 1 + sizeOfAll arguments) (.cons (aimed_plain rfl (by simp)) ?_)
      (aimed_enter ho.1) ?_) (.one (aimed_plain rfl (by simp))) rfl
    · exact aimed_all arguments ho.2.2 hp.2 (by omega) hc.mono
    · rw [List.length_cons, length_codeOfAll]
      omega
  | .unary _ e, a, ho, hp, hn, hc => by
    rw [Expr.size] at hn hc
    exact .append (e.aimed ho hp (by omega) hc.mono) (.one (aimed_plain rfl (by simp))) rfl
  | .binary _ l r, a, ho, hp, hn, hc => by
    rw [Expr.size] at hn hc
    exact .append (.append (l.aimed ho.1 hp.1 (by omega) hc.mono)
      (r.aimed ho.2 hp.2 (by omega) hc.mono) (by rw [l.length_code])) (.one (aimed_plain rfl (by simp))) rfl
  | .conjunction first rest, a, ho, hp, hn, hc => by
    rw [Expr.size] at hn hc
    refine eachAt_conjunction.2 ⟨first.aimed ho.1 hp.1 (by omega) hc.mono,
      aimed_rest rest ho.2 hp.2 (by omega) (by omega) hc.mono, ?_⟩
    refine .cons (aimed_to rfl (by omega) (by omega) (hc.together ⟨by omega, by omega⟩ ⟨by omega, by omega⟩)) ?_
    refine .cons (aimed_push trivial) (.cons ?_ (.one (aimed_push trivial)))
    exact aimed_to rfl (by omega) (by omega) (hc.together ⟨by omega, by omega⟩ ⟨by omega, by omega⟩)
  | .choice c x y, a, ho, hp, hn, hc => by
    rw [Expr.size] at hn hc
    refine eachAt_choice.2 ⟨c.aimed ho.1 hp.1 (by omega) hc.mono, .cons ?_ ?_, .cons ?_ ?_⟩
    · exact aimed_to rfl (by omega) (by omega) (hc.together ⟨by omega, by omega⟩ ⟨by omega, by omega⟩)
    · exact x.aimed ho.2.1 hp.2.1 (by omega) hc.mono
    · exact aimed_to rfl (by omega) (by omega) (hc.together ⟨by omega, by omega⟩ ⟨by omega, by omega⟩)
    · exact y.aimed ho.2.2 hp.2.2 (by omega) hc.mono
  | .dialog d slots, a, ho, hp, hn, hc => by
    rw [Expr.size] at hn hc
    refine .append (aimed_slots slots ho hp d.plain_defaults (by omega) hc.mono)
      (.cons (aimed_plain rfl (by simp)) ?_) rfl
    split
    · exact .nil
    · exact .one (aimed_push trivial)

theorem aimed_all : (es : List Expr) → ∀ {a : Nat}, AllObey R es → AllProper R es → a + sizeOfAll es ≤ n →
    Calm parts a (a + sizeOfAll es) → EachAt (Aimed R parts n) a (codeOfAll a es)
  | [], _, _, _, _, _ => .nil
  | e :: rest, a, ho, hp, hn, hc => by
    rw [sizeOfAll] at hn hc
    exact .append (e.aimed ho.1 hp.1 (by omega) hc.mono) (aimed_all rest ho.2 hp.2 (by omega) hc.mono)
      (by rw [e.length_code])

theorem aimed_rest : (es : List Expr) → ∀ {fails a : Nat}, AllObey R es → AllProper R es →
    a + sizeOfRest es < fails → fails ≤ n → Calm parts a fails →
    EachAt (Aimed R parts n) a (codeOfRest fails a es)
  | [], _, _, _, _, _, _, _ => .nil
  | e :: rest, fails, a, ho, hp, hfails, hn, hc => by
    rw [sizeOfRest] at hfails
    refine .append (b := a + 1 + e.size) (.cons ?_ (e.aimed ho.1 hp.1 (by omega) hc.mono))
      (aimed_rest rest ho.2 hp.2 (by omega) hn hc.mono) ?_
    · exact aimed_to rfl hn (by omega) (hc.together ⟨by omega, by omega⟩ ⟨by omega, by omega⟩)
    · rw [List.length_cons, e.length_code]
      omega

theorem aimed_slots : (slots : List Slot) → ∀ {a : Nat} {defaults : List Value}, SlotsObey R slots →
    SlotsProper R slots → (∀ v ∈ defaults, v.Plain) → a + sizeOfSlots defaults slots ≤ n →
    Calm parts a (a + sizeOfSlots defaults slots) → EachAt (Aimed R parts n) a (codeOfSlots a defaults slots)
  | [], _, _, _, _, hd, _, _ => aimed_values hd
  | slot :: rest, a, defaults, ho, hp, hd, hn, hc => by
    rw [sizeOfSlots] at hn hc
    have hlength : (slot.code a defaults.head?).length = slot.size defaults.isEmpty := by
      rw [slot.length_code]
      cases defaults <;> rfl
    refine .append (b := a + slot.size defaults.isEmpty)
      (slot.aimed ho.1 hp.1 (fun v hv => hd v (List.mem_of_mem_head? hv)) ?_ ?_)
      (aimed_slots rest ho.2 hp.2 (fun v hv => hd v (List.mem_of_mem_tail hv)) (by omega) hc.mono) (by rw [hlength])
    · rw [hlength]
      omega
    · rw [hlength]
      exact hc.mono

theorem Slot.aimed : (slot : Slot) → ∀ {a : Nat} {standard : Option Value}, slot.Obeys R → slot.Proper R →
    (∀ v ∈ standard, v.Plain) → a + (slot.code a standard).length ≤ n →
    Calm parts a (a + (slot.code a standard).length) → EachAt (Aimed R parts n) a (slot.code a standard)
  | .omitted, _, none, _, _, _, _, _ => .nil
  | .omitted, _, some v, _, _, hd, _, _ => .one (aimed_push (hd v rfl))
  | .given e, a, standard, ho, hp, _, hn, hc => by
    rw [Slot.code, List.length_append, e.length_code] at hn hc
    refine .append (e.aimed ho hp (by omega) hc.mono) ?_ rfl
    split
    · exact .one (aimed_plain rfl (by simp))
    · exact .nil

end

end Expressions

/-! ## Statements -/

/-- Some of the parts of a script stand between two addresses, and the body of any other routine has all of these
addresses or none of them. -/
structure Lodged (parts : List (Nat × Stmt)) (n : Nat) (own : List (Nat × Stmt)) (lo hi : Nat) : Prop where
  among : own ⊆ parts
  within : hi ≤ n
  settled : ∀ y ∈ parts, y ∈ own ∨ ∀ b, y.2.body? y.1 = some b → b.Settles lo hi

section Lodged

variable {parts own own' : List (Nat × Stmt)} {n lo hi lo' hi' a x t : Nat} {s : Stmt}

theorem Block.calm (b : Block) (h : hi ≤ a ∨ a + b.size ≤ lo) : Calm (b.parts a) lo hi := by
  intro y hy s hs
  have hwithin := b.parts_within hy
  have hbody := Stmt.body_within hs
  unfold Span.Settles
  omega

/-- A routine body in a block has no address outside of the block. -/
theorem Block.together (b : Block) (hx : x ≤ a ∨ a + b.size ≤ x) (ht : t ≤ a ∨ a + b.size ≤ t) :
    Together (b.parts a) x t := by
  intro y hy s hs
  have hwithin := b.parts_within hy
  have hbody := Stmt.body_within hs
  unfold Span.Contains
  omega

theorem calm_cons (hs : s.body? a = none) (h : Calm own lo hi) : Calm ((a, s) :: own) lo hi := by
  refine List.forall_mem_cons.2 ⟨fun b hb => ?_, h⟩
  rw [hs] at hb
  cases hb

theorem together_cons (hs : s.body? a = none) (h : Together own x t) : Together ((a, s) :: own) x t := by
  refine List.forall_mem_cons.2 ⟨fun b hb => ?_, h⟩
  rw [hs] at hb
  cases hb

theorem Lodged.calm (h : Lodged parts n own lo hi) (hown : Calm own lo' hi') (hlo : lo ≤ lo' := by omega)
    (hhi : hi' ≤ hi := by omega) : Calm parts lo' hi' := by
  intro y hy b hb
  rcases h.settled y hy with hy | hy
  · exact hown y hy b hb
  · have := hy b hb
    unfold Span.Settles at this ⊢
    omega

theorem Lodged.together (h : Lodged parts n own lo hi) (hown : Together own x t) (hx : lo ≤ x ∧ x ≤ hi)
    (ht : lo ≤ t ∧ t ≤ hi) : Together parts x t := by
  intro y hy b hb
  rcases h.settled y hy with hy | hy
  · exact hown y hy b hb
  · have := hy b hb
    unfold Span.Settles at this
    unfold Span.Contains
    omega

theorem Lodged.narrow (h : Lodged parts n own lo hi) (hsub : own' ⊆ own)
    (hown : ∀ y ∈ own, y ∈ own' ∨ ∀ b, y.2.body? y.1 = some b → b.Settles lo' hi') (hlo : lo ≤ lo' := by omega)
    (hhi : hi' ≤ hi := by omega) : Lodged parts n own' lo' hi' := by
  refine ⟨fun y hy => h.among (hsub hy), Nat.le_trans hhi h.within, fun y hy => ?_⟩
  rcases h.settled y hy with hy | hy
  · exact hown y hy
  · refine .inr fun b hb => ?_
    have := hy b hb
    unfold Span.Settles at this ⊢
    omega

/-- The block inside of a statement that is no routine. -/
theorem Lodged.block {b : Block} {start : Nat} (h : Lodged parts n ((a, s) :: b.parts start) lo hi)
    (hs : s.body? a = none) (hlo : lo ≤ start := by omega) (hhi : start + b.size ≤ hi := by omega) :
    Lodged parts n (b.parts start) start (start + b.size) := by
  refine h.narrow (List.subset_cons_self ..) (List.forall_mem_cons.2 ⟨.inr fun b hb => ?_, fun y hy => .inl hy⟩)
  rw [hs] at hb
  cases hb

/-- The addresses of a statement that is no routine are in the same routine bodies if they are outside of its block. -/
theorem Lodged.around {b : Block} {start : Nat} (h : Lodged parts n ((a, s) :: b.parts start) lo hi)
    (hs : s.body? a = none) (hx : lo ≤ x ∧ x ≤ start ∨ start + b.size ≤ x ∧ x ≤ hi)
    (ht : lo ≤ t ∧ t ≤ start ∨ start + b.size ≤ t ∧ t ≤ hi) (hlo : lo ≤ start := by omega)
    (hhi : start + b.size ≤ hi := by omega) : Together parts x t := by
  refine h.together (together_cons hs (b.together ?_ ?_)) ⟨by omega, by omega⟩ ⟨by omega, by omega⟩
  · omega
  · omega

end Lodged

section Loops

variable {R : Rules} {parts : List (Nat × Stmt)} {n a : Nat}

theorem aimed_back {i : Instruction} {y : Nat × Stmt} {c : Circuit} (hi : i.aim? = some c.again) (hy : y ∈ parts)
    (hc : y.2.circuit? y.1 = some c) (hn : c.again ≤ n) (h : Together parts c.close c.again) :
    Aimed R parts n c.close i := by
  refine ⟨?_, ?_, ?_, ?_⟩
  · rintro t rfl
    cases hi
  all_goals
    intro t ht
    rw [hi] at ht
    cases ht
  · exact hn
  · exact .inr ⟨y, hy, c, hc, rfl, rfl⟩
  · exact h

theorem aimed_test {counter : String} : EachAt (Aimed R parts n) a (countTest counter) := by
  refine eachAt_of_forall fun i hi b => ?_
  simp only [countTest, List.mem_cons, List.not_mem_nil, or_false] at hi
  rcases hi with rfl | rfl | rfl | rfl | rfl | rfl | rfl
  all_goals first | exact aimed_push trivial | exact aimed_plain rfl (by simp)

theorem aimed_step {step : Option Expr} (ho : ∀ e ∈ step, e.Obeys R) (hp : ∀ e ∈ step, e.Proper R)
    (hn : a + stepSize step ≤ n) (hc : Calm parts a (a + stepSize step)) :
    EachAt (Aimed R parts n) a (stepCode a step) := by
  cases step with
  | none => exact .one (aimed_push trivial)
  | some e => exact e.aimed (ho e rfl) (hp e rfl) hn hc

theorem aimed_open {counter : String} {start limit : Expr} {step : Option Expr} {done : Nat} (hstart : start.Obeys R)
    (hlimit : limit.Obeys R) (hstep : ∀ e ∈ step, e.Obeys R) (hstart' : start.Proper R) (hlimit' : limit.Proper R)
    (hstep' : ∀ e ∈ step, e.Proper R) (hagain : a + countHeadSize start limit step ≤ done) (hdone : done < n)
    (hc : Calm parts a (a + countHeadSize start limit step))
    (hexit : ∀ x : Nat, a ≤ x → x < a + countHeadSize start limit step →
      Together parts x done ∧ Together parts x (done + 1)) :
    EachAt (Aimed R parts n) a (openCode a counter start limit step done) := by
  unfold countHeadSize at hagain hc hexit
  refine eachAt_openCode.2 ⟨start.aimed hstart hstart' (by omega) hc.mono, .cons (aimed_plain rfl (by simp)) ?_, ?_, ?_⟩
  · exact limit.aimed hlimit hlimit' (by omega) hc.mono
  · exact aimed_step hstep hstep' (by omega) hc.mono
  · refine .cons (aimed_to rfl (by omega) (by omega) (hexit _ (by omega) (by omega)).2) ?_
    refine .append aimed_test (.one (aimed_to rfl (by omega) ?_ (hexit _ ?_ ?_).1)) rfl
    all_goals
      simp only [length_countTest]
      omega

/-- The branch at the head of a loop leads to the end of the loop. -/
theorem aimed_head {head : Option Guard} {exit : Nat} (ho : ∀ g ∈ head, g.condition.Obeys R)
    (hp : ∀ g ∈ head, g.condition.Proper R) (hexit : a + headSize head ≤ exit) (hn : exit ≤ n)
    (hc : Calm parts a (a + headSize head))
    (h : ∀ x : Nat, a ≤ x → x < a + headSize head → Together parts x exit) :
    EachAt (Aimed R parts n) a (headCode a exit head) := by
  cases head with
  | none => exact .nil
  | some g =>
    unfold headSize at hexit hc h
    simp only at hexit hc h
    refine .append (b := a + g.condition.size) (g.condition.aimed (ho g rfl) (hp g rfl) (by omega) hc.mono)
      (.one ?_) (by simp)
    have htogether := h (a + g.condition.size) (by omega) (by omega)
    split
    · exact aimed_to rfl hn (by omega) htogether
    · exact aimed_to rfl hn (by omega) htogether

/-- The branch that closes a loop is its last one. -/
theorem aimed_tail {tail : Option Guard} {y : Nat × Stmt} {c : Circuit} (ho : ∀ g ∈ tail, g.condition.Obeys R)
    (hp : ∀ g ∈ tail, g.condition.Proper R) (hy : y ∈ parts) (hcircuit : y.2.circuit? y.1 = some c)
    (hclose : c.close + 1 = a + tailSize tail) (hagain : c.again ≤ a) (hn : a + tailSize tail ≤ n)
    (hc : Calm parts a (a + tailSize tail)) (h : Together parts c.close c.again) :
    EachAt (Aimed R parts n) a (tailCode a c.again tail) := by
  cases tail with
  | none =>
    obtain rfl : c.close = a := Nat.succ.inj hclose
    exact .one (aimed_back rfl hy hcircuit (by omega) h)
  | some g =>
    unfold tailSize at hn hc hclose
    simp only at hn hc hclose
    refine .append (b := c.close) (g.condition.aimed (ho g rfl) (hp g rfl) (by omega) hc.mono) (.one ?_) ?_
    · split
      · exact aimed_back rfl hy hcircuit (by omega) h
      · exact aimed_back rfl hy hcircuit (by omega) h
    · rw [g.condition.length_code]
      omega

end Loops

section Statements

variable {R : Rules} {parts : List (Nat × Stmt)} {n : Nat}

mutual

/-- The addresses in the code of a statement lead where they may. -/
theorem Stmt.aimed : (s : Stmt) → ∀ {a : Nat} {p : Position} {loops : List Loop} {inside : Bool},
    s.Obeys R loops inside → s.Proper R → Lodged parts n ((a, s) :: s.inner a) a (a + s.size) →
    EachAt (Aimed R parts n) a (instructionsOf (s.lines a p))
  | .share _, _, _, _, _, _, _, _ => .nil
  | .declare names, a, p, _, _, _, _, _ => by
    rw [Stmt.lines, instructionsOf_mark]
    refine eachAt_of_forall fun i hi b => ?_
    obtain ⟨name, _, rfl⟩ := List.mem_map.1 hi
    exact aimed_plain rfl (by simp)
  | .constants definitions, a, p, _, _, _, _, _ => by
    rw [Stmt.lines, instructionsOf_mark]
    refine eachAt_of_forall fun i hi b => ?_
    obtain ⟨d, _, rfl⟩ := List.mem_map.1 hi
    exact aimed_plain rfl (by simp)
  | .routine isFunction name parameters body, a, p, _, _, ho, hp, h => by
    have hhead := routineHeadSize_pos isFunction
    have hself := Stmt.body_within (s := .routine isFunction name parameters body) (a := a) rfl
    have hn := h.within
    rw [Stmt.size] at h hn
    -- the body of the routine itself has all of the block in it
    have hbody : Lodged parts n (body.parts (a + routineHeadSize isFunction)) (a + routineHeadSize isFunction)
        (a + routineHeadSize isFunction + body.size) := by
      refine h.narrow (List.subset_cons_self ..) (List.forall_mem_cons.2 ⟨.inr ?_, fun y hy => .inl hy⟩)
      rintro _ ⟨⟩
      exact .inr (.inr ⟨Nat.le_refl _, Nat.lt_succ_self _⟩)
    have hjump {x : Nat} (hx : a ≤ x) (hx' : x < a + routineHeadSize isFunction) :
        Aimed R parts n x (.jump (a + routineHeadSize isFunction + body.size + 1)) := by
      refine aimed_to rfl (by omega) (by omega) (h.together ?_ ⟨hx, by omega⟩ ⟨by omega, by omega⟩)
      refine List.forall_mem_cons.2 ⟨?_, body.together (.inl (by omega)) (.inr (by omega))⟩
      rintro _ ⟨⟩
      unfold Span.Contains
      simp only
      omega
    refine eachAt_routine.2 ⟨?_, body.aimed ho.2.2 hp hbody, .one (aimed_plain rfl (by simp))⟩
    cases isFunction with
    | true => exact .cons (aimed_plain rfl (by simp)) (.one (hjump (Nat.le_succ a) (Nat.lt_succ_self _)))
    | false => exact .one (hjump (Nat.le_refl a) (Nat.lt_succ_self a))
  | .branch c yes, a, p, _, _, ho, hp, h => by
    have hn := h.within
    rw [Stmt.size] at h hn
    have hc : Calm parts a (a + c.size) := h.calm (calm_cons rfl (yes.calm (.inl (by omega))))
    refine eachAt_branch.2 ⟨.append (b := a + c.size) (c.aimed ho.1 hp.1 (by omega) hc) (.one ?_) (by simp),
      yes.aimed ho.2 hp.2 (h.block rfl)⟩
    refine aimed_to rfl (by omega) (by omega) (h.together ?_ ⟨by omega, by omega⟩ ⟨by omega, by omega⟩)
    exact together_cons rfl (yes.together (.inl (by omega)) (.inr (by omega)))
  | .branchElse c yes no, a, p, _, _, ho, hp, h => by
    have hn := h.within
    rw [Stmt.size] at h hn
    have hc : Calm parts a (a + c.size) := by
      refine h.calm (calm_cons rfl (List.forall_mem_append.2 ⟨?_, ?_⟩))
      · exact yes.calm (.inl (by omega))
      · exact no.calm (.inl (by omega))
    -- the routines in one branch lie wholly before or behind the other one
    have hyes : Lodged parts n (yes.parts (a + c.size + 1)) (a + c.size + 1) (a + c.size + 1 + yes.size) := by
      refine h.narrow (fun y hy => List.mem_cons_of_mem _ (List.mem_append_left _ hy)) ?_
      refine List.forall_mem_cons.2 ⟨.inr nofun, List.forall_mem_append.2 ⟨fun y hy => .inl hy, fun y hy => .inr ?_⟩⟩
      exact no.calm (.inl (by omega)) y hy
    have hno : Lodged parts n (no.parts (a + c.size + 1 + yes.size + 1)) (a + c.size + 1 + yes.size + 1)
        (a + c.size + 1 + yes.size + 1 + no.size) := by
      refine h.narrow (fun y hy => List.mem_cons_of_mem _ (List.mem_append_right _ hy)) ?_
      refine List.forall_mem_cons.2 ⟨.inr nofun, List.forall_mem_append.2 ⟨fun y hy => .inr ?_, fun y hy => .inl hy⟩⟩
      exact yes.calm (.inr (by omega)) y hy
    refine eachAt_branchElse.2 ⟨.append (b := a + c.size) (c.aimed ho.1 hp.1 (by omega) hc) (.one ?_) (by simp),
      yes.aimed ho.2.1 hp.2.1 hyes, .one ?_, no.aimed ho.2.2 hp.2.2 hno⟩
    · refine aimed_to rfl (by omega) (by omega) (h.together ?_ ⟨by omega, by omega⟩ ⟨by omega, by omega⟩)
      refine together_cons rfl (List.forall_mem_append.2 ⟨?_, ?_⟩)
      · exact yes.together (.inl (by omega)) (.inr (by omega))
      · exact no.together (.inl (by omega)) (.inl (by omega))
    · refine aimed_to rfl (by omega) (by omega) (h.together ?_ ⟨by omega, by omega⟩ ⟨by omega, by omega⟩)
      refine together_cons rfl (List.forall_mem_append.2 ⟨?_, ?_⟩)
      · exact yes.together (.inr (by omega)) (.inr (by omega))
      · exact no.together (.inl (by omega)) (.inr (by omega))
  | .countLoop counter start limit step body, a, p, _, _, ho, hp, h => by
    obtain ⟨_, hstart, hlimit, hstep, hbody⟩ := ho
    obtain ⟨_, hstart', hlimit', hstep', hbody'⟩ := hp
    have hself := h.among (List.mem_cons_self ..)
    have hn := h.within
    rw [Stmt.size] at h hn
    have hc : Calm parts a (a + countHeadSize start limit step) := h.calm (calm_cons rfl (body.calm (.inl (by omega))))
    refine eachAt_countLoop.2 ⟨?_, body.aimed hbody hbody' (h.block rfl), eachAt_closeCode.2 ⟨?_, aimed_test, ?_⟩⟩
    · refine aimed_open hstart hlimit hstep hstart' hlimit' hstep' (by omega) (by omega) hc fun x hx hx' => ⟨?_, ?_⟩
      · exact h.around rfl (.inl ⟨hx, by omega⟩) (.inr ⟨by omega, by omega⟩)
      · exact h.around rfl (.inl ⟨hx, by omega⟩) (.inr ⟨by omega, by omega⟩)
    · exact .cons (aimed_plain rfl (by simp)) (.cons (aimed_plain rfl (by simp)) (.cons (aimed_plain rfl (by simp))
        (.one (aimed_plain rfl (by simp)))))
    -- the jump back stays in the span of the loop itself
    · refine .cons (aimed_back rfl hself rfl (by simp only; omega) (h.around rfl (.inr ?_) (.inl ?_)))
        (.cons (aimed_plain rfl (by simp)) (.cons (aimed_plain rfl (by simp)) (.one (aimed_plain rfl (by simp)))))
      · exact ⟨by simp only; omega, by simp only; omega⟩
      · exact ⟨by simp only; omega, Nat.le_refl _⟩
  | .guardLoop head body tail, a, p, _, _, ho, hp, h => by
    obtain ⟨hhead, hbody, htail⟩ := ho
    obtain ⟨hhead', hbody', htail'⟩ := hp
    have hself := h.among (List.mem_cons_self ..)
    have hn := h.within
    have hpos := tailSize_pos tail
    rw [Stmt.size] at h hn
    refine eachAt_guardLoop.2 ⟨.cons ?_ ?_, body.aimed hbody hbody' (h.block rfl),
      .append ?_ (.one (aimed_plain rfl (by simp))) rfl⟩
    · refine aimed_to rfl (by omega) (by omega) (h.around rfl (.inl ?_) (.inr ⟨by omega, by omega⟩))
      exact ⟨Nat.le_refl a, by omega⟩
    · refine aimed_head hhead hhead' (by omega) (by omega) ?_ fun x hx hx' => ?_
      · exact h.calm (calm_cons rfl (body.calm (.inl (by omega))))
      · exact h.around rfl (.inl ⟨by omega, by omega⟩) (.inr ⟨by omega, by omega⟩)
    · refine aimed_tail htail htail' hself rfl (by simp only; omega) (by simp only; omega) (by omega) ?_ ?_
      · exact h.calm (calm_cons rfl (body.calm (.inr (by omega))))
      · refine h.around rfl (.inr ⟨by simp only; omega, by simp only; omega⟩) (.inl ⟨by simp only; omega, ?_⟩)
        simp only
        omega
  | .exitLoop kind inner, a, p, _, _, _, _, _ => by
    rw [Stmt.lines, instructionsOf_mark]
    refine eachAt_of_forall fun i hi b => ?_
    rcases List.mem_append.1 hi with hi | hi
    · rw [List.eq_of_mem_replicate hi]
      exact aimed_plain rfl (by simp)
    · rw [List.mem_singleton.1 hi]
      exact aimed_plain rfl (by simp)
  | .exitRoutine, _, _, _, _, _, _, _ | .notify _, _, _, _, _, _, _, _ => .one (aimed_plain rfl (by simp))
  | .print none, a, p, _, _, _, _, _ => .cons (aimed_push trivial) (.one (aimed_plain rfl (by simp)))
  | .print (some e), a, p, _, _, ho, hp, h => by
    have hn := h.within
    rw [Stmt.size, printSize] at h hn
    rw [Stmt.lines, instructionsOf_mark]
    refine .append (e.aimed (ho e rfl) (hp e rfl) (by omega) ?_) (.one (aimed_plain rfl (by simp))) rfl
    exact h.calm (calm_cons rfl nofun)
  | .dialog d slots, a, p, _, _, ho, hp, h => by
    have hn := h.within
    rw [Stmt.size] at h hn
    rw [Stmt.lines, instructionsOf_mark]
    refine .append (aimed_slots slots ho hp d.plain_defaults (by omega) (h.calm (calm_cons rfl nofun)))
      (.cons (aimed_plain rfl (by simp)) ?_) rfl
    split
    · exact .one (aimed_plain rfl (by simp))
    · exact .nil
  | .assign name none e, a, p, _, _, ho, hp, h => by
    have hn := h.within
    rw [Stmt.size] at h hn
    rw [Stmt.lines, instructionsOf_mark]
    refine .append (e.aimed ho.2 hp.2 (by omega) ?_) (.one (aimed_plain rfl (by simp))) rfl
    exact h.calm (calm_cons rfl nofun)
  | .assign name (some op) e, a, p, _, _, ho, hp, h => by
    have hn := h.within
    simp only [Stmt.size, Option.isSome_some, if_true] at h hn
    rw [Stmt.lines, instructionsOf_mark]
    refine .cons (aimed_plain rfl (by simp)) (.append (e.aimed ho.2 hp.2 (by omega) ?_) ?_ rfl)
    · exact h.calm (calm_cons rfl nofun)
    · exact .cons (aimed_plain rfl (by simp)) (.one (aimed_plain rfl (by simp)))
  | .call r arguments, a, p, _, _, ho, hp, h => by
    have hn := h.within
    rw [Stmt.size] at h hn
    rw [Stmt.lines, instructionsOf_mark]
    refine .cons (aimed_plain rfl (by simp))
      (.append (aimed_all arguments ho.2.2 hp (by omega) ?_) (aimed_enter ho.1) rfl)
    exact h.calm (calm_cons rfl nofun)

theorem Block.aimed : (b : Block) → ∀ {a : Nat} {loops : List Loop} {inside : Bool}, b.Obeys R loops inside →
    b.Proper R → Lodged parts n (b.parts a) a (a + b.size) → EachAt (Aimed R parts n) a (instructionsOf (b.lines a))
  | .nil, _, _, _, _, _, _ => .nil
  | .cons p first rest, a, _, _, ho, hp, h => by
    rw [Block.size] at h
    -- the routines in either part are behind the other one or before it
    have hfirst : Lodged parts n ((a, first) :: first.inner a) a (a + first.size) := by
      refine h.narrow (List.subset_append_left ..) (List.forall_mem_append.2 ⟨fun y hy => .inl hy, fun y hy => .inr ?_⟩)
      exact rest.calm (.inl (Nat.le_refl _)) y hy
    have hrest : Lodged parts n (rest.parts (a + first.size)) (a + first.size) (a + first.size + rest.size) := by
      refine h.narrow (List.subset_append_right ..)
        (List.forall_mem_append.2 ⟨fun y hy => .inr ?_, fun y hy => .inl hy⟩)
      exact (Block.cons p first .nil).calm (.inr (by simp [Block.size])) y (List.mem_append_left _ hy)
    exact eachAt_cons.2 ⟨first.aimed ho.1 hp.1 hfirst, rest.aimed ho.2 hp.2 hrest⟩

end

end Statements

end MacroBasic
