/-
Where the lines of a script come from. Every instruction is that of one statement, the innermost one that it is code
of. Its line bears the place of the statement that was begun last when the instruction was made: that of its own
statement if no statement inside of it stands in front of the instruction, and else that of the last such one.
-/
import MacroBasic.Proofs.Grammar.Branches
import MacroBasic.Proofs.Grammar.LikeScripts
import MacroBasic.Proofs.Grammar.Wording

namespace MacroBasic

/-! ## Statements with their places -/

/-- A statement of a script, with the address of its code and the place where it begins in the text. -/
structure Written where
  address : Nat
  place : Position
  stmt : Stmt

mutual

/-- The statements inside of a statement at address `a`, in the order of the text. -/
def Stmt.nested (a : Nat) : Stmt → List Written
  | .routine isFunction _ _ body => body.written (a + routineHeadSize isFunction)
  | .branch c yes => yes.written (a + c.size + 1)
  | .branchElse c yes no => yes.written (a + c.size + 1) ++ no.written (a + c.size + 1 + yes.size + 1)
  | .countLoop _ start limit step body => body.written (a + countHeadSize start limit step)
  | .guardLoop head body _ => body.written (a + 1 + headSize head)
  | _ => []

/-- The statements in a block at address `a`, and those inside of them. -/
def Block.written (a : Nat) : Block → List Written
  | .nil => []
  | .cons p first rest => ⟨a, p, first⟩ :: first.nested a ++ rest.written (a + first.size)

end

/-- The place of the last of some statements, or `p` if there is none. -/
def lastPlaceOf (p : Position) (ws : List Written) : Position := (ws.map Written.place).getLast?.getD p

namespace Written

/-- The statements inside of a statement. -/
def inside (w : Written) : List Written := w.stmt.nested w.address

/-- An address is in the code of a statement. -/
def Covers (w : Written) (x : Nat) : Prop := w.address ≤ x ∧ x < w.address + w.stmt.size

/-- An address is that of an instruction for the statement itself, and not for one inside of it. -/
structure Owns (w : Written) (x : Nat) : Prop where
  covers : w.Covers x
  own : ∀ v ∈ w.inside, ¬ v.Covers x

instance (w : Written) (x : Nat) : Decidable (w.Covers x) := inferInstanceAs (Decidable (_ ∧ _))

instance (w : Written) (x : Nat) : Decidable (w.Owns x) :=
  decidable_of_iff (w.Covers x ∧ ∀ v ∈ w.inside, ¬ v.Covers x) ⟨fun h => ⟨h.1, h.2⟩, fun h => ⟨h.covers, h.own⟩⟩

/-- The place that is recorded for an instruction of a statement: the one of the last statement inside of it of which
the code ends in front of the instruction, or its own if there is none. -/
def recorded (w : Written) (x : Nat) : Position :=
  lastPlaceOf w.place (w.inside.filter fun v => v.address + v.stmt.size ≤ x)

end Written

/-! ## Where the statements are -/

mutual

theorem Stmt.map_nested : (s : Stmt) → ∀ a : Nat, (s.nested a).map (fun w => (w.address, w.stmt)) = s.inner a
  | .routine isFunction _ _ body, a => body.map_written _
  | .branch c yes, a => yes.map_written _
  | .branchElse c yes no, a => by rw [Stmt.nested, List.map_append, yes.map_written, no.map_written]; rfl
  | .countLoop _ start limit step body, a => body.map_written _
  | .guardLoop head body _, a => body.map_written _
  | .share _, _ | .declare _, _ | .constants _, _ | .exitLoop _ _, _ | .exitRoutine, _ | .print _, _ | .notify _, _
  | .dialog _ _, _ | .assign _ _ _, _ | .call _ _, _ => rfl

theorem Block.map_written : (b : Block) → ∀ a : Nat, (b.written a).map (fun w => (w.address, w.stmt)) = b.parts a
  | .nil, _ => rfl
  | .cons _ first rest, a => by
    rw [Block.written, List.map_append, List.map_cons, first.map_nested, rest.map_written]
    rfl

end

theorem Block.written_within {b : Block} {a : Nat} {w : Written} (h : w ∈ b.written a) :
    a ≤ w.address ∧ w.address + w.stmt.size ≤ a + b.size :=
  b.parts_within (y := (w.address, w.stmt)) (b.map_written a ▸ List.mem_map_of_mem h)

theorem Stmt.nested_within {s : Stmt} {a : Nat} {w : Written} (h : w ∈ s.nested a) :
    a < w.address ∧ w.address + w.stmt.size ≤ a + s.size :=
  s.inner_within (y := (w.address, w.stmt)) (s.map_nested a ▸ List.mem_map_of_mem h)

/-! ## The statement that begins last -/

@[simp] theorem lastPlaceOf_nil (p : Position) : lastPlaceOf p [] = p := rfl

theorem lastPlaceOf_cons (p : Position) (w : Written) (ws : List Written) :
    lastPlaceOf p (w :: ws) = lastPlaceOf w.place ws := by
  simp [lastPlaceOf, List.getLast?_cons]

theorem lastPlaceOf_append (p : Position) (ws ws' : List Written) :
    lastPlaceOf p (ws ++ ws') = lastPlaceOf (lastPlaceOf p ws) ws' := by
  induction ws generalizing p with
  | nil => rfl
  | cons w ws ih => rw [List.cons_append, lastPlaceOf_cons, lastPlaceOf_cons, ih]

mutual

theorem Stmt.lastPlace_eq : (s : Stmt) → ∀ (a : Nat) (p : Position), s.lastPlace p = lastPlaceOf p (s.nested a)
  | .routine _ _ _ body, _, p => body.lastPlace_eq _ p
  | .branch _ yes, _, p => yes.lastPlace_eq _ p
  | .branchElse c yes no, a, p => by
    rw [Stmt.nested, lastPlaceOf_append, ← yes.lastPlace_eq, ← no.lastPlace_eq]
    rfl
  | .countLoop _ _ _ _ body, _, p => body.lastPlace_eq _ p
  | .guardLoop _ body _, _, p => body.lastPlace_eq _ p
  | .share _, _, _ | .declare _, _, _ | .constants _, _, _ | .exitLoop _ _, _, _ | .exitRoutine, _, _ | .print _, _, _
  | .notify _, _, _ | .dialog _ _, _, _ | .assign _ _ _, _, _ | .call _ _, _, _ => rfl

theorem Block.lastPlace_eq : (b : Block) → ∀ (a : Nat) (p : Position), b.lastPlace p = lastPlaceOf p (b.written a)
  | .nil, _, _ => rfl
  | .cons q first rest, a, p => by
    rw [Block.written, lastPlaceOf_append, lastPlaceOf_cons, ← first.lastPlace_eq, ← rest.lastPlace_eq]
    rfl

end

/-! ## Lines and the statements they come from -/

/-- Each of the lines from an address on is for one of the given statements, and bears the place that is recorded for
it. -/
def Recorded (ws : List Written) (a : Nat) (lines : List Line) : Prop :=
  ∀ i line, lines[i]? = some line → ∃ w ∈ ws, w.Owns (a + i) ∧ line.position = w.recorded (a + i)

namespace Recorded

variable {ws ws' : List Written} {a : Nat} {lines lines' : List Line}

theorem mono (h : Recorded ws a lines) (hws : ws ⊆ ws') : Recorded ws' a lines := fun i line hline =>
  (h i line hline).imp fun _ hw => ⟨hws hw.1, hw.2⟩

theorem append {b : Nat} (h : Recorded ws a lines) (h' : Recorded ws b lines') (hb : a + lines.length = b) :
    Recorded ws a (lines ++ lines') := by
  subst hb
  intro i line hline
  rcases Nat.lt_or_ge i lines.length with hi | hi
  · rw [List.getElem?_append_left hi] at hline
    exact h i line hline
  · rw [List.getElem?_append_right hi] at hline
    have := h' (i - lines.length) line hline
    rwa [Nat.add_assoc, Nat.add_sub_cancel' hi] at this

/-- Lines for a statement itself, with some of the statements inside of it in front of them and the other ones behind
them. They bear the place of the last one in front of them. -/
theorem mark {w : Written} (front behind : List Written) {p : Position} {code : List Instruction} (hw : w ∈ ws)
    (hinside : w.inside = front ++ behind) (hp : p = lastPlaceOf w.place front) (hstart : w.address ≤ a)
    (hend : a + code.length ≤ w.address + w.stmt.size) (hfront : ∀ v ∈ front, v.address + v.stmt.size ≤ a)
    (hbehind : ∀ v ∈ behind, a + code.length ≤ v.address) : Recorded ws a (mark p code) := by
  intro i line hline
  obtain ⟨hi, hline⟩ := List.getElem?_eq_some_iff.1 hline
  rw [length_mark] at hi
  have hposition : line.position = p := by rw [← hline]; simp [MacroBasic.mark]
  refine ⟨w, hw, ⟨⟨by omega, by omega⟩, ?_⟩, ?_⟩
  · -- The lines lie between the code of the statements in front and the code of those behind.
    rw [hinside, List.forall_mem_append]
    refine ⟨fun v hv hcovers => ?_, fun v hv hcovers => ?_⟩
    · have := hfront v hv
      have := hcovers.2
      omega
    · have := hbehind v hv
      have := hcovers.1
      omega
  · have hkept : w.inside.filter (fun v => v.address + v.stmt.size ≤ a + i) = front := by
      rw [hinside, List.filter_append, List.filter_eq_self.2, List.filter_eq_nil_iff.2, List.append_nil]
      · intro v hv
        have := hbehind v hv
        simp only [decide_eq_true_eq]
        omega
      · intro v hv
        have := hfront v hv
        simp only [decide_eq_true_eq]
        omega
    rw [hposition, hp, Written.recorded, hkept]

end Recorded

/-- A statement without a block in it. -/
theorem Stmt.recorded_simple {s : Stmt} {a : Nat} {p : Position} {code : List Instruction}
    (hlines : s.lines a p = mark p code) (hnested : s.nested a = []) :
    Recorded (⟨a, p, s⟩ :: s.nested a) a (s.lines a p) := by
  have hlength : code.length = s.size := by rw [← length_mark p code, ← hlines, s.length_lines]
  rw [hlines]
  exact .mark (w := ⟨a, p, s⟩) [] [] List.mem_cons_self hnested rfl (Nat.le_refl a)
    (Nat.le_of_eq (congrArg (a + ·) hlength)) nofun nofun

mutual

/-- Each line of a statement is for it or for a statement inside of it, and bears the place recorded there. -/
theorem Stmt.recorded : (s : Stmt) → ∀ (a : Nat) (p : Position), Recorded (⟨a, p, s⟩ :: s.nested a) a (s.lines a p)
  | .routine isFunction name parameters body, a, p => by
    -- Head, body, end: the lines of the head have no statement in front of them, those of the end the whole body.
    have hhead : ((if isFunction then [Instruction.allocVar name] else []) ++
        [Instruction.jump (a + routineHeadSize isFunction + body.size + 1)]).length = routineHeadSize isFunction := by
      cases isFunction <;> rfl
    have hself : (⟨a, p, .routine isFunction name parameters body⟩ : Written) ∈
      ⟨a, p, .routine isFunction name parameters body⟩ :: body.written (a + routineHeadSize isFunction) :=
      List.mem_cons_self
    refine .append (b := a + routineHeadSize isFunction + body.size) (.append (b := a + routineHeadSize isFunction)
      (.mark [] _ hself rfl rfl (Nat.le_refl a) ?_ nofun fun v hv => ?_)
      ((body.recorded _).mono (List.subset_cons_self ..)) (by simp [hhead]))
      (.mark _ [] hself (List.append_nil _).symm (body.lastPlace_eq _ p) ?_ ?_ (fun v hv => ?_) nofun) ?_
    · rw [hhead]
      simp only [Stmt.size]
      omega
    · rw [hhead]
      exact (Block.written_within hv).1
    · simp only
      omega
    · simp only [Stmt.size, List.length_singleton]
      omega
    · exact (Block.written_within hv).2
    · simp [hhead]
      omega
  | .branch c yes, a, p => by
    refine .append (b := a + c.size + 1) (.mark [] _ List.mem_cons_self rfl rfl (Nat.le_refl a) ?_ nofun
      fun v hv => ?_) ((yes.recorded _).mono (List.subset_cons_self ..)) (by simp; omega)
    · simp [Stmt.size]
    · have hyes := (Block.written_within hv).1
      simp only [List.length_append, Expr.length_code, List.length_singleton]
      exact hyes
  | .branchElse c yes no, a, p => by
    -- Condition, first branch, jump, second branch: the jump has the first branch in front of it.
    have hyes := (yes.recorded (a + c.size + 1)).mono (List.subset_append_left _
      (no.written (a + c.size + 1 + yes.size + 1)))
    have hno := (no.recorded (a + c.size + 1 + yes.size + 1)).mono (List.subset_append_right
      (yes.written (a + c.size + 1)) _)
    refine .append (b := a + c.size + 1 + yes.size + 1) (.append (b := a + c.size + 1 + yes.size)
      (.append (b := a + c.size + 1) (.mark [] _ List.mem_cons_self rfl rfl (Nat.le_refl a) ?_ nofun
        fun v hv => ?_) (hyes.mono (List.subset_cons_self ..)) (by simp; omega))
      (.mark _ _ List.mem_cons_self rfl (yes.lastPlace_eq _ p) ?_ ?_ (fun v hv => ?_) fun v hv => ?_) (by simp; omega))
      (hno.mono (List.subset_cons_self ..)) (by simp; omega)
    · simp [Stmt.size]
      omega
    · have hlength : (c.code a ++ [Instruction.jumpFalse (a + c.size + 1 + yes.size + 1)]).length = c.size + 1 := by
        simp
      rw [hlength]
      rcases List.mem_append.1 hv with hv | hv
      · exact (Block.written_within hv).1
      · have hno := (Block.written_within hv).1
        dsimp only at hno ⊢
        omega
    · simp only
      omega
    · simp [Stmt.size]
      omega
    · exact (Block.written_within hv).2
    · exact (Block.written_within hv).1
  | .countLoop counter start limit step body, a, p => by
    refine .append (b := a + countHeadSize start limit step + body.size)
      (.append (b := a + countHeadSize start limit step)
        (.mark [] _ List.mem_cons_self rfl rfl (Nat.le_refl a) ?_ nofun fun v hv => ?_)
        ((body.recorded _).mono (List.subset_cons_self ..)) ?_)
      (.mark _ [] List.mem_cons_self (List.append_nil _).symm (body.lastPlace_eq _ p) ?_ ?_ (fun v hv => ?_)
        nofun) ?_
    · simp [Stmt.size, countHeadSize]
      omega
    · have := (Block.written_within hv).1
      simp [countHeadSize] at this ⊢
      omega
    · simp [countHeadSize]
      omega
    · simp only
      omega
    · simp [Stmt.size]
      omega
    · exact (Block.written_within hv).2
    · simp [countHeadSize]
      omega
  | .guardLoop head body tail, a, p => by
    refine .append (b := a + 1 + headSize head + body.size) (.append (b := a + 1 + headSize head)
        (.mark [] _ List.mem_cons_self rfl rfl (Nat.le_refl a) ?_ nofun fun v hv => ?_)
        ((body.recorded _).mono (List.subset_cons_self ..)) ?_)
      (.mark _ [] List.mem_cons_self (List.append_nil _).symm (body.lastPlace_eq _ p) ?_ ?_ (fun v hv => ?_)
        nofun) ?_
    · simp [Stmt.size]
      omega
    · have hbody := (Block.written_within hv).1
      simp only [List.length_cons, length_headCode] at hbody ⊢
      omega
    · simp
      omega
    · simp only
      omega
    · simp [Stmt.size]
      omega
    · exact (Block.written_within hv).2
    · simp
      omega
  | .share _, _, _ => nofun
  | .assign _ none _, _, _ | .assign _ (some _) _, _, _ | .declare _, _, _ | .constants _, _, _
  | .exitLoop _ _, _, _ | .exitRoutine, _, _ | .print _, _, _ | .notify _, _, _ | .dialog _ _, _, _ | .call _ _, _, _ =>
    Stmt.recorded_simple rfl rfl

/-- The same of a block. -/
theorem Block.recorded : (b : Block) → ∀ a : Nat, Recorded (b.written a) a (b.lines a)
  | .nil, _ => nofun
  | .cons p first rest, a =>
    .append ((first.recorded a p).mono (List.subset_append_left _ _))
      ((rest.recorded _).mono (List.subset_append_right _ _)) (by simp)

end

/-! ## One statement for each line -/

/-- No address is of an instruction for two of the given statements. -/
def SingleOwner (ws : List Written) : Prop := ∀ w ∈ ws, ∀ w' ∈ ws, ∀ x, w.Owns x → w'.Owns x → w = w'

namespace SingleOwner

variable {ws ws' : List Written}

/-- Statements of which the code stands apart. -/
theorem append (h : SingleOwner ws) (h' : SingleOwner ws') {b : Nat}
    (hws : ∀ w ∈ ws, w.address + w.stmt.size ≤ b) (hws' : ∀ w ∈ ws', b ≤ w.address) : SingleOwner (ws ++ ws') := by
  intro w hw w' hw' x hx hx'
  rcases List.mem_append.1 hw with hw | hw <;> rcases List.mem_append.1 hw' with hw' | hw'
  · exact h w hw w' hw' x hx hx'
  · have hleft := Nat.lt_of_lt_of_le hx.covers.2 (hws w hw)
    have hright := Nat.le_trans (hws' w' hw') hx'.covers.1
    exact absurd hleft (Nat.not_lt_of_le hright)
  · have hleft := Nat.lt_of_lt_of_le hx'.covers.2 (hws w' hw')
    have hright := Nat.le_trans (hws' w hw) hx.covers.1
    exact absurd hleft (Nat.not_lt_of_le hright)
  · exact h' w hw w' hw' x hx hx'

/-- A statement and those inside of it. -/
theorem cons {w : Written} (h : SingleOwner w.inside) : SingleOwner (w :: w.inside) := by
  intro v hv v' hv' x hx hx'
  rcases List.mem_cons.1 hv with rfl | hv <;> rcases List.mem_cons.1 hv' with rfl | hv'
  · rfl
  · exact absurd hx'.covers (hx.own v' hv')
  · exact absurd hx.covers (hx'.own v hv)
  · exact h v hv v' hv' x hx hx'

end SingleOwner

mutual

theorem Stmt.singleOwner : (s : Stmt) → ∀ a : Nat, SingleOwner (s.nested a)
  | .routine _ _ _ body, _ => body.singleOwner _
  | .branch _ yes, _ => yes.singleOwner _
  | .branchElse c yes no, a =>
    (yes.singleOwner _).append (no.singleOwner _) (b := a + c.size + 1 + yes.size)
      (fun _ hw => (Block.written_within hw).2) fun _ hw => Nat.le_of_succ_le (Block.written_within hw).1
  | .countLoop _ _ _ _ body, _ => body.singleOwner _
  | .guardLoop _ body _, _ => body.singleOwner _
  | .share _, _ | .declare _, _ | .constants _, _ | .exitLoop _ _, _ | .exitRoutine, _ | .print _, _ | .notify _, _
  | .dialog _ _, _ | .assign _ _ _, _ | .call _ _, _ => nofun

theorem Block.singleOwner : (b : Block) → ∀ a : Nat, SingleOwner (b.written a)
  | .nil, _ => nofun
  | .cons p first rest, a => by
    refine .append (.cons (w := ⟨a, p, first⟩) (first.singleOwner a)) (rest.singleOwner _) (b := a + first.size) ?_
      fun w hw => (Block.written_within hw).1
    exact List.forall_mem_cons.2 ⟨Nat.le_refl _, fun w hw => (Stmt.nested_within hw).2⟩

end

/-- Each line of a block is for one statement only, and bears the place that is recorded for it. -/
theorem Block.line_written {b : Block} {x : Nat} {line : Line} (h : (b.lines 0)[x]? = some line) :
    ∃ w ∈ b.written 0, w.Owns x ∧ (∀ w' ∈ b.written 0, w'.Owns x → w' = w) ∧ line.position = w.recorded x := by
  obtain ⟨w, hw, howns, hplace⟩ := b.recorded 0 x line h
  rw [Nat.zero_add] at howns hplace
  exact ⟨w, hw, howns, fun w' hw' howns' => b.singleOwner 0 w' hw' w hw x howns' howns, hplace⟩

namespace Grammar

/-! ## Where the statements were read -/

/-- A statement was read from symbols of a text, and its place is that of its first symbol. -/
def WasRead (ending : Except Fault Symbol) (s : List Symbol) (w : Written) : Prop :=
  ∃ (env : Context) (at_ : Place) (sym : Symbol) (rest : List Symbol) (p : Passed (Stmt × Scopes) rest.length),
    env.ending = ending ∧ sym :: rest <:+ s ∧ statement env at_ w.address sym rest = .ok p ∧ p.value.1 = w.stmt ∧
      w.place = sym.position

theorem WasRead.suffix {ending : Except Fault Symbol} {s r : List Symbol} {w : Written} (h : WasRead ending r w)
    (hr : r <:+ s) : WasRead ending s w := by
  obtain ⟨env, at_, sym, rest, p, hending, hsuffix, hp⟩ := h
  exact ⟨env, at_, sym, rest, p, hending, hsuffix.trans hr, hp⟩

/-- Of blocks of fewer than `n` symbols, all statements were read from them. -/
def BlocksRead (ending : Except Fault Symbol) (n : Nat) : Prop :=
  ∀ {env : Context} {at_ : Place} {stops : List Word} {a : Address} {s : List Symbol}
    {p : Passed (Block × Scopes) s.length}, s.length < n → env.ending = ending → block env at_ stops a s = .ok p →
    ∀ w ∈ p.value.1.written a, WasRead ending s w

section Blocks

variable {ending : Except Fault Symbol} {n : Nat} (ih : BlocksRead ending n) {env : Context}
  (hending : env.ending = ending) {at_ : Place} {a : Address} {sym : Symbol} {rest : List Symbol}

include ih hending

theorem statement_read {p : Passed (Stmt × Scopes) rest.length} (hlen : rest.length < n)
    (h : statement env at_ a sym rest = .ok p) : ∀ w ∈ p.value.1.nested a, WasRead ending rest w := by
  obtain ⟨⟨stmt, names⟩, r, l⟩ := p
  cases statement_form h with
  | share | declare | constants | exitLoop | exitRoutine | print | printNone | notify | dialog | assign | call => nofun
  | @routine _ _ _ _ _ l₁ _ _ _ _ _ _ _ _ hhead _ hbody =>
    have s₁ := (routineHead_obeys (R := ⟨fun _ => True, fun _ => True⟩) hhead fun _ _ _ => trivial).1
    have hread := ih (Nat.lt_of_le_of_lt l₁ hlen) (by exact hending) hbody
    exact fun w hw => (hread w hw).suffix s₁
  | @branch _ _ _ l₁ word _ _ _ _ _ _ hcondition hthen _ hyes =>
    have s₂ : word.rest <:+ rest :=
      (require_suffix hthen).1.trans (expression_obeys (R := ⟨fun _ => True, fun _ => True⟩) hcondition).1
    have hread := ih (Nat.lt_trans word.shorter (Nat.lt_trans l₁ hlen)) hending hyes
    exact fun w hw => (hread w hw).suffix s₂
  | @branchElse _ _ _ _ l₁ word _ _ _ _ _ l₃ _ _ _ _ hcondition hthen _ hyes _ hno =>
    -- every part of the statement is read from what the part before it has left
    have s₂ : word.rest <:+ rest :=
      (require_suffix hthen).1.trans (expression_obeys (R := ⟨fun _ => True, fun _ => True⟩) hcondition).1
    have s₄ := (List.suffix_cons _ _).trans ((block_suffix hyes).trans s₂)
    have hlt : word.rest.length < n := Nat.lt_trans word.shorter (Nat.lt_trans l₁ hlen)
    have hread := ih hlt hending hyes
    have hread' := ih (Nat.lt_trans (Nat.lt_of_succ_le l₃) hlt) (by exact hending) hno
    exact List.forall_mem_append.2 ⟨fun w hw => (hread w hw).suffix s₂, fun w hw => (hread' w hw).suffix s₄⟩
  | @countLoop _ _ _ _ _ _ _ _ l₁ _ _ _ _ hhead hbody =>
    have s₁ := ((forHead_form hhead).obeys (R := ⟨fun _ => True, fun _ => True⟩) fun _ _ _ => trivial).1
    have hread := ih (Nat.lt_of_le_of_lt l₁ hlen) (by exact hending) hbody
    exact fun w hw => (hread w hw).suffix s₁
  | @guardLoop _ _ _ _ _ _ l₁ _ _ _ _ hhead hbody =>
    have s₁ := ((loopGuard_form hhead).obeys (R := ⟨fun _ => True, fun _ => True⟩)).1
    have hread := ih (Nat.lt_of_le_of_lt l₁ hlen) hending hbody
    exact fun w hw => (hread w hw).suffix s₁

theorem block_read {stops : List Word} {s : List Symbol} {p : Passed (Block × Scopes) s.length} (hlen : s.length ≤ n)
    (h : block env at_ stops a s = .ok p) : ∀ w ∈ p.value.1.written a, WasRead ending s w := by
  obtain ⟨⟨b, names⟩, r, l⟩ := p
  cases block_form h with
  | nil => nofun
  | delimiter _ hb => exact fun w hw => (ih hlen hending hb w hw).suffix (List.suffix_cons ..)
  | @cons sym rest _ _ _ _ _ _ l₁ _ hfirst _ hmore =>
    have s₁ := (statement_complies (blocksComply ⟨fun _ => True, fun _ => True⟩ n) hlen (fun _ _ _ => trivial) hfirst).1
    refine List.forall_mem_append.2 ⟨List.forall_mem_cons.2 ⟨?_, fun w hw => ?_⟩, fun w hw => ?_⟩
    · exact ⟨env, at_, sym, rest, _, hending, List.suffix_refl _, hfirst, rfl, rfl⟩
    · exact (statement_read ih hending hlen hfirst w hw).suffix (List.suffix_cons ..)
    · exact (ih (Nat.lt_of_le_of_lt l₁ hlen) (by exact hending) hmore w hw).suffix (s₁.trans (List.suffix_cons ..))

end Blocks

theorem blocksRead (ending : Except Fault Symbol) (n : Nat) : BlocksRead ending n := by
  induction n with
  | zero => intro _ _ _ _ _ _ hlen; omega
  | succ n ih => intro _ _ _ _ _ _ hlen hending h; exact block_read ih hending (by omega) h

/-- Every statement of a script was read where its place says. -/
theorem script_read {text : Symbols} {explicit external : Bool} {shared : Scope} {body : Block}
    (h : script text explicit external shared = .ok body) :
    ∀ w ∈ body.written 0, WasRead text.ending text.ahead w := by
  obtain ⟨_, _, _, hblock⟩ := script_form h
  exact blocksRead _ _ (Nat.lt_succ_self _) rfl hblock

end Grammar

end MacroBasic
