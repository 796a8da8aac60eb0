/-
What writing does to a draft. Whatever is written comes behind what is there already, and a branch lands if it has been
written before.
-/
import MacroBasic.Compiler.Draft

namespace MacroBasic.Compiler

/-! ## Drafts -/

namespace Draft

/-- The draft with more lines, the last statement of which began at the given place. -/
def extend (lines : List Line) (place : Position) (d : Draft) : Draft where
  program := { d.program with lines := d.program.lines ++ lines.toArray }
  place := place

/-- The draft with more instructions of the same statement. -/
def append (code : List Instruction) (d : Draft) : Draft := d.extend (mark d.place code) d.place

variable {d : Draft} {place : Position}

@[simp] theorem place_extend (lines : List Line) : (d.extend lines place).place = place := rfl

@[simp] theorem size_extend (lines : List Line) : (d.extend lines place).size = d.size + lines.length := by
  simp [extend, size, Program.size]

theorem extend_extend (lines more : List Line) (between : Position) :
    (d.extend lines between).extend more place = d.extend (lines ++ more) place := by
  simp [extend, Array.append_assoc]

@[simp] theorem place_append (code : List Instruction) : (d.append code).place = d.place := rfl

@[simp] theorem size_append (code : List Instruction) : (d.append code).size = d.size + code.length := by
  simp [append]

theorem append_append (code more : List Instruction) : (d.append code).append more = d.append (code ++ more) := by
  simp [append, extend_extend, mark]

theorem extend_append (lines : List Line) (code : List Instruction) :
    (d.extend lines place).append code = d.extend (lines ++ mark place code) place :=
  extend_extend ..

theorem append_extend (code : List Instruction) (lines : List Line) :
    (d.append code).extend lines place = d.extend (mark d.place code ++ lines) place :=
  extend_extend ..

theorem extend_nil (d : Draft) : d.extend [] d.place = d := by
  simp [extend]

theorem append_nil (d : Draft) : d.append [] = d := d.extend_nil

end Draft

/-! ## Steps of writing -/

section Steps

variable {α β γ δ : Type} {d d' : Draft}

/-- Nothing is written. -/
theorem pure_append (a : α) (d : Draft) : (pure a : Writing α) d = .ok (a, d.append []) := by
  rw [d.append_nil]
  rfl

theorem pure_extend (a : α) (d : Draft) : (pure a : Writing α) d = .ok (a, d.extend [] d.place) :=
  pure_append a d

theorem write_eq (i : Instruction) (d : Draft) : write i d = .ok (d.size, d.append [i]) := by
  simp [write, Program.add, Draft.size, Draft.append, Draft.extend, mark]

theorem discard_write (i : Instruction) (d : Draft) : (discard (write i)) d = .ok ((), d.append [i]) := by
  show (write i d >>= fun (_, d) => pure ((), d)) = _
  rw [write_eq]
  rfl

theorem bind_ok {w : Writing α} {a : α} (h : w d = .ok (a, d')) (k : α → Writing β) : (w >>= k) d = k a d' := by
  show (w d >>= _) = _
  rw [h]
  rfl

theorem writeAll_eq (code : List Instruction) (d : Draft) : writeAll code d = .ok ((), d.append code) := by
  induction code generalizing d with
  | nil => exact congrArg (fun d => Except.ok ((), d)) d.append_nil.symm
  | cons i rest ih =>
    show (discard (write i) >>= fun _ => writeAll rest) d = _
    rw [bind_ok (discard_write i d), ih, Draft.append_append]
    rfl

/-- Writing goes on alike behind parts that come to the same. -/
theorem follow_ok {w : Writing α} {k : α → Writing β} {x : Except Fault γ} {g : γ → Except Fault δ}
    {behind : γ → α × Draft} {after : δ → β × Draft} (hw : w d = x.map behind)
    (hk : ∀ c, x = .ok c → k (behind c).1 (behind c).2 = (g c).map after) : (w >>= k) d = (x >>= g).map after := by
  show (w d >>= fun (a, d') => k a d') = _
  rw [hw]
  cases x with
  | error f => rfl
  | ok c => exact hk c rfl

theorem follow {w : Writing α} {k : α → Writing β} {x : Except Fault γ} {g : γ → Except Fault δ}
    {behind : γ → α × Draft} {after : δ → β × Draft} (hw : w d = x.map behind)
    (hk : ∀ c, k (behind c).1 (behind c).2 = (g c).map after) : (w >>= k) d = (x >>= g).map after :=
  follow_ok hw fun c _ => hk c

/-- A part that writes nothing. -/
theorem follow_lift_ok {k : γ → Writing β} {x : Except Fault γ} {g : γ → Except Fault δ} {after : δ → β × Draft}
    (hk : ∀ c, x = .ok c → k c d = (g c).map after) : ((liftM x : Writing γ) >>= k) d = (x >>= g).map after := by
  cases x with
  | error f => rfl
  | ok c => exact hk c rfl

theorem follow_lift {k : γ → Writing β} {x : Except Fault γ} {g : γ → Except Fault δ} {after : δ → β × Draft}
    (hk : ∀ c, k c d = (g c).map after) : ((liftM x : Writing γ) >>= k) d = (x >>= g).map after :=
  follow_lift_ok fun c _ => hk c

theorem bind_write (i : Instruction) (k : Address → Writing β) : (write i >>= k) d = k d.size (d.append [i]) :=
  bind_ok (write_eq i d) k

theorem bind_discard (i : Instruction) (k : Unit → Writing β) : (discard (write i) >>= k) d = k () (d.append [i]) :=
  bind_ok (discard_write i d) k

theorem bind_writeAll (code : List Instruction) (k : Unit → Writing β) :
    (writeAll code >>= k) d = k () (d.append code) :=
  bind_ok (writeAll_eq code d) k

/-! ## Branches -/

/-- A branch lands that has been written before. -/
theorem land_extend (i : Instruction) {i' : Instruction} (target : Nat) (p : Position) {q : Position} {branch : Nat}
    (before behind : List Line) {lines lines' : List Line} (h : i.retarget? target = some i')
    (hlines : lines = before ++ ⟨i, p⟩ :: behind) (hlines' : lines' = before ++ ⟨i', p⟩ :: behind)
    (hbranch : branch = d.size + before.length) (htarget : target = d.size + lines.length) :
    land branch (d.extend lines q) = .ok ((), d.extend lines' q) := by
  subst hlines hlines' hbranch
  have hsize : (d.extend (before ++ ⟨i, p⟩ :: behind) q).size = target := by
    rw [Draft.size_extend, htarget]
  have hline : (d.program.lines ++ (before ++ ⟨i, p⟩ :: behind).toArray)[d.size + before.length]? = some ⟨i, p⟩ := by
    simp [Draft.size, Program.size]
  have hset :
      (d.program.lines ++ (before ++ ⟨i, p⟩ :: behind).toArray).setIfInBounds (d.size + before.length) ⟨i', p⟩ =
        d.program.lines ++ (before ++ ⟨i', p⟩ :: behind).toArray := by
    simp [Draft.size, Program.size]
  unfold land Program.retarget
  rw [hsize]
  simp only [Draft.extend, hline, h, hset]

/-- A branch of the statement lands. -/
theorem land_append {i i' : Instruction} (d : Draft) (before behind : List Instruction) {target : Nat}
    (htarget : target = d.size + before.length + 1 + behind.length) (h : i.retarget? target = some i') :
    land (d.size + before.length) (d.append (before ++ i :: behind)) = .ok ((), d.append (before ++ i' :: behind)) := by
  exact land_extend i target d.place (mark d.place before) (mark d.place behind) h (by simp [mark]) (by simp [mark])
    (by simp) (by simp [htarget]; omega)

end Steps

end MacroBasic.Compiler
