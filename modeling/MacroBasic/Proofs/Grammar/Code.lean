/-
Parts of code. The code of a chain of `AND` is seen from behind an operand on, so that it can be followed
operand by operand; the place that pushes false is the last one, wherever the chain is entered.
-/
import MacroBasic.Grammar.Assembly

namespace MacroBasic

/-- The instructions of some lines. -/
def instructionsOf (l : List Line) : List Instruction := l.map Line.instruction

@[simp] theorem instructionsOf_append (l l' : List Line) :
    instructionsOf (l ++ l') = instructionsOf l ++ instructionsOf l' := List.map_append

@[simp] theorem instructionsOf_mark (p : Position) (code : List Instruction) : instructionsOf (mark p code) = code := by
  unfold instructionsOf mark
  rw [List.map_map]
  exact List.map_id code

@[simp] theorem length_instructionsOf (l : List Line) : (instructionsOf l).length = l.length := List.length_map _

theorem getElem?_instructionsOf (lines : Array Line) (a : Address) :
    (instructionsOf lines.toList)[a]? = lines[a]?.map Line.instruction := by
  unfold instructionsOf
  rw [List.getElem?_map, Array.getElem?_toList]

/-- The code of a chain of `AND` from behind its first operand on. -/
def codeOfConjuncts (a : Address) (es : List Expr) : List Instruction :=
  let fails := a + sizeOfRest es + 3
  codeOfRest fails a es ++
    [.jumpFalse fails, .pushValue (.boolean true), .jump (fails + 1), .pushValue (.boolean false)]

theorem length_codeOfConjuncts (a : Address) (es : List Expr) :
    (codeOfConjuncts a es).length = sizeOfRest es + 4 := by
  simp [codeOfConjuncts, length_codeOfRest]

theorem code_conjunction (a : Address) (first : Expr) (es : List Expr) :
    (Expr.conjunction first es).code a = first.code a ++ codeOfConjuncts (a + first.size) es := by
  simp only [Expr.code, codeOfConjuncts, List.append_assoc]

theorem codeOfConjuncts_cons (a : Nat) (e : Expr) (es : List Expr) :
    codeOfConjuncts a (e :: es) =
      .jumpFalse (a + (e.size + sizeOfRest es + 4)) :: (e.code (a + 1) ++ codeOfConjuncts (a + 1 + e.size) es) := by
  have hfails : a + (e.size + 1 + sizeOfRest es) + 3 = a + (e.size + sizeOfRest es + 4) := by omega
  have hrest : a + 1 + e.size + sizeOfRest es + 3 = a + (e.size + sizeOfRest es + 4) := by omega
  simp only [codeOfConjuncts, codeOfRest, sizeOfRest, hfails, hrest, List.cons_append, List.append_assoc]

theorem codeOfConjuncts_snoc (a : Address) (es : List Expr) :
    ∃ code, codeOfConjuncts a es = code ++ [.pushValue (.boolean false)] ∧ code.length = sizeOfRest es + 3 := by
  refine ⟨codeOfRest (a + sizeOfRest es + 3) a es ++ [.jumpFalse (a + sizeOfRest es + 3),
    .pushValue (.boolean true), .jump (a + sizeOfRest es + 3 + 1)], ?_, ?_⟩
  · simp [codeOfConjuncts]
  · simp [length_codeOfRest]

/-! ## What holds of every instruction -/

/-- Every instruction of code that begins at an address is as wanted for its own address. -/
def EachAt (P : Address → Instruction → Prop) (a : Address) (code : List Instruction) : Prop :=
  ∀ i x, code[i]? = some x → P (a + i) x

section EachAt

variable {P : Address → Instruction → Prop} {a : Address} {code code' : List Instruction} {x : Instruction}

theorem EachAt.nil : EachAt P a [] := nofun

theorem EachAt.cons (h : P a x) (hrest : EachAt P (a + 1) code) : EachAt P a (x :: code) := by
  intro i y hy
  cases i with
  | zero => cases hy; exact h
  | succ i =>
    have := hrest i y hy
    rwa [Nat.add_assoc, Nat.add_comm 1 i] at this

theorem EachAt.one (h : P a x) : EachAt P a [x] := .cons h .nil

theorem EachAt.append {b : Address} (h : EachAt P a code) (h' : EachAt P b code')
    (hb : @Eq Nat (a + code.length) b) : EachAt P a (code ++ code') := by
  subst hb
  intro i y hy
  rcases Nat.lt_or_ge i code.length with hi | hi
  · rw [List.getElem?_append_left hi] at hy
    exact h i y hy
  · rw [List.getElem?_append_right hi] at hy
    have := h' (i - code.length) y hy
    rwa [Nat.add_assoc, Nat.add_sub_cancel' hi] at this

theorem EachAt.left (h : EachAt P a (code ++ code')) : EachAt P a code := by
  intro i y hy
  exact h i y (by rw [List.getElem?_append_left (List.getElem?_eq_some_iff.1 hy).1, hy])

theorem EachAt.right {b : Address} (h : EachAt P a (code ++ code')) (hb : @Eq Nat (a + code.length) b) :
    EachAt P b code' := by
  subst hb
  intro i y hy
  have := h (code.length + i) y (by rw [List.getElem?_append_right (Nat.le_add_right ..), Nat.add_sub_cancel_left, hy])
  rwa [← Nat.add_assoc] at this

theorem eachAt_append {b : Address} (hb : @Eq Nat (a + code.length) b) :
    EachAt P a (code ++ code') ↔ EachAt P a code ∧ EachAt P b code' :=
  ⟨fun h => ⟨h.left, h.right hb⟩, fun h => h.1.append h.2 hb⟩

/-- What holds of an instruction wherever it stands. -/
theorem eachAt_of_forall (h : ∀ y ∈ code, ∀ b, P b y) : EachAt P a code :=
  fun _ y hy => h y (List.mem_of_getElem? hy) _

end EachAt

end MacroBasic
