/-
How many values the innermost scope holds at each address, found from the instructions alone. Beginning with an
empty stack at the first instruction, the addresses that can be come to are explored with the shape that the
stacks have there. Where the instructions fit a table of layouts, the shapes found agree with the table, so every
run has as many values at an address as were found there, however it came to it.
-/
import Mathlib.Data.Finset.Card
import MacroBasic.Proofs.Grammar.Code
import MacroBasic.Proofs.Machine.Effect

namespace MacroBasic

/-- Whether an instruction is a call. -/
def Instruction.isCall : Instruction → Bool
  | .call _ => true
  | _ => false

namespace Machine

/-! ## Exploring -/

/-- What is known about the place of a value that is pushed. -/
def Cell.of : Value → Cell
  | .address a => .exit a
  | _ => .value

/-- So many places less. -/
def Shape.drop (n : Nat) (s : Shape) : Shape := { s with cells := s.cells.drop n }

/-- The shape behind an instruction that goes on at the next address. -/
def Shape.behind (s : Shape) : Instruction → Shape
  | .pushValue v => s.push (.of v)
  | .pushVariable _ | .copy _ => s.push .value
  | .pop | .assign _ | .print | .jumpTrue _ | .jumpFalse _ => s.drop 1
  | .unary _ => (s.drop 1).push .value
  | .binary _ => (s.drop 2).push .value
  | .dialog d => if d.answers then (s.drop d.defaults.length).push .value else s.drop d.defaults.length
  | .pushScope => s.enter
  | _ => s

/-- Where an instruction at an address leads, with the shapes there. A call leads into the routine and, for when
it has returned and its scope has been left, to the second address behind it. -/
def Shape.following (s : Shape) (a : Address) (i : Instruction) : List (Address × Shape) :=
  match i with
  | .jump b => [(b, s)]
  | .jumpTrue b | .jumpFalse b => [(a + 1, s.behind i), (b, s.behind i)]
  | .jumpPop =>
    match s.cells with
    | .exit b :: cells => [(b, { s with cells := cells })]
    | _ => []
  | .call b =>
    match s.waiting with
    | cells :: waiting => [(b, .routine), (a + 2, { s with cells := cells, waiting := waiting })]
    | [] => [(b, .routine)]
  | .popScope | .ret => []
  | i => [(a + 1, s.behind i)]

/-- The addresses that have not been come to yet. -/
def unexplored (code : List Instruction) (known : List (Address × Shape)) : Finset Nat :=
  (Finset.range (code.length + 1)).filter (· ∉ known.map Prod.fst)

theorem unexplored_cons_lt {code : List Instruction} {known : List (Address × Shape)} {a : Address} (s : Shape)
    (ha : ¬(code.length < a ∨ a ∈ known.map Prod.fst)) :
    (unexplored code ((a, s) :: known)).card < (unexplored code known).card := by
  rw [not_or, Nat.not_lt] at ha
  refine Finset.card_lt_card ((Finset.ssubset_iff_of_subset fun b hb => ?_).2 ⟨a, ?_, ?_⟩)
  · obtain ⟨hb, hnew⟩ := Finset.mem_filter.1 hb
    exact Finset.mem_filter.2 ⟨hb, fun hold => hnew (List.mem_cons_of_mem _ hold)⟩
  · exact Finset.mem_filter.2 ⟨Finset.mem_range.2 (Nat.lt_succ_of_le ha.1), ha.2⟩
  · exact fun hmem => (Finset.mem_filter.1 hmem).2 List.mem_cons_self

/-- The addresses that can be come to from those still to be explored, with the shapes they were first come to
with, besides those that are known already. -/
def explore (code : List Instruction) (known : List (Address × Shape)) :
    List (Address × Shape) → List (Address × Shape)
  | [] => known
  | (a, s) :: todo =>
    if ha : code.length < a ∨ a ∈ known.map Prod.fst then explore code known todo
    else
      have := unexplored_cons_lt s ha
      explore code ((a, s) :: known) ((code[a]?.map (s.following a)).getD [] ++ todo)
termination_by todo => ((unexplored code known).card, todo.length)

/-- All addresses that can be come to from the first one. -/
def shapes (code : List Instruction) : List (Address × Shape) := explore code [] [(0, .script)]

/-- How many values the innermost scope holds at an address. -/
def depthAt (code : List Instruction) (a : Address) : Nat :=
  (((shapes code).find? (·.1 == a)).map (·.2.cells.length)).getD 0

/-! ## What is found by exploring -/

section Explore

variable {code : List Instruction} {known todo : List (Address × Shape)}

/-- What is explored next once an address has been come to. -/
theorem mem_next {a : Address} {s : Shape} {x : Address × Shape}
    (hx : x ∈ (code[a]?.map (s.following a)).getD []) : ∃ i, code[a]? = some i ∧ x ∈ s.following a i := by
  cases hi : code[a]? with
  | none => rw [hi] at hx; cases hx
  | some i => exact ⟨i, rfl, by rw [hi] at hx; exact hx⟩

/-- What holds at the addresses to begin with and is kept by instructions holds at all addresses found. -/
theorem explore_induction {P : Address → Shape → Prop}
    (hstep : ∀ a s i, P a s → code[a]? = some i → ∀ x ∈ s.following a i, P x.1 x.2)
    (hknown : ∀ x ∈ known, P x.1 x.2) (htodo : ∀ x ∈ todo, P x.1 x.2) :
    ∀ x ∈ explore code known todo, P x.1 x.2 := by
  fun_induction explore code known todo with
  | case1 => exact hknown
  | case2 known a s todo ha ih => exact ih hknown fun x hx => htodo x (List.mem_cons_of_mem _ hx)
  | case3 known a s todo ha _ ih =>
    have hs : P a s := htodo (a, s) List.mem_cons_self
    refine ih (fun x hx => ?_) fun x hx => ?_
    · rcases List.mem_cons.1 hx with rfl | hx
      · exact hs
      · exact hknown x hx
    · rcases List.mem_append.1 hx with hx | hx
      · obtain ⟨i, hi, hx⟩ := mem_next hx
        exact hstep a s i hs hi x hx
      · exact htodo x (List.mem_cons_of_mem _ hx)

/-- No stack of a shape has more than so many places. -/
def Shape.AtMost (n : Nat) (s : Shape) : Prop := ∀ cells ∈ s.cells :: s.waiting, cells.length ≤ n

theorem Shape.AtMost.mono {n m : Nat} {s : Shape} (h : s.AtMost n) (hm : n ≤ m) : s.AtMost m :=
  fun cells hcells => (h cells hcells).trans hm

theorem Shape.AtMost.top {n m : Nat} {s : Shape} {cells : List Cell} (h : s.AtMost n) (hm : n ≤ m)
    (hcells : cells.length ≤ m) : Shape.AtMost m { s with cells := cells } := by
  intro x hx
  rcases List.mem_cons.1 hx with rfl | hx
  · exact hcells
  · exact (h x (List.mem_cons_of_mem _ hx)).trans hm

/-- An instruction adds at most one place. -/
theorem Shape.AtMost.behind {n : Nat} {s : Shape} (h : s.AtMost n) (i : Instruction) : (s.behind i).AtMost (n + 1) := by
  have hcells : s.cells.length ≤ n := h s.cells List.mem_cons_self
  have hle : n ≤ n + 1 := Nat.le_succ n
  cases i with
  | pushValue | pushVariable | copy => exact h.top hle (Nat.succ_le_succ hcells)
  | pop | assign | print | jumpTrue | jumpFalse =>
    exact h.top hle (by rw [List.length_drop]; omega)
  | unary | binary =>
    exact h.top hle (by rw [List.length_cons]; simp only [Shape.drop, List.length_drop]; omega)
  | dialog d =>
    rw [Shape.behind]
    split
    · exact h.top hle (by rw [List.length_cons]; simp only [Shape.drop, List.length_drop]; omega)
    · exact h.top hle (by rw [List.length_drop]; omega)
  | pushScope =>
    intro x hx
    rcases List.mem_cons.1 hx with rfl | hx
    · exact Nat.zero_le _
    · exact (h x hx).trans hle
  | allocConst | allocVar | notify | jump | jumpPop | popScope | call | ret => exact h.mono hle

theorem Shape.AtMost.following {n : Nat} {s : Shape} (h : s.AtMost n) {a : Address} {i : Instruction}
    {x : Address × Shape} (hx : x ∈ s.following a i) : x.2.AtMost (n + 1) := by
  have hroutine : Shape.routine.AtMost (n + 1) := by
    intro cells hcells
    rw [List.mem_singleton.1 hcells]
    exact Nat.zero_le _
  cases i with
  | jump b => cases List.mem_singleton.1 hx; exact h.mono (Nat.le_succ n)
  | jumpTrue b | jumpFalse b =>
    rcases List.mem_cons.1 hx with rfl | hx
    · exact h.behind _
    · cases List.mem_singleton.1 hx; exact h.behind _
  | jumpPop =>
    rw [Shape.following] at hx
    split at hx
    · rename_i b cells hcells
      cases List.mem_singleton.1 hx
      refine h.top (Nat.le_succ n) ?_
      have hlength := h s.cells List.mem_cons_self
      rw [hcells, List.length_cons] at hlength
      omega
    · cases hx
  | call b =>
    rw [Shape.following] at hx
    split at hx
    · rename_i cells waiting hwaiting
      rcases List.mem_cons.1 hx with rfl | hx
      · exact hroutine
      · cases List.mem_singleton.1 hx
        intro y hy
        rw [← hwaiting] at hy
        exact (h y (List.mem_cons_of_mem _ hy)).trans (Nat.le_succ n)
    · cases List.mem_singleton.1 hx; exact hroutine
  | popScope | ret => cases hx
  | allocConst | allocVar | pushValue | pushVariable | pop | copy | assign | binary | unary | print | notify
  | dialog | pushScope => cases List.mem_singleton.1 hx; exact h.behind _

/-- What exploring keeps: addresses are found once, none lies beyond the end, where they lead is found or still
to be explored, and there is at most one value more at an address than addresses have been found before it. -/
structure Explored (code : List Instruction) (known todo : List (Address × Shape)) : Prop where
  once : (known.map Prod.fst).Nodup
  within : ∀ x ∈ known, x.1 ≤ code.length
  closed : ∀ a s i, (a, s) ∈ known → code[a]? = some i → ∀ x ∈ s.following a i, x.1 ≤ code.length →
    x.1 ∈ known.map Prod.fst ∨ x ∈ todo
  first : 0 ∈ known.map Prod.fst ∨ ∃ s, (0, s) ∈ todo
  low : ∀ x ∈ known, x.2.AtMost (known.length - 1)
  next : ∀ x ∈ todo, x.2.AtMost known.length

/-- What has been found before is not explored again. -/
theorem Explored.skip {x : Address × Shape} (h : Explored code known (x :: todo))
    (hx : code.length < x.1 ∨ x.1 ∈ known.map Prod.fst) : Explored code known todo := by
  refine ⟨h.once, h.within, fun a s i ha hi y hy hwithin => ?_, ?_, h.low,
    fun y hy => h.next y (List.mem_cons_of_mem _ hy)⟩
  · rcases h.closed a s i ha hi y hy hwithin with hknown | htodo
    · exact .inl hknown
    · rcases List.mem_cons.1 htodo with rfl | htodo
      · exact .inl (hx.resolve_left (Nat.not_lt.2 hwithin))
      · exact .inr htodo
  · rcases h.first with hknown | ⟨s, htodo⟩
    · exact .inl hknown
    · rcases List.mem_cons.1 htodo with rfl | htodo
      · exact .inl (hx.resolve_left (Nat.not_lt_zero _))
      · exact .inr ⟨s, htodo⟩

theorem Explored.visit {a : Address} {s : Shape} (h : Explored code known ((a, s) :: todo))
    (ha : ¬(code.length < a ∨ a ∈ known.map Prod.fst)) :
    Explored code ((a, s) :: known) ((code[a]?.map (s.following a)).getD [] ++ todo) := by
  rw [not_or, Nat.not_lt] at ha
  have hs : s.AtMost known.length := h.next (a, s) List.mem_cons_self
  refine ⟨List.nodup_cons.2 ⟨ha.2, h.once⟩, fun x hx => ?_, fun b t i hb hi x hx hwithin => ?_, ?_, fun x hx => ?_,
    fun x hx => ?_⟩
  · rcases List.mem_cons.1 hx with rfl | hx
    · exact ha.1
    · exact h.within x hx
  · rcases List.mem_cons.1 hb with heq | hb
    · cases heq
      rw [hi]
      exact .inr (List.mem_append_left _ hx)
    · rcases h.closed b t i hb hi x hx hwithin with hknown | htodo
      · exact .inl (List.mem_cons_of_mem _ hknown)
      · rcases List.mem_cons.1 htodo with rfl | htodo
        · exact .inl List.mem_cons_self
        · exact .inr (List.mem_append_right _ htodo)
  · rcases h.first with hknown | ⟨t, htodo⟩
    · exact .inl (List.mem_cons_of_mem _ hknown)
    · rcases List.mem_cons.1 htodo with heq | htodo
      · cases heq; exact .inl List.mem_cons_self
      · exact .inr ⟨t, List.mem_append_right _ htodo⟩
  · rcases List.mem_cons.1 hx with rfl | hx
    · exact hs
    · exact (h.low x hx).mono (Nat.sub_le _ _)
  · rcases List.mem_append.1 hx with hx | hx
    · obtain ⟨i, _, hx⟩ := mem_next hx
      exact hs.following hx
    · exact (h.next x (List.mem_cons_of_mem _ hx)).mono (Nat.le_succ _)

theorem Explored.explore (h : Explored code known todo) : Explored code (explore code known todo) [] := by
  fun_induction Machine.explore code known todo with
  | case1 => exact h
  | case2 known a s todo ha ih => exact ih (h.skip ha)
  | case3 known a s todo ha _ ih => exact ih (h.visit ha)

theorem explored_shapes (code : List Instruction) : Explored code (shapes code) [] := by
  refine Explored.explore ⟨List.nodup_nil, nofun, nofun, .inr ⟨.script, List.mem_cons_self⟩, nofun, fun x hx => ?_⟩
  cases List.mem_singleton.1 hx
  intro cells hcells
  rw [List.mem_singleton.1 hcells]
  exact Nat.le_refl 0

theorem length_shapes_le (code : List Instruction) : (shapes code).length ≤ code.length + 1 := by
  have h := explored_shapes code
  have hsubset : ((shapes code).map Prod.fst).toFinset ⊆ Finset.range (code.length + 1) := by
    intro a ha
    obtain ⟨x, hx, rfl⟩ := List.mem_map.1 (List.mem_toFinset.1 ha)
    exact Finset.mem_range.2 (Nat.lt_succ_of_le (h.within x hx))
  have hcard := Finset.card_le_card hsubset
  rwa [List.toFinset_card_of_nodup h.once, List.length_map, Finset.card_range] at hcard

/-- There are at most as many values at an address as there are instructions. -/
theorem depthAt_le (code : List Instruction) (a : Address) : depthAt code a ≤ code.length := by
  unfold depthAt
  cases hfound : (shapes code).find? (·.1 == a) with
  | none => exact Nat.zero_le _
  | some x =>
    have hlow := (explored_shapes code).low x (List.mem_of_find?_eq_some hfound) x.2.cells List.mem_cons_self
    exact hlow.trans (Nat.sub_le_of_le_add (length_shapes_le code))

end Explore

/-! ## Agreement with a table -/

/-- A place found by exploring is as a table says, which may know less of it. -/
def Cell.Agrees (c c' : Cell) : Prop := c' = .value ∨ c' = c

/-- The same for all places of a shape. -/
structure Shape.Agrees (s s' : Shape) : Prop where
  cells : List.Forall₂ Cell.Agrees s.cells s'.cells
  waiting : List.Forall₂ (List.Forall₂ Cell.Agrees) s.waiting s'.waiting

section Agrees

variable {L : Address → Option Layout} {lines : Array Line} {s s' : Shape} {c c' : Cell}

theorem Cell.agrees_of {v : Value} (h : c.Admits v) : (Cell.of v).Agrees c := by
  cases c with
  | value => exact .inl rfl
  | exit a =>
    cases h
    exact .inr rfl

theorem Shape.Agrees.push (h : s.Agrees s') (hc : c.Agrees c') : (s.push c).Agrees (s'.push c') :=
  ⟨.cons hc h.cells, h.waiting⟩

theorem Shape.Agrees.drop_one (h : s.Agrees (s'.push c)) : (s.drop 1).Agrees s' := by
  obtain ⟨_, cells, _, hcells, heq⟩ := List.forall₂_cons_right_iff.1 h.cells
  refine ⟨?_, h.waiting⟩
  show List.Forall₂ Cell.Agrees (s.cells.drop 1) s'.cells
  rw [heq]
  exact hcells

theorem Shape.Agrees.drop_values {n : Nat} (h : s.Agrees (s'.values n)) : (s.drop n).Agrees s' := by
  induction n generalizing s with
  | zero => exact h
  | succ n ih =>
    have hrest := ih h.drop_one
    refine ⟨?_, hrest.waiting⟩
    have hcells : List.Forall₂ Cell.Agrees ((s.cells.drop 1).drop n) s'.cells := hrest.cells
    rwa [List.drop_drop, Nat.add_comm] at hcells

/-- Where the shapes agree with a table before an instruction, they do so behind it. -/
theorem Shape.Agrees.following (hL : Describes L lines) {a : Address} {i : Instruction} (h : s.Agrees s')
    (hfits : s'.Fits L a i) {x : Address × Shape} (hx : x ∈ s.following a i) (hwithin : x.1 ≤ lines.size) :
    ∃ t, L x.1 = some (.shaped t) ∧ x.2.Agrees t := by
  have hvalue {c : Cell} : c.Agrees .value := .inl rfl
  cases i with
  | allocConst name v | allocVar name =>
    cases List.mem_singleton.1 hx
    exact ⟨s', hfits.2, h⟩
  | pushValue v =>
    cases List.mem_singleton.1 hx
    obtain ⟨c, hc, hl⟩ := hfits
    exact ⟨_, hl, h.push (Cell.agrees_of hc)⟩
  | pushVariable name =>
    cases List.mem_singleton.1 hx
    exact ⟨_, hfits, h.push hvalue⟩
  | pop =>
    cases List.mem_singleton.1 hx
    obtain ⟨c, t, rfl, hl⟩ := hfits
    exact ⟨t, hl, h.drop_one⟩
  | copy depth =>
    cases List.mem_singleton.1 hx
    exact ⟨_, hfits.2, h.push hvalue⟩
  | assign name =>
    cases List.mem_singleton.1 hx
    obtain ⟨_, t, rfl, hl⟩ := hfits
    exact ⟨t, hl, h.drop_one⟩
  | binary op =>
    cases List.mem_singleton.1 hx
    obtain ⟨t, rfl, hl⟩ := hfits
    exact ⟨_, hl, h.drop_values.push hvalue⟩
  | unary op =>
    cases List.mem_singleton.1 hx
    obtain ⟨t, rfl, hl⟩ := hfits
    exact ⟨_, hl, h.drop_one.push hvalue⟩
  | print =>
    cases List.mem_singleton.1 hx
    obtain ⟨t, rfl, hl⟩ := hfits
    exact ⟨t, hl, h.drop_one⟩
  | notify n =>
    cases List.mem_singleton.1 hx
    exact ⟨s', hfits, h⟩
  | dialog d =>
    cases List.mem_singleton.1 hx
    obtain ⟨t, rfl, hl⟩ := hfits
    refine ⟨_, hl, ?_⟩
    rw [Shape.behind]
    split
    · exact h.drop_values.push hvalue
    · exact h.drop_values
  | jump b =>
    cases List.mem_singleton.1 hx
    exact ⟨s', hfits, h⟩
  | jumpTrue b | jumpFalse b =>
    obtain ⟨t, rfl, hnext, hl⟩ := hfits
    rcases List.mem_cons.1 hx with rfl | hx
    · exact ⟨t, hnext, h.drop_one⟩
    · cases List.mem_singleton.1 hx
      exact ⟨t, hl, h.drop_one⟩
  | jumpPop =>
    obtain ⟨b, t, rfl, hl⟩ := hfits
    obtain ⟨c, cells, hc, hcells, heq⟩ := List.forall₂_cons_right_iff.1 h.cells
    -- with an address only the same address agrees
    rcases hc with hc | rfl
    · cases hc
    rw [Shape.following, heq] at hx
    cases List.mem_singleton.1 hx
    exact ⟨t, hl, hcells, h.waiting⟩
  | pushScope =>
    cases List.mem_singleton.1 hx
    exact ⟨_, hfits, .nil, .cons h.cells h.waiting⟩
  | popScope => exact hfits.elim
  | call b =>
    obtain ⟨t, rfl, hb, hl⟩ := hfits
    obtain ⟨cells, waiting, hcells, hwaiting, heq⟩ := List.forall₂_cons_right_iff.1 h.waiting
    rw [Shape.following, heq] at hx
    rcases List.mem_cons.1 hx with rfl | hx
    · exact ⟨_, hb, .nil, .nil⟩
    · cases List.mem_singleton.1 hx
      -- the scope of the call is left at the address between
      obtain ⟨line, hline⟩ : ∃ line, lines[a + 1]? = some line :=
        ⟨_, Array.getElem?_eq_getElem (Nat.lt_of_succ_le hwithin)⟩
      obtain ⟨l, hl', hfits'⟩ := hL.fits (a + 1) line hline
      rw [hl] at hl'
      cases hl'
      exact ⟨t, hfits'.2, hcells, hwaiting⟩
  | ret => cases hx

/-- The shapes found by exploring agree with a table. -/
theorem agrees_shapes (hL : Describes L lines) : ∀ x ∈ shapes (instructionsOf lines.toList),
    ∃ s, L x.1 = some (.shaped s) ∧ x.2.Agrees s := by
  have hwithin := (explored_shapes (instructionsOf lines.toList)).within
  have hall : ∀ x ∈ shapes (instructionsOf lines.toList), x.1 ≤ lines.size →
      ∃ t, L x.1 = some (.shaped t) ∧ x.2.Agrees t := by
    refine explore_induction (P := fun a s => a ≤ lines.size → ∃ t, L a = some (.shaped t) ∧ s.Agrees t) ?_ nofun ?_
    · intro a s i hs hi x hx hx'
      rw [getElem?_instructionsOf] at hi
      obtain ⟨line, hline, rfl⟩ := Option.map_eq_some_iff.1 hi
      obtain ⟨t, hl, hagrees⟩ := hs (Nat.le_of_lt (Array.getElem?_eq_some_iff.1 hline).1)
      obtain ⟨l, hl', hfits⟩ := hL.fits a line hline
      rw [hl] at hl'
      cases hl'
      exact hagrees.following hL hfits hx hx'
    · intro x hx _
      cases List.mem_singleton.1 hx
      exact ⟨.script, hL.start, .nil, .nil⟩
  intro x hx
  refine hall x hx ((hwithin x hx).trans ?_)
  rw [length_instructionsOf]
  exact Nat.le_refl _

end Agrees

/-! ## The part of a table that is found -/

/-- Whether the instruction before an address is a call. -/
def followsCall (code : List Instruction) : Address → Bool
  | 0 => false
  | a + 1 => (code[a]?.map Instruction.isCall).getD false

theorem exists_call_of_followsCall {code : List Instruction} {a : Address} (h : followsCall code a = true) :
    ∃ a' b, a = a' + 1 ∧ code[a']? = some (.call b) := by
  cases a with
  | zero => cases h
  | succ a =>
    rw [followsCall] at h
    cases hi : code[a]? with
    | none => rw [hi] at h; cases h
    | some i =>
      rw [hi] at h
      cases i with
      | call b => exact ⟨a, b, rfl, hi⟩
      | _ => cases h

/-- Whether exploring finds where a layout stands, or the address behind it if a scope is to be left there. -/
def Layout.isFound (code : List Instruction) (a : Address) : Layout → Bool
  | .shaped _ => decide (a ∈ (shapes code).map Prod.fst)
  | .returned _ => followsCall code a && decide (a + 1 ∈ (shapes code).map Prod.fst)

/-- A table without what exploring does not find. -/
def foundIn (L : Address → Option Layout) (code : List Instruction) (a : Address) : Option Layout :=
  (L a).filter (·.isFound code a)

section Found

variable {L : Address → Option Layout} {lines : Array Line} {code : List Instruction} {a : Address} {s s' : Shape}
  {i : Instruction}

theorem foundIn_shaped : foundIn L code a = some (.shaped s) ↔
    L a = some (.shaped s) ∧ a ∈ (shapes code).map Prod.fst := by
  rw [foundIn, Option.filter_eq_some_iff]
  exact and_congr_right fun _ => decide_eq_true_iff

theorem foundIn_returned : foundIn L code a = some (.returned s) ↔
    L a = some (.returned s) ∧ followsCall code a = true ∧ a + 1 ∈ (shapes code).map Prod.fst := by
  rw [foundIn, Option.filter_eq_some_iff]
  refine and_congr_right fun _ => ?_
  rw [Layout.isFound, Bool.and_eq_true, decide_eq_true_iff]

/-- Where the instructions fit a table, they fit the part of it that is found. -/
theorem Shape.Fits.found (hfits : s'.Fits L a i) (hagrees : s.Agrees s') (hi : code[a]? = some i)
    (hs : (a, s) ∈ shapes code) (hbound : ∀ b l, L b = some l → b ≤ code.length)
    (hend : ∀ t, L code.length ≠ some (.returned t)) : s'.Fits (foundIn L code) a i := by
  have ha : a + 1 ≤ code.length := (List.getElem?_eq_some_iff.1 hi).1
  -- what follows a place that has been found has been found too, as long as it is in the table
  have keep {b : Address} {t : Shape} (hl : L b = some (.shaped t)) (hb : b ∈ (s.following a i).map Prod.fst) :
      foundIn L code b = some (.shaped t) := by
    obtain ⟨x, hx, rfl⟩ := List.mem_map.1 hb
    have hfound := (explored_shapes code).closed a s i hs hi x hx (hbound _ _ hl)
    exact foundIn_shaped.2 ⟨hl, hfound.resolve_right List.not_mem_nil⟩
  cases i with
  | allocConst | allocVar => exact ⟨hfits.1, keep hfits.2 List.mem_cons_self⟩
  | pushValue v =>
    obtain ⟨c, hc, hl⟩ := hfits
    exact ⟨c, hc, keep hl List.mem_cons_self⟩
  | pushVariable => exact keep hfits List.mem_cons_self
  | pop =>
    obtain ⟨c, t, rfl, hl⟩ := hfits
    exact ⟨c, t, rfl, keep hl List.mem_cons_self⟩
  | copy => exact ⟨hfits.1, keep hfits.2 List.mem_cons_self⟩
  | assign =>
    obtain ⟨hname, t, rfl, hl⟩ := hfits
    exact ⟨hname, t, rfl, keep hl List.mem_cons_self⟩
  | binary | unary | print | dialog =>
    obtain ⟨t, rfl, hl⟩ := hfits
    exact ⟨t, rfl, keep hl List.mem_cons_self⟩
  | notify | jump | pushScope => exact keep hfits List.mem_cons_self
  | jumpTrue | jumpFalse =>
    obtain ⟨t, rfl, hnext, hl⟩ := hfits
    exact ⟨t, rfl, keep hnext List.mem_cons_self, keep hl (List.mem_cons_of_mem _ List.mem_cons_self)⟩
  | jumpPop =>
    obtain ⟨b, t, rfl, hl⟩ := hfits
    obtain ⟨c, cells, hc, _, heq⟩ := List.forall₂_cons_right_iff.1 hagrees.cells
    rcases hc with hc | rfl
    · cases hc
    · exact ⟨b, t, rfl, keep hl (by rw [Shape.following, heq]; exact List.mem_cons_self)⟩
  | popScope => exact hfits
  | call b =>
    obtain ⟨t, rfl, hb, hl⟩ := hfits
    obtain ⟨cells, waiting, _, _, heq⟩ := List.forall₂_cons_right_iff.1 hagrees.waiting
    have hfollowing : s.following a (.call b) =
        [(b, .routine), (a + 2, { s with cells := cells, waiting := waiting })] := by
      rw [Shape.following, heq]
    refine ⟨t, rfl, keep hb (by rw [hfollowing]; exact List.mem_cons_self), foundIn_returned.2 ⟨hl, ?_, ?_⟩⟩
    · simp only [followsCall, hi]
      rfl
    -- the code does not end with a call, so the search goes on behind this one
    · have hlt : a + 1 < code.length := Nat.lt_of_le_of_ne ha fun heq => hend t (heq ▸ hl)
      have hfound := (explored_shapes code).closed a s _ hs hi (a + 2, { s with cells := cells, waiting := waiting })
        (by rw [hfollowing]; exact List.mem_cons_of_mem _ List.mem_cons_self) hlt
      exact hfound.resolve_right List.not_mem_nil
  | ret => exact hfits

/-- The same for any layout of a table. -/
theorem fits_foundIn (hL : Describes L lines) (hend : ∀ t, L lines.size ≠ some (.returned t)) {line : Line} {l : Layout}
    (hline : lines[a]? = some line) (hl : foundIn L (instructionsOf lines.toList) a = some l) :
    l.Fits (foundIn L (instructionsOf lines.toList)) a line.instruction := by
  have hsize : (instructionsOf lines.toList).length = lines.size := length_instructionsOf _
  have hi : (instructionsOf lines.toList)[a]? = some line.instruction := by rw [getElem?_instructionsOf, hline]; rfl
  obtain ⟨l', hl', hfits⟩ := hL.fits a line hline
  rw [(Option.filter_eq_some_iff.1 hl).1] at hl'
  cases hl'
  cases l with
  | shaped s' =>
    obtain ⟨hl, hfound⟩ := foundIn_shaped.1 hl
    obtain ⟨x, hx, rfl⟩ := List.mem_map.1 hfound
    obtain ⟨t, ht, hagrees⟩ := agrees_shapes hL x hx
    rw [hl] at ht
    cases ht
    exact Shape.Fits.found hfits hagrees hi hx (fun b l hb => hsize ▸ hL.bound b l hb) (hsize ▸ hend)
  | returned s' => exact ⟨hfits.1, foundIn_shaped.2 ⟨hfits.2, (foundIn_returned.1 hl).2.2⟩⟩

/-- Where the table has a shape that is found, as many values are found. -/
theorem depthAt_of_shaped (hL : Describes L lines)
    (hl : foundIn L (instructionsOf lines.toList) a = some (.shaped s)) :
    depthAt (instructionsOf lines.toList) a = s.cells.length := by
  obtain ⟨hl, hfound⟩ := foundIn_shaped.1 hl
  unfold depthAt
  cases hfind : (shapes (instructionsOf lines.toList)).find? (·.1 == a) with
  | none =>
    obtain ⟨x, hx, rfl⟩ := List.mem_map.1 hfound
    exact absurd (List.find?_eq_none.1 hfind x hx) (by simp)
  | some x =>
    have hx : x.1 = a := by simpa using List.find?_some hfind
    obtain ⟨t, ht, hagrees⟩ := agrees_shapes hL x (List.mem_of_find?_eq_some hfind)
    rw [hx, hl] at ht
    cases ht
    exact hagrees.cells.length_eq

end Found

/-! ## Runs -/

section Runs

variable {σ : Type} {host : Host (StateM σ)} {options : Options} {lines : Array Line} {M₀ M : Machine} {st₀ st : σ}
  {calls : List Address} {L : Address → Option Layout}

/-- Every state that a run reaches is as the found part of a table says. -/
theorem Reaches.found (hL : Describes L lines) (hend : ∀ t, L lines.size ≠ some (.returned t)) (hpc : M₀.pc = 0)
    (h₀ : Shape.script.Stands (foundIn L (instructionsOf lines.toList)) M₀.scopes [])
    (h : Reaches host options lines M₀ st₀ M st calls) :
    Laid (foundIn L (instructionsOf lines.toList)) M.config calls := by
  induction h with
  | start =>
    refine ⟨.shaped .script, ?_, h₀⟩
    show foundIn L _ M₀.pc = _
    rw [hpc]
    refine foundIn_shaped.2 ⟨hL.start, (explored_shapes _).first.resolve_right ?_⟩
    rintro ⟨s, hs⟩
    cases hs
  | turn _ hline hturn ih =>
    obtain ⟨l, hl, hS⟩ := ih
    obtain ⟨t, hyields⟩ := turn_yields hturn
    exact (fits_foundIn hL hend hline hl).advance hS t _ hyields

/-- In every state that a run reaches, the innermost scope holds as many values as are found from the instructions
alone, unless that scope is left next because a call has returned. -/
theorem Reaches.depth (hL : Describes L lines) (hend : ∀ t, L lines.size ≠ some (.returned t)) (hpc : M₀.pc = 0)
    (h₀ : Shape.script.Stands (foundIn L (instructionsOf lines.toList)) M₀.scopes [])
    (h : Reaches host options lines M₀ st₀ M st calls) :
    M.scopes.items.length = depthAt (instructionsOf lines.toList) M.pc ∨
      ∃ a b, M.pc = a + 1 ∧ (instructionsOf lines.toList)[a]? = some (.call b) ∧
        (instructionsOf lines.toList)[a + 1]? = some .popScope := by
  obtain ⟨l, hl, hS⟩ := h.found hL hend hpc h₀
  change foundIn L _ M.pc = some l at hl
  cases l with
  | shaped s =>
    left
    rw [depthAt_of_shaped hL hl]
    exact hS.1.length_eq
  | returned s =>
    right
    obtain ⟨_, hcall, hfound⟩ := foundIn_returned.1 hl
    obtain ⟨x, hx, hnext⟩ := List.mem_map.1 hfound
    have hwithin := (explored_shapes _).within x hx
    rw [hnext, length_instructionsOf] at hwithin
    obtain ⟨line, hline⟩ : ∃ line, lines[M.pc]? = some line := ⟨_, Array.getElem?_eq_getElem hwithin⟩
    obtain ⟨a, b, hpc', hcall⟩ := exists_call_of_followsCall hcall
    refine ⟨a, b, hpc', hcall, ?_⟩
    rw [← hpc', getElem?_instructionsOf, hline]
    exact congrArg some (fits_foundIn hL hend hline hl).1

end Runs

end Machine

end MacroBasic
