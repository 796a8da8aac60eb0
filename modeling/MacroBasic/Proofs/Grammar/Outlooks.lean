/-
What is certain about names at each instruction of a script. A name is certain to be bound where it is declared before,
in a block around the place; where a block that may be skipped has declared it, it is in doubt as soon as the block
ends. A routine can count on what is certain where it is defined, for it is called only behind that place. The code of
a script keeps to this: whatever an instruction leads to, no more names are certain there than it has bound.
-/
import MacroBasic.Proofs.Grammar.Views
import MacroBasic.Proofs.Machine.Certainty

namespace MacroBasic

open Machine

/-! ## Outlooks -/

/-- What can be told about the names at a place in a script: those that are sure to be bound whenever a run comes
there, and those that are declared in blocks that may have been skipped, or imported. -/
structure Outlook where
  sure : List String
  doubtful : List String

namespace Outlook

/-- Further names are sure to be bound. -/
def learn (o : Outlook) (names : List String) : Outlook := { o with sure := names ++ o.sure }

/-- Further names may be bound. -/
def doubt (o : Outlook) (names : List String) : Outlook := { o with doubtful := names ++ o.doubtful }

/-- A name is declared, if not for sure. -/
def Knows (o : Outlook) (x : String) : Prop := x ∈ o.sure ∨ x ∈ o.doubtful

/-- The outlook inside of a routine. -/
def entering (o : Outlook) (isFunction : Bool) (name : String) (parameters : List String) : Outlook :=
  (o.learn (if isFunction then [name] else [])).learn parameters

/-- The outlooks before each of some names is bound. -/
def along (o : Outlook) : List String → List Outlook
  | [] => []
  | x :: rest => o :: (o.learn [x]).along rest

end Outlook

mutual

/-- The names that a statement declares in the scope in which it is run, or imports. -/
def Stmt.announced : Stmt → List String
  | .share names | .declare names => names
  | .constants definitions => definitions.map Prod.fst
  | .routine isFunction name _ _ => if isFunction then [name] else []
  | .branch _ yes => yes.announced
  | .branchElse _ yes no => yes.announced ++ no.announced
  | .countLoop _ _ _ _ body | .guardLoop _ body _ => body.announced
  | .exitLoop _ _ | .exitRoutine | .print _ | .notify _ | .dialog _ _ | .assign _ _ _ | .call _ _ => []

def Block.announced : Block → List String
  | .nil => []
  | .cons _ first rest => first.announced ++ rest.announced

end

/-- The outlook behind a statement, given the one before it. What is declared in a branch or in a loop is in doubt
there, and what is imported always is. -/
def Stmt.outlook (o : Outlook) : Stmt → Outlook
  | .share names => o.doubt names
  | .branch _ yes => o.doubt yes.announced
  | .branchElse _ yes no => (o.doubt yes.announced).doubt no.announced
  | .countLoop _ _ _ _ body | .guardLoop _ body _ => o.doubt body.announced
  | stmt => o.learn stmt.announced

/-- The outlook at the end of a block, given the one before it. -/
def Block.outlook (o : Outlook) : Block → Outlook
  | .nil => o
  | .cons _ first rest => rest.outlook (first.outlook o)

mutual

/-- The outlooks at the instructions of a statement, given the one before it. -/
def Stmt.outlooks (o : Outlook) : Stmt → List Outlook
  | .declare names => o.along names
  | .constants definitions => o.along (definitions.map Prod.fst)
  | .routine isFunction name parameters body =>
    let own := if isFunction then [name] else []
    let inner := o.entering isFunction name parameters
    o.along own ++ (o.learn own :: (body.outlooks inner ++ [inner]))
  | .branch c yes => List.replicate (c.size + 1) o ++ yes.outlooks o
  | .branchElse c yes no =>
    List.replicate (c.size + 1) o ++ (yes.outlooks o ++ (o :: no.outlooks (o.doubt yes.announced)))
  | .countLoop _ start limit step body =>
    List.replicate (countHeadSize start limit step) o ++ (body.outlooks o ++ List.replicate 15 o)
  | .guardLoop head body tail =>
    List.replicate (1 + headSize head) o ++ (body.outlooks o ++
      (List.replicate (tailSize tail) (body.outlook o) ++ [o]))
  | stmt => List.replicate stmt.size o

/-- The outlooks at the instructions of a block, given the one before it. -/
def Block.outlooks (o : Outlook) : Block → List Outlook
  | .nil => []
  | .cons _ first rest => first.outlooks o ++ rest.outlooks (first.outlook o)

end

mutual

/-- The names that a statement imports, or that are announced in its branches and loops or in those of a routine that
it defines. -/
def Stmt.unsettled : Stmt → List String
  | .share names => names
  | .routine _ _ _ body => body.unsettled
  | .branch _ yes => yes.announced ++ yes.unsettled
  | .branchElse _ yes no => yes.announced ++ yes.unsettled ++ (no.announced ++ no.unsettled)
  | .countLoop _ _ _ _ body | .guardLoop _ body _ => body.announced ++ body.unsettled
  | .declare _ | .constants _ | .exitLoop _ _ | .exitRoutine | .print _ | .notify _ | .dialog _ _ | .assign _ _ _
  | .call _ _ => []

def Block.unsettled : Block → List String
  | .nil => []
  | .cons _ first rest => first.unsettled ++ rest.unsettled

end

/-- The names that are sure to be bound at each address, given the outlooks. -/
def sureAt (O : Address → Option Outlook) (a : Address) : List String := ((O a).map Outlook.sure).getD []

section Lengths

@[simp] theorem Outlook.length_along (names : List String) (o : Outlook) : (o.along names).length = names.length := by
  induction names generalizing o with
  | nil => rfl
  | cons x rest ih => exact congrArg (· + 1) (ih _)

mutual

@[simp] theorem Stmt.length_outlooks : (stmt : Stmt) → ∀ o : Outlook, (stmt.outlooks o).length = stmt.size
  | .declare names, o => Outlook.length_along names o
  | .constants definitions, o => by simp [Stmt.outlooks, Stmt.size]
  | .routine isFunction _ _ body, o => by
    cases isFunction <;> simp [Stmt.outlooks, Stmt.size, routineHeadSize, body.length_outlooks] <;> omega
  | .branch c yes, o => by simp [Stmt.outlooks, Stmt.size, yes.length_outlooks]; omega
  | .branchElse c yes no, o => by simp [Stmt.outlooks, Stmt.size, yes.length_outlooks, no.length_outlooks]; omega
  | .countLoop _ start limit step body, o => by simp [Stmt.outlooks, Stmt.size, body.length_outlooks]; omega
  | .guardLoop head body tail, o => by simp [Stmt.outlooks, Stmt.size, body.length_outlooks]; omega
  | .share _, _ | .exitLoop _ _, _ | .exitRoutine, _ | .print _, _ | .notify _, _ | .dialog _ _, _ | .assign _ _ _, _
  | .call _ _, _ => List.length_replicate

@[simp] theorem Block.length_outlooks : (block : Block) → ∀ o : Outlook, (block.outlooks o).length = block.size
  | .nil, _ => rfl
  | .cons _ first rest, o => by simp [Block.outlooks, Block.size, first.length_outlooks, rest.length_outlooks]

end

end Lengths

section Outlooks

variable {O : Address → Option Outlook} {o o' : Outlook} {a b n : Nat} {x : String} {names : List String}
  {l : List Outlook}

theorem Outlook.sure_subset_learn (o : Outlook) (names : List String) : o.sure ⊆ (o.learn names).sure :=
  List.subset_append_right names o.sure

theorem Outlook.Knows.learn (h : o.Knows x) (names : List String) : (o.learn names).Knows x :=
  h.imp_left fun hx => o.sure_subset_learn names hx

theorem Outlook.Knows.doubt (h : o.Knows x) (names : List String) : (o.doubt names).Knows x :=
  h.imp_right fun hx => List.mem_append_right names hx

theorem Outlook.knows_learn (hx : x ∈ names) (o : Outlook) : (o.learn names).Knows x := .inl (List.mem_append_left _ hx)

theorem Outlook.knows_doubt (hx : x ∈ names) (o : Outlook) : (o.doubt names).Knows x := .inr (List.mem_append_left _ hx)

/-- What is sure before a statement is so behind it. -/
theorem Stmt.sure_subset_outlook (stmt : Stmt) (o : Outlook) : o.sure ⊆ (stmt.outlook o).sure := by
  cases stmt with
  | share | branch | branchElse | countLoop | guardLoop => exact List.Subset.refl _
  | _ => exact o.sure_subset_learn _

theorem Block.sure_subset_outlook : (block : Block) → ∀ o : Outlook, o.sure ⊆ (block.outlook o).sure
  | .nil, _ => List.Subset.refl _
  | .cons _ first rest, o => List.Subset.trans (first.sure_subset_outlook o) (rest.sure_subset_outlook _)

theorem sureAt_eq (h : O a = some o) : sureAt O a = o.sure := by rw [sureAt, h]; rfl

/-- The outlook is the same from one address up to another, where no other names are sure. -/
structure Outlook.Lasts (O : Address → Option Outlook) (o : Outlook) (a b : Nat) : Prop where
  same : ∀ c, a ≤ c → c < b → O c = some o
  last : sureAt O b ⊆ o.sure

theorem Outlook.Lasts.sure_subset (h : o.Lasts O a b) {c : Nat} (hac : a ≤ c := by omega) (hcb : c ≤ b := by omega) :
    sureAt O c ⊆ o.sure := by
  rcases Nat.lt_or_eq_of_le hcb with hlt | rfl
  · rw [sureAt_eq (h.same c hac hlt)]
    exact List.Subset.refl _
  · exact h.last

theorem Outlook.Lasts.sure_eq (h : o.Lasts O a b) {c : Nat} (hac : a ≤ c := by omega) (hcb : c < b := by omega) :
    sureAt O c = o.sure := sureAt_eq (h.same c hac hcb)

theorem Outlook.Lasts.first (h : o.Lasts O a (a + 1)) : sureAt O a = o.sure := h.sure_eq (c := a)

theorem Outlook.Lasts.mono {a' b' : Nat} (h : o.Lasts O a b) (ha : a ≤ a' := by omega) (hb : b' ≤ b := by omega)
    (hab : a' ≤ b' := by omega) : o.Lasts O a' b' :=
  ⟨fun c hac hcb => h.same c (ha.trans hac) (Nat.lt_of_lt_of_le hcb hb), h.sure_subset (ha.trans hab) hb⟩

theorem lasts_of_replicate (h : ListsAt O a (List.replicate n o)) (hb : a + n = b) (hend : sureAt O b ⊆ o.sure) :
    o.Lasts O a b := by
  refine ⟨fun c hac hcb => ?_, hend⟩
  have hc := h (c - a) o (by rw [List.getElem?_replicate, if_pos (by omega)])
  rwa [show a + (c - a) = c by omega] at hc

theorem sureAt_subset_of_replicate (h : ListsAt O a (List.replicate n o ++ l)) (hn : n = 0 → sureAt O a ⊆ o.sure) :
    sureAt O a ⊆ o.sure := by
  cases n with
  | zero => exact hn rfl
  | succ n =>
    rw [sureAt_eq h.first]
    exact List.Subset.refl _

theorem sureAt_subset_of_along (h : ListsAt O a (o.along names))
    (hend : sureAt O (a + names.length) ⊆ names ++ o.sure) :
    sureAt O a ⊆ o.sure := by
  cases names with
  | nil => exact hend
  | cons x rest =>
    rw [sureAt_eq h.first]
    exact List.Subset.refl _

/-- Where a statement begins, no more is sure than before it. -/
theorem Stmt.sureAt_start (stmt : Stmt) (h : ListsAt O a (stmt.outlooks o))
    (hend : sureAt O (a + stmt.size) ⊆ (stmt.outlook o).sure) : sureAt O a ⊆ o.sure := by
  cases stmt with
  | declare names => exact sureAt_subset_of_along h hend
  | constants definitions =>
    refine sureAt_subset_of_along h ?_
    rw [List.length_map]
    exact hend
  | routine isFunction =>
    cases isFunction with
    | true =>
      rw [sureAt_eq h.first]
      exact List.Subset.refl _
    | false =>
      rw [sureAt_eq h.first]
      exact List.Subset.refl _
  | branch | branchElse => exact sureAt_subset_of_replicate h nofun
  | countLoop => exact sureAt_subset_of_replicate h (by simp [countHeadSize])
  | guardLoop => exact sureAt_subset_of_replicate h (by omega)
  | _ =>
    refine sureAt_subset_of_replicate (l := []) (by rw [List.append_nil]; exact h) fun hzero => ?_
    rwa [hzero] at hend

theorem Block.sureAt_start : (block : Block) → ∀ {a : Nat} {o : Outlook}, ListsAt O a (block.outlooks o) →
    sureAt O (a + block.size) ⊆ (block.outlook o).sure → sureAt O a ⊆ o.sure
  | .nil, _, _, _, hend => hend
  | .cons _ first rest, a, o, h, hend => by
    rw [Block.size, ← Nat.add_assoc] at hend
    have hrest := h.right (b := a + first.size) (by rw [first.length_outlooks])
    exact first.sureAt_start h.left (rest.sureAt_start hrest hend)

/-- Behind a statement all names are known that have been before, and those that it announces. -/
theorem Stmt.knows_outlook (stmt : Stmt) (h : o.Knows x ∨ x ∈ stmt.announced) : (stmt.outlook o).Knows x := by
  cases stmt with
  | share names => exact h.elim (·.doubt _) (Outlook.knows_doubt · o)
  | branch _ yes => exact h.elim (·.doubt _) (Outlook.knows_doubt · o)
  | branchElse _ yes no =>
    rcases h with h | h
    · exact (h.doubt _).doubt _
    · rcases List.mem_append.1 h with h | h
      · exact (Outlook.knows_doubt h o).doubt _
      · exact Outlook.knows_doubt h _
  | countLoop | guardLoop => exact h.elim (·.doubt _) (Outlook.knows_doubt · o)
  | _ => exact h.elim (·.learn _) (Outlook.knows_learn · o)

theorem Block.knows_outlook : (block : Block) → ∀ {o : Outlook}, o.Knows x ∨ x ∈ block.announced →
    (block.outlook o).Knows x
  | .nil, _, h => h.elim id nofun
  | .cons _ first rest, o, h => by
    refine rest.knows_outlook ?_
    rcases h with h | h
    · exact .inl (first.knows_outlook (.inl h))
    · rcases List.mem_append.1 h with h | h
      · exact .inl (first.knows_outlook (.inr h))
      · exact .inr h

/-! ## Names in doubt -/

section Doubt

variable {all : List String}

theorem Outlook.doubtful_of_along : ∀ {names : List String} {o o' : Outlook}, o' ∈ o.along names →
    o'.doubtful = o.doubtful
  | [], _, _, h => nomatch h
  | x :: _, o, _, h => by
    rcases List.mem_cons.1 h with rfl | h
    · rfl
    · exact doubtful_of_along (o := o.learn [x]) h

theorem Outlook.doubtful_of_replicate (h : o' ∈ List.replicate n o) (ho : o.doubtful ⊆ all) : o'.doubtful ⊆ all :=
  (List.mem_replicate.1 h).2 ▸ ho

/-- Behind a statement only such names are in doubt as are before it, or as it leaves unsettled. -/
theorem Stmt.doubtful_outlook (stmt : Stmt) (hstmt : stmt.unsettled ⊆ all) (ho : o.doubtful ⊆ all) :
    (stmt.outlook o).doubtful ⊆ all := by
  cases stmt with
  | share names => exact List.append_subset.2 ⟨hstmt, ho⟩
  | branch _ yes => exact List.append_subset.2 ⟨(List.append_subset.1 hstmt).1, ho⟩
  | branchElse _ yes no =>
    obtain ⟨hyes, hno⟩ := List.append_subset.1 hstmt
    exact List.append_subset.2 ⟨(List.append_subset.1 hno).1,
      List.append_subset.2 ⟨(List.append_subset.1 hyes).1, ho⟩⟩
  | countLoop _ _ _ _ body => exact List.append_subset.2 ⟨(List.append_subset.1 hstmt).1, ho⟩
  | guardLoop _ body _ => exact List.append_subset.2 ⟨(List.append_subset.1 hstmt).1, ho⟩
  | _ => exact ho

theorem Block.doubtful_outlook : (block : Block) → ∀ {o : Outlook}, block.unsettled ⊆ all → o.doubtful ⊆ all →
    (block.outlook o).doubtful ⊆ all
  | .nil, _, _, ho => ho
  | .cons _ first rest, _, hblock, ho => by
    obtain ⟨hfirst, hrest⟩ := List.append_subset.1 hblock
    exact rest.doubtful_outlook hrest (first.doubtful_outlook hfirst ho)

mutual

/-- At the instructions of a statement too. -/
theorem Stmt.doubtful_outlooks : (stmt : Stmt) → ∀ {o : Outlook}, stmt.unsettled ⊆ all → o.doubtful ⊆ all →
    ∀ o' ∈ stmt.outlooks o, o'.doubtful ⊆ all
  | .declare _, _, _, ho, _, h | .constants _, _, _, ho, _, h => by rw [Outlook.doubtful_of_along h]; exact ho
  | .routine isFunction name parameters body, o, hstmt, ho, o', h => by
    rcases List.mem_append.1 h with h | h
    · rw [Outlook.doubtful_of_along h]
      exact ho
    · rcases List.mem_cons.1 h with rfl | h
      · exact ho
      · rcases List.mem_append.1 h with h | h
        · exact body.doubtful_outlooks (o := o.entering isFunction name parameters) hstmt ho o' h
        · exact List.mem_singleton.1 h ▸ ho
  | .branch _ yes, _, hstmt, ho, o', h => by
    rcases List.mem_append.1 h with h | h
    · exact Outlook.doubtful_of_replicate h ho
    · exact yes.doubtful_outlooks (List.append_subset.1 hstmt).2 ho o' h
  | .branchElse _ yes no, o, hstmt, ho, o', h => by
    obtain ⟨hyes, hno⟩ := List.append_subset.1 hstmt
    rcases List.mem_append.1 h with h | h
    · exact Outlook.doubtful_of_replicate h ho
    · rcases List.mem_append.1 h with h | h
      · exact yes.doubtful_outlooks (List.append_subset.1 hyes).2 ho o' h
      · rcases List.mem_cons.1 h with rfl | h
        · exact ho
        · refine no.doubtful_outlooks (o := o.doubt yes.announced) (List.append_subset.1 hno).2 ?_ o' h
          exact List.append_subset.2 ⟨(List.append_subset.1 hyes).1, ho⟩
  | .countLoop _ _ _ _ body, _, hstmt, ho, o', h => by
    rcases List.mem_append.1 h with h | h
    · exact Outlook.doubtful_of_replicate h ho
    · rcases List.mem_append.1 h with h | h
      · exact body.doubtful_outlooks (List.append_subset.1 hstmt).2 ho o' h
      · exact Outlook.doubtful_of_replicate h ho
  | .guardLoop _ body _, o, hstmt, ho, o', h => by
    have hbody := (List.append_subset.1 hstmt).2
    rcases List.mem_append.1 h with h | h
    · exact Outlook.doubtful_of_replicate h ho
    · rcases List.mem_append.1 h with h | h
      · exact body.doubtful_outlooks hbody ho o' h
      · rcases List.mem_append.1 h with h | h
        · exact Outlook.doubtful_of_replicate h (body.doubtful_outlook hbody ho)
        · exact List.mem_singleton.1 h ▸ ho
  | .share _, _, _, ho, _, h | .exitLoop _ _, _, _, ho, _, h | .exitRoutine, _, _, ho, _, h | .print _, _, _, ho, _, h
  | .notify _, _, _, ho, _, h | .dialog _ _, _, _, ho, _, h | .assign _ _ _, _, _, ho, _, h
  | .call _ _, _, _, ho, _, h => Outlook.doubtful_of_replicate h ho

theorem Block.doubtful_outlooks : (block : Block) → ∀ {o : Outlook}, block.unsettled ⊆ all → o.doubtful ⊆ all →
    ∀ o' ∈ block.outlooks o, o'.doubtful ⊆ all
  | .nil, _, _, _, _, h => nomatch h
  | .cons _ first rest, _, hblock, ho, o', h => by
    obtain ⟨hfirst, hrest⟩ := List.append_subset.1 hblock
    rcases List.mem_append.1 h with h | h
    · exact first.doubtful_outlooks hfirst ho o' h
    · exact rest.doubtful_outlooks hrest (first.doubtful_outlook hfirst ho) o' h

end

end Doubt

end Outlooks

/-! ## Outlooks and the scopes of the parser -/

/-- An outlook knows all names that the parser finds, and a routine that the parser sees counts only on names that are
sure, and on its parameters. -/
structure Outlook.Suits (O : Address → Option Outlook) (names : Scopes) (o : Outlook) : Prop where
  knows : ∀ x, names.Usable x → o.Knows x
  calls : ∀ r, names.visible.routine r → ∀ x ∈ sureAt O r.entry, x ∈ o.sure ∨ x ∈ r.parameters

section Suits

variable {O : Address → Option Outlook} {o o' : Outlook} {names : Scopes} {b : Binding} {a : Nat}

theorem Scopes.usable_allocate {x : String} (h : (names.allocate b).Usable x) :
    b.name = x ∧ b.kind ≠ .sub ∨ names.Usable x := by
  obtain ⟨b', hb', hkind⟩ := h
  by_cases hname : b.name = x
  · subst hname
    have hself : (names.allocate b).get? b.name = some b := by
      show ((names.top.allocate b :: names.below).findSome? (·.get? b.name)) = some b
      rw [List.findSome?_cons, Scope.get?_allocate_self]
    rw [hself] at hb'
    cases hb'
    exact .inl ⟨rfl, hkind⟩
  · refine .inr ⟨b', ?_, hkind⟩
    have hother : (names.allocate b).get? x = names.get? x := by
      show ((names.top.allocate b :: names.below).findSome? (·.get? x)) = _
      rw [List.findSome?_cons, Scope.get?_allocate_of_ne hname]
      rfl
    rwa [hother] at hb'

theorem Scopes.visible_allocate {r : Routine} (h : (names.allocate b).visible.routine r) :
    b.address = some r.entry ∧ b.parameters = r.parameters ∨ names.visible.routine r := by
  obtain ⟨frame, hframe, b', hb', hr⟩ := h
  rcases List.mem_cons.1 hframe with rfl | hframe
  · rcases Scope.mem_put hb' with rfl | hb'
    · exact .inl hr
    · exact .inr ⟨_, List.mem_cons_self, b', hb', hr⟩
  · exact .inr ⟨frame, List.mem_cons_of_mem _ hframe, b', hb', hr⟩

namespace Outlook.Suits

theorem mono (h : o.Suits O names) (hknows : ∀ x, o.Knows x → o'.Knows x) (hsure : o.sure ⊆ o'.sure) :
    o'.Suits O names :=
  ⟨fun x hx => hknows x (h.knows x hx), fun r hr x hx => (h.calls r hr x hx).imp_left fun hx => hsure hx⟩

theorem allocate (h : o.Suits O names) (hb : b.kind ≠ .sub → o.Knows b.name)
    (hr : ∀ entry, b.address = some entry → ∀ x ∈ sureAt O entry, x ∈ o.sure ∨ x ∈ b.parameters) :
    o.Suits O (names.allocate b) := by
  constructor
  · intro x hx
    rcases Scopes.usable_allocate hx with ⟨rfl, hkind⟩ | hx
    · exact hb hkind
    · exact h.knows x hx
  · intro r hvisible
    rcases Scopes.visible_allocate hvisible with ⟨hentry, hparameters⟩ | hvisible
    · exact hparameters ▸ hr r.entry hentry
    · exact h.calls r hvisible

theorem foldl {α : Type} {step : Scopes → α → Scopes} {xs : List α} (h : o.Suits O names)
    (hstep : ∀ names, ∀ x ∈ xs, o.Suits O names → o.Suits O (step names x)) : o.Suits O (xs.foldl step names) := by
  induction xs generalizing names with
  | nil => exact h
  | cons x xs ih =>
    exact ih (hstep names x List.mem_cons_self h) fun names y hy => hstep names y (List.mem_cons_of_mem _ hy)

theorem withVariable (h : o.Suits O names) {x : String} (hx : o.Knows x) : o.Suits O (names.withVariable x) :=
  h.allocate (fun _ => hx) nofun

/-- Inside of a routine its parameters are sure. -/
theorem enter (h : o.Suits O names) (parameters : List String) :
    (o.learn parameters).Suits O (names.enter parameters) := by
  have hinner : (o.learn parameters).Suits O names.inner := by
    refine ⟨fun x hx => (h.knows x hx).learn _, fun r hr x hx => ?_⟩
    obtain ⟨frame, hframe, b, hb, hroutine⟩ := hr
    rcases List.mem_cons.1 hframe with rfl | hframe
    · cases hb
    · exact (h.calls r ⟨frame, hframe, b, hb, hroutine⟩ x hx).imp_left fun hx => o.sure_subset_learn _ hx
  exact hinner.foldl fun names x hx hnames => hnames.withVariable (Outlook.knows_learn hx o)

end Outlook.Suits

mutual

/-- What a statement inside of a branch or a loop declares is known if it is announced; it defines no routine. -/
theorem Stmt.suits_declared : (stmt : Stmt) → ∀ {a : Nat} {names : Scopes}, stmt.Resolved false a names →
    (∀ x ∈ stmt.announced, o.Knows x) → o.Suits O names → o.Suits O (stmt.declared a names)
  | .share shared, _, _, _, hknown, h => by
    refine h.foldl fun names x hx hnames => ?_
    unfold Scopes.withShared
    split
    · exact hnames
    · exact hnames.withVariable (hknown x hx)
  | .declare declared, _, _, _, hknown, h => h.foldl fun _ x hx hnames => hnames.withVariable (hknown x hx)
  | .constants definitions, _, _, _, hknown, h =>
    h.foldl fun _ d hd hnames => hnames.allocate (fun _ => hknown d.1 (List.mem_map_of_mem hd)) nofun
  | .routine _ _ _ _, _, _, hres, _, _ => absurd hres.1 Bool.false_ne_true
  | .branch _ yes, _, _, hres, hknown, h => yes.suits_declared hres.2 hknown h
  | .branchElse _ yes no, _, _, hres, hknown, h => by
    obtain ⟨hyes, hno⟩ := List.forall_mem_append.1 hknown
    exact no.suits_declared hres.2.2 hno (yes.suits_declared hres.2.1 hyes h)
  | .countLoop _ _ _ _ body, _, _, hres, hknown, h => body.suits_declared hres.2.2.2.2 hknown h
  | .guardLoop _ body _, _, _, hres, hknown, h => body.suits_declared hres.2.1 hknown h
  | .exitLoop _ _, _, _, _, _, h | .exitRoutine, _, _, _, _, h | .print _, _, _, _, _, h | .notify _, _, _, _, _, h
  | .dialog _ _, _, _, _, _, h | .assign _ _ _, _, _, _, _, h | .call _ _, _, _, _, _, h => h

theorem Block.suits_declared : (block : Block) → ∀ {a : Nat} {names : Scopes}, block.Resolved false a names →
    (∀ x ∈ block.announced, o.Knows x) → o.Suits O names → o.Suits O (block.declared a names)
  | .nil, _, _, _, _, h => h
  | .cons _ first rest, _, _, hres, hknown, h => by
    obtain ⟨hfirst, hrest⟩ := List.forall_mem_append.1 hknown
    exact rest.suits_declared hres.2 hrest (first.suits_declared hres.1 hfirst h)

end

/-- The outlook at the end of a block inside of a branch or a loop. -/
theorem Block.suits_outlook (block : Block) (hres : block.Resolved false a names) (h : o.Suits O names) :
    (block.outlook o).Suits O (block.declared a names) :=
  block.suits_declared hres (fun _ hx => block.knows_outlook (.inr hx))
    (h.mono (fun _ hx => block.knows_outlook (.inl hx)) (block.sure_subset_outlook o))

/-- The outlooks in the body of a routine and at its end. -/
theorem Stmt.outlooks_body {isFunction : Bool} {name : String} {parameters : List String} {body : Block}
    (hO : ListsAt O a ((Stmt.routine isFunction name parameters body).outlooks o)) :
    ListsAt O (a + routineHeadSize isFunction) (body.outlooks (o.entering isFunction name parameters) ++
      [o.entering isFunction name parameters]) := by
  cases isFunction with
  | true => exact hO.tail.tail
  | false => exact hO.tail

/-- Where a routine is defined, it counts only on what is sure there. -/
theorem suits_withRoutine {isFunction : Bool} {name : String} {parameters : List String} {body : Block}
    (hO : ListsAt O a ((Stmt.routine isFunction name parameters body).outlooks o)) (h : o.Suits O names) :
    (o.learn (if isFunction then [name] else [])).Suits O (names.withRoutine a isFunction name parameters) := by
  have hbody := Stmt.outlooks_body hO
  have hlast := (hbody.right (b := a + routineHeadSize isFunction + body.size) (by rw [body.length_outlooks])).first
  have hentry : sureAt O (a + routineHeadSize isFunction) ⊆ (o.entering isFunction name parameters).sure := by
    refine body.sureAt_start hbody.left ?_
    rw [sureAt_eq hlast]
    exact body.sure_subset_outlook _
  refine (h.mono (fun x hx => hx.learn _) (o.sure_subset_learn _)).allocate (fun hkind => ?_) ?_
  · cases isFunction with
    | true => exact Outlook.knows_learn List.mem_cons_self o
    | false => exact absurd rfl hkind
  · rintro entry ⟨⟩ x hx
    exact (List.mem_append.1 (hentry hx)).symm

/-- Behind a statement too the outlook suits the names that are declared. -/
theorem Stmt.suits_outlook (stmt : Stmt) {declarations : Bool} (hres : stmt.Resolved declarations a names)
    (hO : ListsAt O a (stmt.outlooks o)) (h : o.Suits O names) : (stmt.outlook o).Suits O (stmt.declared a names) := by
  have hmono := h.mono (fun x hx => stmt.knows_outlook (.inl hx)) (stmt.sure_subset_outlook o)
  have hknown : ∀ x ∈ stmt.announced, (stmt.outlook o).Knows x := fun x hx => stmt.knows_outlook (.inr hx)
  cases stmt with
  | routine isFunction name parameters body => exact suits_withRoutine hO h
  | _ => exact Stmt.suits_declared _ hres hknown hmono

end Suits

end MacroBasic
