/-
Statements and scripts parsed side by side. From sources that differ by a likeness the parser makes trees
that are the same up to the places in them, and such trees have the same instructions.
-/
import MacroBasic.Proofs.Grammar.Forms
import MacroBasic.Proofs.Grammar.Likeness

namespace MacroBasic

/-! ## Trees with other places -/

mutual

/-- A statement with every place in it changed by a function. -/
def Stmt.placed (f : Position → Position) : Stmt → Stmt
  | .routine isFunction name parameters body => .routine isFunction name parameters (body.placed f)
  | .branch c yes => .branch c (yes.placed f)
  | .branchElse c yes no => .branchElse c (yes.placed f) (no.placed f)
  | .countLoop counter start limit step body => .countLoop counter start limit step (body.placed f)
  | .guardLoop head body tail => .guardLoop head (body.placed f) tail
  | s => s

/-- A block with every place in it changed by a function. -/
def Block.placed (f : Position → Position) : Block → Block
  | .nil => .nil
  | .cons p first rest => .cons (f p) (first.placed f) (rest.placed f)

end

/-- A line with its place changed by a function. -/
def Line.placed (f : Position → Position) (l : Line) : Line := ⟨l.instruction, f l.position⟩

section Placed

variable (f : Position → Position)

mutual

@[simp] theorem Stmt.size_placed : (s : Stmt) → (s.placed f).size = s.size
  | .routine _ _ _ body => by simp [Stmt.placed, Stmt.size, Block.size_placed body]
  | .branch _ yes => by simp [Stmt.placed, Stmt.size, Block.size_placed yes]
  | .branchElse _ yes no => by simp [Stmt.placed, Stmt.size, Block.size_placed yes, Block.size_placed no]
  | .countLoop _ _ _ _ body => by simp [Stmt.placed, Stmt.size, Block.size_placed body]
  | .guardLoop _ body _ => by simp [Stmt.placed, Stmt.size, Block.size_placed body]
  | .share _ | .declare _ | .constants _ | .exitLoop _ _ | .exitRoutine | .print _ | .notify _ | .dialog _ _
  | .assign _ _ _ | .call _ _ => rfl

@[simp] theorem Block.size_placed : (b : Block) → (b.placed f).size = b.size
  | .nil => rfl
  | .cons _ first rest => by simp [Block.placed, Block.size, Stmt.size_placed first, Block.size_placed rest]

end

mutual

theorem Stmt.lastPlace_placed (p : Position) : (s : Stmt) → (s.placed f).lastPlace (f p) = f (s.lastPlace p)
  | .routine _ _ _ body => Block.lastPlace_placed p body
  | .branch _ yes => Block.lastPlace_placed p yes
  | .branchElse _ yes no => by
    simp only [Stmt.placed, Stmt.lastPlace]
    rw [Block.lastPlace_placed p yes, Block.lastPlace_placed _ no]
  | .countLoop _ _ _ _ body => Block.lastPlace_placed p body
  | .guardLoop _ body _ => Block.lastPlace_placed p body
  | .share _ | .declare _ | .constants _ | .exitLoop _ _ | .exitRoutine | .print _ | .notify _ | .dialog _ _
  | .assign _ _ _ | .call _ _ => rfl

theorem Block.lastPlace_placed (p : Position) : (b : Block) → (b.placed f).lastPlace (f p) = f (b.lastPlace p)
  | .nil => rfl
  | .cons q first rest => by
    simp only [Block.placed, Block.lastPlace]
    rw [Stmt.lastPlace_placed q first, Block.lastPlace_placed _ rest]

end

@[simp] theorem map_placed_mark (p : Position) (code : List Instruction) :
    (mark p code).map (Line.placed f) = mark (f p) code := by
  simp [mark, Line.placed, Function.comp_def]

mutual

/-- The instructions of a statement do not depend on the places in it. -/
theorem Stmt.lines_placed (a : Address) (p : Position) :
    (s : Stmt) → (s.placed f).lines a (f p) = (s.lines a p).map (Line.placed f)
  | .routine _ _ _ body => by
    simp [Stmt.placed, Stmt.lines, Block.lines_placed _ body, Block.lastPlace_placed f p body]
  | .branch _ yes => by simp [Stmt.placed, Stmt.lines, Block.lines_placed _ yes]
  | .branchElse _ yes no => by
    simp [Stmt.placed, Stmt.lines, Block.lines_placed _ yes, Block.lines_placed _ no,
      Block.lastPlace_placed f p yes]
  | .countLoop _ _ _ _ body => by
    simp [Stmt.placed, Stmt.lines, Block.lines_placed _ body, Block.lastPlace_placed f p body]
  | .guardLoop _ body _ => by
    simp [Stmt.placed, Stmt.lines, Block.lines_placed _ body, Block.lastPlace_placed f p body]
  | .assign _ none _ | .assign _ (some _) _ => by simp [Stmt.placed, Stmt.lines]
  | .share _ | .declare _ | .constants _ | .exitLoop _ _ | .exitRoutine | .print _ | .notify _ | .dialog _ _
  | .call _ _ => by simp [Stmt.placed, Stmt.lines]

theorem Block.lines_placed (a : Address) :
    (b : Block) → (b.placed f).lines a = (b.lines a).map (Line.placed f)
  | .nil => rfl
  | .cons p first rest => by
    simp [Block.placed, Block.lines, Stmt.lines_placed a p first, Block.lines_placed _ rest]

end

end Placed

/-- Whether what a word leads to is a statement without a block in it. -/
def Grammar.Lead.isSimple : Lead → Bool
  | .routine _ | .branch | .countLoop | .guardLoop => false
  | _ => true

namespace Grammar.Likeness

variable {L : Likeness} {env env' : Context} {a b : Symbol} {s t : List Symbol}

/-! ## Results beside names -/

/-- Names that stand for the same, made from the names `S` by declarations in the innermost scope. -/
structure Grown (L : Likeness) (S x y : Scopes) : Prop where
  names : L.Names x y
  around : x.below = S.below

theorem Grown.after {S T x y : Scopes} (h : L.Grown T x y) (hT : T.below = S.below) : L.Grown S x y :=
  ⟨h.names, h.around.trans hT⟩

theorem Grown.declare {S x y : Scopes} (h : L.Grown S x y) (name : String) :
    L.Grown S (x.allocate { name := name }) (y.allocate { name := name }) :=
  ⟨h.names.declare name, h.around⟩

/-- The names of two surroundings, before anything is declared. -/
theorem Surrounds.grown (he : L.Surrounds env env') : L.Grown env.names env.names env'.names := ⟨he.names, rfl⟩

/-- Results in relation, beside names that stand for the same, made from the names `S`. -/
structure Beside {α : Type} (L : Likeness) (S : Scopes) (R : α → α → Prop) (x y : α × Scopes) : Prop where
  value : R x.1 y.1
  names : L.Grown S x.2 y.2

theorem Beside.after {α : Type} {S T : Scopes} {R : α → α → Prop} {x y : α × Scopes} (h : L.Beside T R x y)
    (hT : T.below = S.below) : L.Beside S R x y :=
  ⟨h.value, h.names.after hT⟩

/-- Statements that are the same up to the places in them, beside names. -/
abbrev SameStmt (L : Likeness) (S : Scopes) := L.Beside S fun a b : Stmt => a.placed L.place = b.placed L.place

/-- The same of blocks. -/
abbrev SameBlock (L : Likeness) (S : Scopes) := L.Beside S fun a b : Block => a.placed L.place = b.placed L.place

/-- Goes on from two results beside names. -/
theorem Alike.beside {α γ δ : Type} {n m : Nat} {u v : Except Fault Symbol} {S : Scopes} {R : α → α → Prop}
    {Q : γ → δ → Prop} {x : Except Fault (Passed (α × Scopes) n)} {y : Except Fault (Passed (α × Scopes) m)}
    {k : Passed (α × Scopes) n → Except Fault γ} {k' : Passed (α × Scopes) m → Except Fault δ}
    (h : L.Alike (L.Passes u v (L.Beside S R)) x y)
    (hk : ∀ a b names names' r r' (hr : r.length ≤ n) (hr' : r'.length ≤ m), R a b → L.Grown S names names' →
      L.Symbols u v r r' → L.Alike Q (k ⟨(a, names), r, hr⟩) (k' ⟨(b, names'), r', hr'⟩)) :
    L.Alike Q (x >>= k) (y >>= k') :=
  h.bind fun ⟨(a, names), r, hr⟩ ⟨(b, names'), r', hr'⟩ ⟨hab, hrest⟩ =>
    hk a b names names' r r' hr hr' hab.value hab.names hrest

/-! ## Declarations -/

theorem declareVariable_alike {names names' : Scopes} (hnames : L.Names names names') (h : L.symbol a b)
    (hname : a.token = .name) : L.Alike (L.Grown names) (declareVariable names a) (declareVariable names' b) := by
  unfold declareVariable
  rw [L.name h hname, isSome_eq (hnames.getTop? b.text)]
  split
  · exact .error (L.raised h (by decide) fun _ => rfl)
  · exact .ok ⟨hnames.declare _, rfl⟩

theorem declareShared_alike {names names' : Scopes} (hnames : L.Names names names') (h : L.symbol a b)
    (hname : a.token = .name) : L.Alike (L.Grown names) (declareShared names a) (declareShared names' b) := by
  unfold declareShared
  rw [L.name h hname, isSome_eq (hnames.getTop? b.text), isSome_eq (hnames.get? b.text)]
  split
  · exact .error (L.raised h (by decide) fun _ => rfl)
  · split
    · exact .ok ⟨hnames, rfl⟩
    · exact .ok ⟨hnames.declare _, rfl⟩

/-- Declarations that do the same at symbols which may take each other's place. -/
def Declares (L : Likeness) (declare : Scopes → Symbol → Except Fault Scopes) : Prop :=
  ∀ {names names'}, L.Names names names' → ∀ {a b}, L.symbol a b → a.token = .name →
    L.Alike (L.Grown names) (declare names a) (declare names' b)

mutual

theorem nameList_alike {declare : Scopes → Symbol → Except Fault Scopes} (hd : L.Declares declare)
    {env env' : Context} (he : L.Surrounds env env') {s t : List Symbol} (h : L.Left env env' s t) :
    L.Passing env env' (L.Beside env.names Eq) (nameList declare env s) (nameList declare env' t) := by
  cases h with
  | nil hx => exact .error (Symbols.unexpected (.nil hx) _)
  | ended hu hs hb =>
    simp only [nameList, hb, reduceCtorEq, ↓reduceIte]
    exact .error (Symbols.unexpected (.ended hu hs hb) _)
  | @cons a b rest rest' hs hr =>
    unfold nameList
    rw [L.token hs]
    split
    · rename_i hname
      refine (hd he.names hs ((L.token hs).trans hname)).bind fun names names' hnames => hr.arrive.bind fun _ _ _ => ?_
      refine (moreNames_alike hd (he.withNames hnames.names) hr).beside fun more _ _ _ _ _ _ _ hmore hgrown hrest => ?_
      have htext := L.name hs ((L.token hs).trans hname)
      exact .ok ⟨⟨congrArg₂ List.cons htext hmore, hgrown.after hnames.around⟩, hrest⟩
    · exact .error (Symbols.unexpected (.cons hs hr) _)
termination_by s.length

theorem moreNames_alike {declare : Scopes → Symbol → Except Fault Scopes} (hd : L.Declares declare)
    {env env' : Context} (he : L.Surrounds env env') {s t : List Symbol} (h : L.Left env env' s t) :
    L.Passing env env' (L.Beside env.names Eq) (moreNames declare env s) (moreNames declare env' t) := by
  cases h with
  | nil hx =>
    unfold moreNames
    exact .ok ⟨⟨rfl, he.grown⟩, .nil hx⟩
  | ended hu hs hb =>
    simp only [moreNames, hb, reduceCtorEq, ↓reduceIte]
    exact .ok ⟨⟨rfl, he.grown⟩, .ended hu hs hb⟩
  | cons hs hr =>
    unfold moreNames
    rw [L.token hs]
    split
    · exact hr.arrive.bind fun _ _ _ => (nameList_alike hd he hr).bind fun _ _ hpq => .ok ⟨hpq.value, hpq.rest⟩
    · exact .ok ⟨⟨rfl, he.grown⟩, .cons hs hr⟩
termination_by s.length

end

theorem minusSign_alike (h : L.Left env env' s t) : L.Passing env env' Eq (minusSign env s) (minusSign env' t) := by
  cases h with
  | nil hx => exact .ok ⟨rfl, .nil hx⟩
  | ended hu hs hb =>
    simp only [minusSign, hb, reduceCtorEq, ↓reduceIte]
    exact .ok ⟨rfl, .ended hu hs hb⟩
  | cons hs hr =>
    unfold minusSign
    dsimp only
    rw [L.token hs]
    split
    · exact hr.arrive.bind fun _ _ _ => .ok ⟨rfl, hr⟩
    · exact .ok ⟨rfl, .cons hs hr⟩

theorem constantValue?_eof (negative : Bool) (h : a.token = .eof) : constantValue? negative a = none := by
  unfold constantValue?
  rw [h]

theorem constantLiteral_alike (he : L.Surrounds env env') (hname : L.symbol a b) (hn : a.token = .name)
    (negative : Bool) (h : L.Left env env' s t) :
    L.Parsing env env' Eq (constantLiteral env a negative s) (constantLiteral env' b negative t) := by
  cases h with
  | nil hx => exact .error (Symbols.unexpected (.nil hx) _)
  | ended hu hs hb =>
    simp only [constantLiteral, constantValue?_eof negative hb]
    exact .error (Symbols.unexpected (.ended hu hs hb) _)
  | @cons c d rest rest' hs hr =>
    have hv : constantValue? negative c = constantValue? negative d := by
      have hvalue := L.value hs
      rw [L.token hs] at hvalue
      unfold constantValue?
      rw [L.token hs]
      cases ht : d.token with
      | number => rw [hvalue (.inl ht)]
      | string => rw [hvalue (.inr ht)]
      | _ => rfl
    unfold constantLiteral
    dsimp only
    rw [hv, L.name hname hn, he.declared]
    split
    · exact .error (Symbols.unexpected (.cons hs hr) _)
    · split
      · exact .error (L.raised hname (by decide) fun _ => rfl)
      · exact hr.arrive.bind fun _ _ _ => .ok ⟨rfl, hr⟩

mutual

theorem constantList_alike {env env' : Context} (he : L.Surrounds env env') {s t : List Symbol}
    (h : L.Left env env' s t) :
    L.Parsing env env' (L.Beside env.names Eq) (constantList env s) (constantList env' t) := by
  rw [constantList, constantList]
  refine (h.require .name (by decide) (h.unexpected _)).required fun name name' _ _ _ _ hname hr =>
    (hr.require _ (by decide) (hr.unexpected _)).required fun _ _ _ _ _ _ _ hr =>
    (minusSign_alike hr).passed fun negative _ _ _ _ hr =>
    (constantLiteral_alike he hname.1 hname.2 negative hr).parsed fun v _ _ _ _ hr => ?_
  dsimp only
  rw [L.name hname.1 hname.2]
  have hnames : L.Names (env.names.allocate { name := name'.text, kind := .constant, value := v })
      (env'.names.allocate { name := name'.text, kind := .constant, value := v }) := he.names.allocate nofun
  exact (moreConstants_alike (he.withNames hnames) hr).beside fun _ _ _ _ _ _ _ _ hmore hgrown hr =>
    .ok ⟨⟨congrArg (List.cons _) hmore, hgrown.after rfl⟩, hr⟩
termination_by s.length

theorem moreConstants_alike {env env' : Context} (he : L.Surrounds env env') {s t : List Symbol}
    (h : L.Left env env' s t) :
    L.Passing env env' (L.Beside env.names Eq) (moreConstants env s) (moreConstants env' t) := by
  rw [moreConstants.eq_def env, moreConstants.eq_def env']
  cases h with
  | nil hx => exact .ok ⟨⟨rfl, he.grown⟩, .nil hx⟩
  | ended hu hs hb =>
    simp only [hb, reduceCtorEq, ↓reduceIte]
    exact .ok ⟨⟨rfl, he.grown⟩, .ended hu hs hb⟩
  | cons hs hr =>
    dsimp only
    rw [L.token hs]
    split
    · exact hr.arrive.bind fun _ _ _ => (constantList_alike he hr).bind fun _ _ hpq => .ok ⟨hpq.value, hpq.rest⟩
    · exact .ok ⟨⟨rfl, he.grown⟩, .cons hs hr⟩
termination_by s.length

end

mutual

theorem parameterNames_alike (before : List String) {s t : List Symbol} (h : L.Left env env' s t) :
    L.Passing env env' Eq (parameterNames env before s) (parameterNames env' before t) := by
  cases h with
  | nil hx => exact .error (Symbols.unexpected (.nil hx) _)
  | ended hu hs hb =>
    simp only [parameterNames, hb, reduceCtorEq, ↓reduceIte]
    exact .error (Symbols.unexpected (.ended hu hs hb) _)
  | cons hs hr =>
    unfold parameterNames
    rw [L.token hs]
    split
    · rename_i hname
      rw [L.name hs ((L.token hs).trans hname)]
      split
      · exact .error (L.raised hs (by decide) fun _ => rfl)
      · exact hr.arrive.bind fun _ _ _ =>
          (moreParameters_alike _ hr).passed fun _ _ _ _ _ hrest => .ok ⟨rfl, hrest⟩
    · exact .error (Symbols.unexpected (.cons hs hr) _)
termination_by s.length

theorem moreParameters_alike (before : List String) {s t : List Symbol} (h : L.Left env env' s t) :
    L.Passing env env' Eq (moreParameters env before s) (moreParameters env' before t) := by
  cases h with
  | nil hx =>
    unfold moreParameters
    exact .ok ⟨rfl, .nil hx⟩
  | ended hu hs hb =>
    simp only [moreParameters, hb, reduceCtorEq, ↓reduceIte]
    exact .ok ⟨rfl, .ended hu hs hb⟩
  | cons hs hr =>
    unfold moreParameters
    rw [L.token hs]
    split
    · exact hr.arrive.bind fun _ _ _ =>
        (parameterNames_alike before hr).passed fun _ _ _ _ _ hrest => .ok ⟨rfl, hrest⟩
    · exact .ok ⟨rfl, .cons hs hr⟩
termination_by s.length

end

theorem parameterList_alike (h : L.Left env env' s t) :
    L.Passing env env' Eq (parameterList env s) (parameterList env' t) := by
  cases h with
  | nil hx => exact .ok ⟨rfl, .nil hx⟩
  | ended hu hs hb =>
    simp only [parameterList, hb, reduceCtorEq, ↓reduceIte]
    exact .ok ⟨rfl, .ended hu hs hb⟩
  | @cons a b rest rest' hs hr =>
    unfold parameterList
    dsimp only
    rw [L.token hs, hr.token]
    split
    · refine hr.arrive.bind fun _ _ _ => Alike.passed ?_ fun _ _ _ _ _ hr =>
        (hr.requireClose _).required fun _ _ _ _ _ _ _ hr => .ok ⟨rfl, hr⟩
      split
      · exact .ok ⟨rfl, hr⟩
      · exact parameterNames_alike [] hr
    · exact .ok ⟨rfl, .cons hs hr⟩

/-! ## Simple statements -/

theorem checkAssignable_alike (he : L.Surrounds env env') (h : L.symbol a b) (hname : a.token = .name) :
    L.Alike (L.Grown env.names) (checkAssignable env a) (checkAssignable env' b) := by
  unfold checkAssignable
  rw [L.name h hname, he.known]
  split
  · exact .error (L.raised h (by decide) fun _ => rfl)
  · exact .error (L.raised h (by decide) fun _ => rfl)
  · exact .ok he.grown
  · rcases he.explicit with hx | ⟨hlenient, hx⟩
    · rw [hx]
      split
      · exact .error (L.raised h (by decide) fun _ => rfl)
      · exact .ok (he.grown.declare _)
    · -- the second parse declares the name
      rw [hx, if_neg Bool.false_ne_true]
      split
      · exact .refused hlenient
      · exact .ok (he.grown.declare _)

theorem assignment_alike (he : L.Surrounds env env') (ha : L.symbol a b) (hname : a.token = .name)
    (op : Option BinaryOperator) (h : L.Left env env' s t) :
    L.Passing env env' (L.SameStmt env.names) (assignment env a op s) (assignment env' b op t) := by
  unfold assignment
  rw [L.name ha hname]
  exact (checkAssignable_alike he ha hname).bind fun names names' hnames => h.arrive.bind fun _ _ _ =>
    (expression_alike (he.withNames hnames.names) h).parsed fun _ _ _ _ _ hrest => .ok ⟨⟨rfl, hnames⟩, hrest⟩

theorem callStatement_alike (he : L.Surrounds env env') (ha : L.symbol a b) (hname : a.token = .name)
    (h : L.Left env env' s t) :
    L.Passing env env' (L.SameStmt env.names) (callStatement env a s) (callStatement env' b t) := by
  unfold callStatement
  rw [L.name ha hname, map_isRoutine (he.names.get? b.text)]
  split
  · exact (call_alike he ha hname false h).passed fun _ _ _ _ _ hrest => .ok ⟨⟨rfl, he.grown⟩, hrest⟩
  · exact .error (h.unexpected _)
  · exact .error (L.raised ha (by decide) fun ht => by rw [ht])

theorem nameStatement_alike (he : L.Surrounds env env') (ha : L.symbol a b) (hname : a.token = .name)
    (h : L.Left env env' s t) :
    L.Passing env env' (L.SameStmt env.names) (nameStatement env a s) (nameStatement env' b t) := by
  cases h with
  | nil hx => exact callStatement_alike he ha hname (.nil hx)
  | ended hu hs hb =>
    simp only [nameStatement, hb]
    exact callStatement_alike he ha hname (.ended hu hs hb)
  | cons hs hr =>
    unfold nameStatement
    dsimp only
    rw [L.token hs]
    have hassigned (op : Option BinaryOperator) := assignment_alike he ha hname op hr
    split
    · exact (hassigned none).bind fun _ _ hpq => .ok ⟨hpq.value, hpq.rest⟩
    · exact (hassigned (some _)).bind fun _ _ hpq => .ok ⟨hpq.value, hpq.rest⟩
    · exact callStatement_alike he ha hname (.cons hs hr)

theorem exitStatement_alike (he : L.Surrounds env env') (at_ : Place) (h : L.Left env env' s t) :
    L.Passing env env' (L.SameStmt env.names) (exitStatement env at_ s) (exitStatement env' at_ t) := by
  cases h with
  | nil hx => exact .error (Symbols.unexpected (.nil hx) _)
  | ended hu hs hb =>
    simp only [exitStatement, hb, exitTarget?]
    exact .error (Symbols.unexpected (.ended hu hs hb) _)
  | @cons a b rest rest' hs hr =>
    have hexit (target : Loop ⊕ Kind) : L.Alike Eq (exitFrom at_ a target) (exitFrom at_ b target) := by
      rcases target with loop | kind <;> unfold exitFrom <;> dsimp only <;> split
      · exact .ok rfl
      · exact .error (L.raised hs (by decide) fun _ => rfl)
      · exact .ok rfl
      · exact .error (L.raised hs (by decide) fun _ => rfl)
    unfold exitStatement
    dsimp only
    rw [L.token hs]
    split
    · refine (hexit _).bind fun stmt _ hstmt => ?_
      subst hstmt
      exact hr.arrive.bind fun _ _ _ => .ok ⟨⟨rfl, he.grown⟩, hr⟩
    · exact .error (Symbols.unexpected (.cons hs hr) _)

theorem printStatement_alike (he : L.Surrounds env env') (h : L.Left env env' s t) :
    L.Passing env env' (L.SameStmt env.names) (printStatement env s) (printStatement env' t) := by
  unfold printStatement
  rw [h.token]
  split
  · exact (expression_alike he h).parsed fun _ _ _ _ _ hrest => .ok ⟨⟨rfl, he.grown⟩, hrest⟩
  · exact .ok ⟨⟨rfl, he.grown⟩, h⟩

/-! ## Closing words -/

theorem closeRoutine_alike (isFunction : Bool) (h : L.Left env env' s t) :
    L.Passing env env' Eq (closeRoutine env isFunction s) (closeRoutine env' isFunction t) := by
  cases h with
  | nil hx => exact .error (Symbols.unexpected (.nil hx) _)
  | ended hu hs hb =>
    simp only [closeRoutine, hb, reduceCtorEq, ↓reduceIte]
    exact .error (Symbols.unexpected (.ended hu hs hb) _)
  | cons hs hr =>
    unfold closeRoutine
    dsimp only
    rw [L.token hs]
    generalize Token.word (if isFunction then .endFunction else .endSub) = closer
    split
    · exact hr.arrive.bind fun _ _ _ => .ok ⟨rfl, hr⟩
    · split
      · exact hr.arrive.bind fun _ _ _ =>
          (hr.require _ (by nofun) (hr.unexpected _)).required fun _ _ _ _ _ _ _ hr => .ok ⟨rfl, hr⟩
      · exact .error (Symbols.unexpected (.cons hs hr) _)

/-- A closing word that is absent, which may be allowed. -/
theorem absent_alike {α : Type} (allowed : Bool) (x : α) (message : String) (h : L.Left env env' s t) :
    L.Passing env env' Eq (if allowed then .ok (.stay x s) else .error (env.violation s message))
      (if allowed then .ok (.stay x t) else .error (env'.violation t message)) := by
  split
  · exact .ok ⟨rfl, h⟩
  · exact .error (h.violation _)

theorem closeIf_alike (optional : Bool) (h : L.Left env env' s t) :
    L.Passing env env' Eq (closeIf env optional s) (closeIf env' optional t) := by
  unfold closeIf
  dsimp only
  cases h with
  | nil hx => exact absent_alike _ _ _ (.nil hx)
  | ended hu hs hb =>
    simp only [hb, reduceCtorEq, ↓reduceIte]
    exact absent_alike _ _ _ (.ended hu hs hb)
  | cons hs hr =>
    dsimp only
    rw [L.token hs]
    split
    · exact hr.arrive.bind fun _ _ _ => .ok ⟨rfl, hr⟩
    · split
      · exact hr.arrive.bind fun _ _ _ =>
          (hr.require _ (by nofun) (hr.unexpected _)).required fun _ _ _ _ _ _ _ hr => .ok ⟨rfl, hr⟩
      · exact absent_alike _ _ _ (.cons hs hr)

theorem repeatedCounter_alike (counter : String) (h : L.Left env env' s t) :
    L.Passing env env' Eq (repeatedCounter env counter s) (repeatedCounter env' counter t) := by
  cases h with
  | nil hx => exact .ok ⟨rfl, .nil hx⟩
  | ended hu hs hb =>
    simp only [repeatedCounter, hb, reduceCtorEq, decide_false, Bool.false_and, Bool.false_eq_true, ↓reduceIte]
    exact .ok ⟨rfl, .ended hu hs hb⟩
  | @cons a b rest rest' hs hr =>
    have hcond : (decide (a.token = .name) && a.text == counter) = (decide (b.token = .name) && b.text == counter) := by
      rw [L.token hs]
      by_cases hb : b.token = .name
      · rw [L.name hs ((L.token hs).trans hb)]
      · simp [hb]
    unfold repeatedCounter
    dsimp only
    rw [hcond]
    split
    · exact hr.arrive.bind fun _ _ _ => .ok ⟨rfl, hr⟩
    · exact .ok ⟨rfl, .cons hs hr⟩

theorem closeFor_alike (counter : String) (optional : Bool) (h : L.Left env env' s t) :
    L.Passing env env' Eq (closeFor env counter optional s) (closeFor env' counter optional t) := by
  unfold closeFor
  dsimp only
  cases h with
  | nil hx => exact absent_alike _ _ _ (.nil hx)
  | ended hu hs hb =>
    simp only [hb, reduceCtorEq, ↓reduceIte]
    exact absent_alike _ _ _ (.ended hu hs hb)
  | cons hs hr =>
    dsimp only
    rw [L.token hs]
    split
    · exact hr.arrive.bind fun _ _ _ =>
        (repeatedCounter_alike counter hr).passed fun _ _ _ _ _ hr => .ok ⟨rfl, hr⟩
    · exact absent_alike _ _ _ (.cons hs hr)

theorem loopGuard_alike (he : L.Surrounds env env') (h : L.Left env env' s t) :
    L.Passing env env' Eq (loopGuard env s) (loopGuard env' t) := by
  cases h with
  | nil hx => exact .ok ⟨rfl, .nil hx⟩
  | ended hu hs hb =>
    simp only [loopGuard, hb, reduceCtorEq, decide_false, Bool.or_self, Bool.false_eq_true, ↓reduceIte]
    exact .ok ⟨rfl, .ended hu hs hb⟩
  | cons hs hr =>
    unfold loopGuard
    dsimp only
    rw [L.token hs]
    split
    · exact hr.arrive.bind fun _ _ _ => (expression_alike he hr).parsed fun _ _ _ _ _ hr => .ok ⟨rfl, hr⟩
    · exact .ok ⟨rfl, .cons hs hr⟩

theorem closeDo_alike (he : L.Surrounds env env') (hasHead optional : Bool) (h : L.Left env env' s t) :
    L.Passing env env' Eq (closeDo env hasHead optional s) (closeDo env' hasHead optional t) := by
  unfold closeDo
  dsimp only
  cases h with
  | nil hx => exact absent_alike _ _ _ (.nil hx)
  | ended hu hs hb =>
    simp only [hb, reduceCtorEq, ↓reduceIte]
    exact absent_alike _ _ _ (.ended hu hs hb)
  | cons hs hr =>
    dsimp only
    rw [L.token hs, hr.token]
    split
    · refine hr.arrive.bind fun _ _ _ => ?_
      split
      · exact .error (hr.violation _)
      · exact (loopGuard_alike he hr).passed fun _ _ _ _ _ hr => .ok ⟨rfl, hr⟩
    · exact absent_alike _ _ _ (.cons hs hr)

theorem forStep_alike (he : L.Surrounds env env') (h : L.Left env env' s t) :
    L.Passing env env' Eq (forStep env s) (forStep env' t) := by
  cases h with
  | nil hx => exact .ok ⟨rfl, .nil hx⟩
  | ended hu hs hb =>
    simp only [forStep, hb, reduceCtorEq, ↓reduceIte]
    exact .ok ⟨rfl, .ended hu hs hb⟩
  | cons hs hr =>
    unfold forStep
    dsimp only
    rw [L.token hs]
    split
    · exact hr.arrive.bind fun _ _ _ => (expression_alike he hr).parsed fun _ _ _ _ _ hr => .ok ⟨rfl, hr⟩
    · exact .ok ⟨rfl, .cons hs hr⟩

theorem forHead_alike (he : L.Surrounds env env') (h : L.Left env env' s t) :
    L.Passing env env' (L.Beside env.names Eq) (forHead env s) (forHead env' t) := by
  cases h with
  | nil hx => exact .error (Symbols.unexpected (.nil hx) _)
  | ended hu hs hb =>
    simp only [forHead, hb, reduceCtorEq, ↓reduceIte]
    exact .error (Symbols.unexpected (.ended hu hs hb) _)
  | cons hs hr =>
    unfold forHead
    dsimp only
    rw [L.token hs]
    split
    · rename_i hn
      have hname := (L.token hs).trans hn
      refine (checkAssignable_alike he hs hname).bind fun names names' hnames => hr.arrive.bind fun _ _ _ => ?_
      have he := he.withNames hnames.names
      rw [L.name hs hname]
      exact (hr.require _ (by decide) (hr.violation _)).required fun _ _ _ _ _ _ _ hr =>
        (expression_alike he hr).parsed fun _ _ _ _ _ hr =>
        (hr.require _ (by decide) (hr.violation _)).required fun _ _ _ _ _ _ _ hr =>
        (expression_alike he hr).parsed fun _ _ _ _ _ hr =>
        (forStep_alike he hr).passed fun _ _ _ _ _ hr => .ok ⟨⟨rfl, hnames⟩, hr⟩
    · exact .error (Symbols.unexpected (.cons hs hr) _)

theorem routineHead_alike (he : L.Surrounds env env') (h : L.Left env env' s t) :
    L.Passing env env' Eq (routineHead env s) (routineHead env' t) := by
  cases h with
  | nil hx => exact .error (Symbols.unexpected (.nil hx) _)
  | ended hu hs hb =>
    simp only [routineHead, hb, reduceCtorEq, ↓reduceIte]
    exact .error (Symbols.unexpected (.ended hu hs hb) _)
  | cons hs hr =>
    unfold routineHead
    dsimp only
    rw [L.token hs]
    split
    · rename_i hn
      rw [L.name hs ((L.token hs).trans hn), he.declared]
      split
      · exact .error (L.raised hs (by decide) fun _ => rfl)
      · exact hr.arrive.bind fun _ _ _ =>
          (parameterList_alike hr).passed fun _ _ _ _ _ hr => .ok ⟨rfl, hr⟩
    · exact .error (Symbols.unexpected (.cons hs hr) _)

/-! ## Entering a routine -/

theorem Names.parameters {S T : Scopes} (h : L.Names S T) (parameters : List String) :
    L.Names (parameters.foldl (fun n p => n.allocate { name := p }) S)
      (parameters.foldl (fun n p => n.allocate { name := p }) T) := by
  induction parameters generalizing S T with
  | nil => exact h
  | cons p rest ih => exact ih (h.declare p)

/-- Names around and inside a routine that stand for the same. -/
structure Entered (L : Likeness) (S : Scopes) (x y : Scopes × Scopes) : Prop where
  outside : L.Grown S x.1 y.1
  inside : L.Names x.2 y.2

theorem enterRoutine_alike {S T : Scopes} (h : L.Names S T) {b : Binding}
    (hb : b.isRoutine = true → b.address.isSome = true) (hdeep : L.fault Scopes.tooDeep Scopes.tooDeep) :
    L.Alike (L.Entered S) (enterRoutine S b) (enterRoutine T b) := by
  have houtside : L.Names (S.allocate b) (T.allocate b) := h.allocate hb
  have hdepth : (S.allocate b).depth = (T.allocate b).depth := houtside.depth_eq
  unfold enterRoutine Scopes.pushScope
  dsimp only
  by_cases hlimit : Scopes.limit ≤ (T.allocate b).depth
  · rw [if_pos (hdepth ▸ hlimit), if_pos hlimit]
    exact .error hdeep
  · rw [if_neg (hdepth ▸ hlimit), if_neg hlimit]
    refine .ok ⟨⟨houtside, rfl⟩, Names.parameters ?_ _⟩
    exact .cons (fun _ => .none) houtside

/-! ## Blocks -/

theorem Block.size_of_placed {f : Position → Position} {x y : Block} (h : x.placed f = y.placed f) :
    x.size = y.size := by
  rw [← Block.size_placed f x, h, Block.size_placed]

theorem Stmt.size_of_placed {f : Position → Position} {x y : Stmt} (h : x.placed f = y.placed f) :
    x.size = y.size := by
  rw [← Stmt.size_placed f x, h, Stmt.size_placed]

/-- A statement without a block in it. -/
theorem simple_alike (he : L.Surrounds env env') (at_ : Place) (a : Address) {sym sym' : Symbol}
    (hs : L.symbol sym sym') (hsimple : (lead sym.token).isSimple = true) {rest rest' : List Symbol}
    (hr : L.Left env env' rest rest') :
    L.Passing env env' (L.SameStmt env.names) (statement env at_ a sym rest) (statement env' at_ a sym' rest') := by
  rw [L.token hs] at hsimple
  rw [statement.eq_def env, statement.eq_def env', L.token hs]
  cases hlead : lead sym'.token with
  | share =>
    cases hallowed : env.external with
    | true =>
      have hallowed' : env'.external = true := he.external.elim (fun h => h ▸ hallowed) And.right
      rw [hallowed']
      exact hr.arrive.bind fun _ _ _ =>
        (nameList_alike (fun hnames => declareShared_alike hnames) he hr).beside
          fun _ _ _ _ _ _ _ _ heq hnames hr => .ok ⟨⟨congrArg _ (congrArg Stmt.share heq), hnames⟩, hr⟩
    | false =>
      rcases he.external with hx | ⟨hlenient, _⟩
      · rw [← hx, hallowed]
        exact .error (L.raised hs (by decide) fun _ => rfl)
      · exact .refused hlenient
  | declare =>
    exact hr.arrive.bind fun _ _ _ =>
      (nameList_alike (fun hnames => declareVariable_alike hnames) he hr).beside
        fun _ _ _ _ _ _ _ _ heq hnames hr => .ok ⟨⟨congrArg _ (congrArg Stmt.declare heq), hnames⟩, hr⟩
  | constants =>
    exact hr.arrive.bind fun _ _ _ => (constantList_alike he hr).bind fun _ _ hpq =>
      .ok ⟨⟨congrArg _ (congrArg Stmt.constants hpq.value.value), hpq.value.names⟩, hpq.rest⟩
  | exit => exact hr.arrive.bind fun _ _ _ => exitStatement_alike he at_ hr
  | print => exact hr.arrive.bind fun _ _ _ => printStatement_alike he hr
  | notify n => exact hr.arrive.bind fun _ _ _ => .ok ⟨⟨rfl, he.grown⟩, hr⟩
  | dialog d =>
    exact hr.arrive.bind fun _ _ _ =>
      (dialogSlots_alike he _ true hr).passed fun _ _ _ _ _ hr => .ok ⟨⟨rfl, he.grown⟩, hr⟩
  | name =>
    exact hr.arrive.bind fun _ _ _ => nameStatement_alike he hs ((L.token hs).trans (name_of_lead hlead)) hr
  | none => exact .error (Symbols.unexpected (.cons hs hr) _)
  | routine | branch | countLoop | guardLoop => rw [hlead] at hsimple; cases hsimple

mutual

theorem block_alike {env env' : Context} (he : L.Surrounds env env') (hbreaks : L.KeepsBreaks) (at_ : Place)
    (hdeep : at_.declarations = true → L.fault Scopes.tooDeep Scopes.tooDeep) (stops : List Word) (a : Address)
    {s t : List Symbol} (h : L.Left env env' s t) :
    L.Passing env env' (L.SameBlock env.names) (block env at_ stops a s) (block env' at_ stops a t) := by
  rw [block.eq_def env, block.eq_def env']
  cases h with
  | nil hx => exact .ok ⟨⟨rfl, he.grown⟩, .nil hx⟩
  | ended hu hs hb =>
    simp only [hb, endsBlock, reduceCtorEq, ↓reduceIte]
    exact .ok ⟨⟨rfl, he.grown⟩, .ended hu hs hb⟩
  | @cons sym sym' rest rest' hs hr =>
    have hstay : L.Passing env env' (L.SameBlock env.names) (.ok (.stay (.nil, env.names) (sym :: rest)))
        (.ok (.stay (.nil, env'.names) (sym' :: rest'))) := .ok ⟨⟨rfl, he.grown⟩, .cons hs hr⟩
    dsimp only
    rw [L.token hs, hbreaks hs]
    split
    · split
      · exact hstay
      · exact hr.arrive.bind fun _ _ _ =>
          (block_alike he hbreaks at_ hdeep stops a hr).bind fun _ _ hpq => .ok ⟨hpq.value, hpq.rest⟩
    · split
      · exact hstay
      · refine (statement_alike he hbreaks at_ hdeep a hs hr).beside
          fun first first' names names' r r' hlen _ hfirst hnames hrest => ?_
        dsimp only
        rw [hrest.token, Stmt.size_of_placed hfirst]
        split
        · refine (block_alike (he.withNames hnames.names) hbreaks at_ hdeep stops _ hrest).beside
            fun more more' _ _ r r' _ _ hmore hgrown hrest => .ok ⟨⟨?_, hgrown.after hnames.around⟩, hrest⟩
          show Block.cons (L.place sym.position) (first.placed L.place) (more.placed L.place) =
            .cons (L.place sym'.position) (first'.placed L.place) (more'.placed L.place)
          rw [L.position hs, hfirst, hmore]
        · exact .error (hrest.unexpected _)
termination_by 3 * s.length

theorem statement_alike {env env' : Context} (he : L.Surrounds env env') (hbreaks : L.KeepsBreaks) (at_ : Place)
    (hdeep : at_.declarations = true → L.fault Scopes.tooDeep Scopes.tooDeep) (a : Address) {sym sym' : Symbol}
    (hs : L.symbol sym sym') {rest rest' : List Symbol} (hr : L.Left env env' rest rest') :
    L.Passing env env' (L.SameStmt env.names) (statement env at_ a sym rest) (statement env' at_ a sym' rest') := by
  cases hlead : lead sym.token with
  | routine isFunction =>
    rw [statement.eq_def env, statement.eq_def env', ← L.token hs, hlead]
    dsimp only
    generalize (if isFunction then Kind.function else .sub) = kind
    split
    · exact .error (L.raised hs (by decide) fun _ => rfl)
    · rename_i hdeclarations
      refine hr.arrive.bind fun _ _ _ => (routineHead_alike he hr).passed fun head r r' _ _ hr => ?_
      have hdeep := hdeep (by simpa using hdeclarations)
      refine (enterRoutine_alike he.names (fun _ => rfl) hdeep).bind fun entered entered' hentered => ?_
      refine (block_alike (he.withNames hentered.inside) hbreaks _ (fun _ => hdeep) _ _ hr).beside
        fun body body' _ _ _ _ _ _ hbody _ hr => ?_
      refine (closeRoutine_alike isFunction hr).passed fun _ _ _ _ _ hr => .ok ⟨⟨?_, hentered.outside⟩, hr⟩
      exact congrArg (Stmt.routine isFunction head.1 head.2) hbody
  | branch =>
    rw [statement.eq_def env, statement.eq_def env', ← L.token hs, hlead]
    refine hr.arrive.bind fun _ _ _ => (expression_alike he hr).parsed fun condition r r' _ _ hr =>
      (hr.require _ (by decide) (hr.violation _)).required fun _ _ r r' _ _ _ hr => ?_
    dsimp only
    rw [hbreaks hr.current]
    refine (block_alike he hbreaks _ (by nofun) _ _ hr).beside fun yes yes' names names' r r' _ _ hyes hnames hr => ?_
    dsimp only
    rw [Block.size_of_placed hyes]
    exact (branchRest_alike (he.withNames hnames.names) hbreaks _ (by nofun) _ condition hyes _ hr).bind
      fun _ _ hpq => .ok ⟨hpq.value.after hnames.around, hpq.rest⟩
  | countLoop =>
    rw [statement.eq_def env, statement.eq_def env', ← L.token hs, hlead]
    refine hr.arrive.bind fun _ _ _ => (forHead_alike he hr).beside
      fun head _ names names' r r' _ _ heq hnames hr => ?_
    subst heq
    obtain ⟨counter, start, limit, step⟩ := head
    dsimp only
    rw [hbreaks hr.current]
    refine (block_alike (he.withNames hnames.names) hbreaks _ (by nofun) _ _ hr).beside
      fun body body' _ _ _ _ _ _ hbody hgrown hr => ?_
    refine (closeFor_alike counter _ hr).passed fun _ _ _ _ _ hr => .ok ⟨⟨?_, hgrown.after hnames.around⟩, hr⟩
    exact congrArg (Stmt.countLoop counter start limit step) hbody
  | guardLoop =>
    rw [statement.eq_def env, statement.eq_def env', ← L.token hs, hlead]
    refine hr.arrive.bind fun _ _ _ => (loopGuard_alike he hr).passed fun head r r' _ _ hr => ?_
    dsimp only
    rw [hbreaks hr.current]
    refine (block_alike he hbreaks _ (by nofun) _ _ hr).beside
      fun body body' names names' _ _ _ _ hbody hnames hr => ?_
    refine (closeDo_alike (he.withNames hnames.names) _ _ hr).passed fun tail _ _ _ _ hr => .ok ⟨⟨?_, hnames⟩, hr⟩
    exact congrArg (Stmt.guardLoop head · tail) hbody
  | _ => exact simple_alike he at_ a hs (by rw [hlead]; rfl) hr
termination_by 3 * rest.length + 2

theorem branchRest_alike {env env' : Context} (he : L.Surrounds env env') (hbreaks : L.KeepsBreaks) (inner : Place)
    (hdeep : inner.declarations = true → L.fault Scopes.tooDeep Scopes.tooDeep) (onLine : Bool)
    (condition : Expr) {yes yes' : Block} (hyes : yes.placed L.place = yes'.placed L.place) (otherwise : Address)
    {s t : List Symbol} (h : L.Left env env' s t) :
    L.Passing env env' (L.SameStmt env.names) (branchRest env inner onLine condition yes otherwise s)
      (branchRest env' inner onLine condition yes' otherwise t) := by
  have hbranch : (Stmt.branch condition yes).placed L.place = (Stmt.branch condition yes').placed L.place :=
    congrArg (Stmt.branch condition) hyes
  rw [branchRest.eq_def env, branchRest.eq_def env']
  cases h with
  | nil hx =>
    exact (closeIf_alike onLine (.nil hx)).passed fun _ _ _ _ _ hr => .ok ⟨⟨hbranch, he.grown⟩, hr⟩
  | ended hu hs hb =>
    simp only [hb, reduceCtorEq, ↓reduceIte]
    exact (closeIf_alike onLine (.ended hu hs hb)).passed fun _ _ _ _ _ hr => .ok ⟨⟨hbranch, he.grown⟩, hr⟩
  | cons hs hr =>
    dsimp only
    rw [L.token hs]
    split
    · refine hr.arrive.bind fun _ _ _ => (block_alike he hbreaks _ hdeep _ _ hr).beside
        fun no no' _ _ _ _ _ _ hno hnames hr =>
        (closeIf_alike onLine hr).passed fun _ _ _ _ _ hr => .ok ⟨⟨?_, hnames⟩, hr⟩
      show Stmt.branchElse condition (yes.placed L.place) (no.placed L.place) = .branchElse condition _ _
      rw [hyes, hno]
    · exact (closeIf_alike onLine (.cons hs hr)).passed fun _ _ _ _ _ hr => .ok ⟨⟨hbranch, he.grown⟩, hr⟩
termination_by 3 * s.length + 1

end

/-! ## Scripts -/

/-- Texts whose symbols may take each other's place, up to the end of both or up to an end symbol in the second. -/
abbrev Texts (L : Likeness) (x y : MacroBasic.Symbols) : Prop := L.Symbols x.ending y.ending x.ahead y.ahead

/-- The parser does not tell two texts apart that differ by a likeness, where the names that are shared stand for
the same. -/
theorem script_alike {x y : MacroBasic.Symbols} (h : L.Texts x y) (hbreaks : L.KeepsBreaks)
    {explicit explicit' external external' : Bool} {shared shared' : Scope} (hshared : L.Frames shared.unbound shared'.unbound)
    (hexplicit : explicit = explicit' ∨ L.lenient ∧ explicit' = false)
    (hexternal : external = external' ∨ L.lenient ∧ external' = true)
    (hdeep : L.fault Scopes.tooDeep Scopes.tooDeep) :
    L.Alike (fun b b' => b.placed L.place = b'.placed L.place) (script x explicit external shared)
      (script y explicit' external' shared') := by
  unfold script
  dsimp only
  have hnames : L.Names (.onBottom shared.unbound) (.onBottom shared'.unbound) :=
    .cons (fun _ => .none) (.cons hshared .nil)
  have he : L.Surrounds ⟨.onBottom shared.unbound, explicit, external, x.ending⟩
      ⟨.onBottom shared'.unbound, explicit', external', y.ending⟩ := ⟨hnames, hexplicit, hexternal⟩
  have h : L.Left ⟨.onBottom shared.unbound, explicit, external, x.ending⟩
      ⟨.onBottom shared'.unbound, explicit', external', y.ending⟩ x.ahead y.ahead := h
  refine h.arrive.bind fun _ _ _ => (block_alike he hbreaks _ (fun _ => hdeep) _ _ h).beside
    fun body body' _ _ r r' _ _ hbody _ hr => ?_
  dsimp only
  rw [hr.token]
  split
  · exact .ok hbody
  · exact .error (hr.unexpected _)

end Grammar.Likeness

end MacroBasic
