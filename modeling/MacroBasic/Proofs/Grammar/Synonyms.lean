/-
Statements that can be written in two ways. An update `x += e` stands for `x = x + (e)`, and the arguments of a call
may stand in parentheses or without. Both ways are read by different parts of the parser, and both come to the same
instructions or to faults of the same code, as long as the parser gets to the end of the expressions. Where it is
stopped in front of a parenthesis, one way finds no end of the statement and the other no closing parenthesis.
-/
import MacroBasic.Grammar.Statement
import MacroBasic.Proofs.Grammar.Code
import MacroBasic.Proofs.Grammar.Troubles

namespace MacroBasic.Grammar

/-! ## Blocks that begin with a statement -/

/-- Two readings of a block that come to the same: blocks with the same instructions and the same names, in front of
the same symbols, or faults of the same code. -/
inductive SameBlocks (a : Address) :
    Except Fault ((Block × Scopes) × List Symbol) → Except Fault ((Block × Scopes) × List Symbol) → Prop
  | ok {b b' : Block} {names : Scopes} {r : List Symbol} :
    instructionsOf (b.lines a) = instructionsOf (b'.lines a) → SameBlocks a (.ok ((b, names), r)) (.ok ((b', names), r))
  | error {f g : Fault} : f.code = g.code → SameBlocks a (.error f) (.error g)

/-- A reading that ends with a fault of the given code. -/
def FailsWith {α : Type} (code : FaultCode) (x : Except Fault α) : Prop := ∃ f, x = .error f ∧ f.code = code

instance FailsWith.decidable {α : Type} (code : FaultCode) : (x : Except Fault α) → Decidable (FailsWith code x)
  | .ok _ => isFalse fun ⟨_, h, _⟩ => by cases h
  | .error f => decidable_of_iff (f.code = code) ⟨fun h => ⟨f, rfl, h⟩, fun ⟨_, hf, h⟩ => by cases hf; exact h⟩

theorem SameBlocks.of_codes {a : Address} {code : FaultCode} {x y : Except Fault ((Block × Scopes) × List Symbol)}
    (hx : FailsWith code x) (hy : FailsWith code y) : SameBlocks a x y := by
  obtain ⟨f, rfl, hf⟩ := hx
  obtain ⟨g, rfl, hg⟩ := hy
  exact .error (hf.trans hg.symm)

section Blocks

variable (env : Context) (at_ : Place) (stops : List Word) (a : Address) {sym : Symbol} {rest : List Symbol}

/-- A block whose first symbol begins a statement. -/
theorem plain_block_statement (hdelimiter : sym.token ≠ .delimiter) (hends : endsBlock stops sym.token = false) :
    Passed.plain (block env at_ stops a (sym :: rest)) =
      Passed.plain (statement env at_ a sym rest) >>= fun x =>
        if endsStatement stops (env.token x.2) then
          Passed.plain (block { env with names := x.1.2 } at_ stops (a + x.1.1.size) x.2) >>= fun y =>
            .ok ((.cons sym.position x.1.1 y.1.1, y.1.2), y.2)
        else .error (env.unexpected x.2 "end of statement") := by
  rw [block, if_neg hdelimiter, hends]
  refine map_bind_view fun x => ?_
  obtain ⟨⟨first, names⟩, r, hr⟩ := x
  dsimp only
  split
  · exact map_bind_view fun p => rfl
  · rfl

/-- A statement that begins with a name. -/
theorem plain_statement_name (hname : sym.token = .name) :
    Passed.plain (statement env at_ a sym rest) =
      env.arrive rest >>= fun _ => Passed.plain (nameStatement env sym rest) := by
  rw [statement, hname]
  exact map_bind_same fun _ => rfl

theorem plain_block_name (hname : sym.token = .name) (ha : env.arrive rest = .ok ()) :
    Passed.plain (block env at_ stops a (sym :: rest)) =
      Passed.plain (nameStatement env sym rest) >>= fun x =>
        if endsStatement stops (env.token x.2) then
          Passed.plain (block { env with names := x.1.2 } at_ stops (a + x.1.1.size) x.2) >>= fun y =>
            .ok ((.cons sym.position x.1.1 y.1.1, y.1.2), y.2)
        else .error (env.unexpected x.2 "end of statement") := by
  rw [plain_block_statement env at_ stops a (by rw [hname]; decide) (by rw [hname]; rfl),
    plain_statement_name env at_ a hname, bind_arrive ha]

variable {env a}

/-- Two statements with the same instructions, names and symbols behind them begin blocks that come to the same. -/
theorem sameBlocks_of_statements {s t : Symbol} {u v r : List Symbol} {first second : Stmt} {names : Scopes}
    (hs : s.token = .name) (ht : t.token = .name) (hu : env.arrive u = .ok ()) (hv : env.arrive v = .ok ())
    (hx : Passed.plain (nameStatement env s u) = .ok ((first, names), r))
    (hy : Passed.plain (nameStatement env t v) = .ok ((second, names), r))
    (hsame : ∀ p q, instructionsOf (first.lines a p) = instructionsOf (second.lines a q)) :
    SameBlocks a (Passed.plain (block env at_ stops a (s :: u))) (Passed.plain (block env at_ stops a (t :: v))) := by
  have hsize : first.size = second.size := by
    have := congrArg List.length (hsame s.position t.position)
    simpa using this
  rw [plain_block_name env at_ stops a hs hu, plain_block_name env at_ stops a ht hv, bind_of_ok hx, bind_of_ok hy]
  dsimp only
  rw [hsize]
  split
  · -- What follows is read from the same address by both, whatever comes of it.
    generalize Passed.plain (block { env with names := names } at_ stops (a + second.size) r) = more
    cases more with
    | error f => exact .error rfl
    | ok more =>
      refine .ok ?_
      simp only [Block.lines, instructionsOf_append, hsame s.position t.position, hsize]
  · exact .error rfl

/-- A statement that is refused is what its block is refused for. -/
theorem block_of_refused {s : Symbol} {u : List Symbol} {code : FaultCode} (hs : s.token = .name)
    (hu : env.arrive u = .ok ()) (h : FailsWith code (Passed.plain (nameStatement env s u))) :
    FailsWith code (Passed.plain (block env at_ stops a (s :: u))) := by
  obtain ⟨f, hf, hcode⟩ := h
  rw [plain_block_name env at_ stops a hs hu, hf]
  exact ⟨f, rfl, hcode⟩

/-- A statement in front of a symbol at which none ends. -/
theorem block_of_unended {s o : Symbol} {u v : List Symbol} {x : Stmt × Scopes} (hs : s.token = .name)
    (hu : env.arrive u = .ok ()) (h : Passed.plain (nameStatement env s u) = .ok (x, o :: v))
    (ho : endsStatement stops o.token = false) :
    FailsWith .unexpectedSymbol (Passed.plain (block env at_ stops a (s :: u))) := by
  rw [plain_block_name env at_ stops a hs hu, bind_of_ok h]
  have hends : endsStatement stops (env.token (o :: v)) = false := ho
  dsimp only
  rw [hends]
  exact ⟨_, rfl, rfl⟩

/-- A statement does not end in front of a parenthesis. -/
theorem block_of_cut {s o : Symbol} {u v : List Symbol} {x : Stmt × Scopes} (hs : s.token = .name)
    (hu : env.arrive u = .ok ()) (h : Passed.plain (nameStatement env s u) = .ok (x, o :: v))
    (ho : o.token = .openParen) : FailsWith .unexpectedSymbol (Passed.plain (block env at_ stops a (s :: u))) :=
  block_of_unended at_ stops hs hu h (by rw [ho]; rfl)

/-- The end of a statement binds nothing and is no comma. -/
theorem stops_of_endsStatement {k : Nat} (h : endsStatement stops (env.token rest) = true) :
    Stops k rest ∧ env.token rest ≠ .comma := by
  refine ⟨?_, ?_⟩
  · cases rest with
    | nil => intro sym hs; cases hs
    | cons sym rest =>
      refine stops_of_none ?_
      have h : endsStatement stops sym.token = true := h
      unfold mark
      split <;> rename_i ht <;> try rfl
      cases hsym : sym.token <;> rw [hsym] at h <;> first | rfl | cases h
  · intro hcomma
    rw [hcomma] at h
    cases h

end Blocks

/-! ## Assignments -/

/-- The operators of updates. -/
def updateOperators : List BinaryOperator := [.add, .subtract, .multiply, .divide, .concat, .divideInt, .modulus]

theorem tightness_of_update {op : BinaryOperator} (h : op ∈ updateOperators) : op ≠ .and ∧ tightness op < 7 := by
  cases op <;> first | exact ⟨by decide, by decide⟩ | exact absurd h (by decide)

/-- The surroundings behind an assignment to a name, which has declared the name if it was unknown. -/
def Context.assigned (env : Context) (x : String) : Context :=
  { env with names := if (env.names.get? x).isSome then env.names else env.names.allocate { name := x } }

section Assignments

variable {env : Context} {target : Symbol} {rest : List Symbol}

theorem plain_assignment (op : Option BinaryOperator) :
    Passed.plain (assignment env target op rest) =
      checkAssignable env target >>= fun names => env.arrive rest >>= fun _ =>
        Parsed.plain (expression { env with names := names } rest) >>= fun x =>
          .ok ((.assign target.text op x.1, names), x.2) :=
  map_bind_same fun _ => map_bind_same fun _ => map_bind_view fun _ => rfl

/-- The sign between the name and the expression of an assignment, and the operator it stands for. -/
def assigns? : Token → Option (Option BinaryOperator)
  | .operator (.binary .equal) => some none
  | .update op => some (some op)
  | _ => none

theorem plain_nameStatement_assign {sign : Symbol} {op : Option BinaryOperator} (h : assigns? sign.token = some op) :
    Passed.plain (nameStatement env target (sign :: rest)) = Passed.plain (assignment env target op rest) := by
  unfold assigns? at h
  unfold nameStatement
  split at h
  · rename_i hs
    cases h
    dsimp only
    rw [hs]
    exact map_bind_pure fun _ => rfl
  · rename_i hs
    cases h
    dsimp only
    rw [hs]
    exact map_bind_pure fun _ => rfl
  · cases h

/-- Whether a name can be assigned to depends on what it is bound to. A variable that has been assigned to can be
read. -/
theorem checkAssignable_cases (env : Context) (x : String) :
    (∃ code, ∀ target : Symbol, target.text = x → FailsWith code (checkAssignable env target)) ∨
      (∀ target : Symbol, target.text = x → checkAssignable env target = .ok (env.assigned x).names) ∧
        ((env.names.get? x).map Binding.kind ≠ some .function → (env.assigned x).readable x = true) := by
  unfold checkAssignable Context.assigned Context.readable
  cases hb : env.names.get? x with
  | none =>
    have hnew : (env.names.allocate { name := x }).get? x = some { name := x } := by
      unfold Scopes.get? Scopes.frames
      rw [List.findSome?_cons, Scopes.allocate, Scope.get?_allocate_self { name := x } env.names.top]
    cases hx : env.explicit with
    | true => exact .inl ⟨_, by rintro target rfl; rw [hb]; exact ⟨_, rfl, rfl⟩⟩
    | false =>
      refine .inr ⟨by rintro target rfl; rw [hb]; rfl, fun _ => ?_⟩
      simp only [Option.isSome_none, Bool.false_eq_true, if_false, hnew, Option.map_some]
  | some b =>
    match hk : b.kind with
    | .constant =>
      exact .inl ⟨_, by rintro target rfl; rw [hb]; simp only [Option.map_some, hk]; exact ⟨_, rfl, rfl⟩⟩
    | .sub =>
      exact .inl ⟨_, by rintro target rfl; rw [hb]; simp only [Option.map_some, hk]; exact ⟨_, rfl, rfl⟩⟩
    | .variable =>
      refine .inr ⟨by rintro target rfl; rw [hb]; simp only [Option.map_some, hk]; rfl, fun _ => ?_⟩
      simp only [Option.isSome_some, if_true, hb, Option.map_some, hk]
    | .function =>
      refine .inr ⟨by rintro target rfl; rw [hb]; simp only [Option.map_some, hk]; rfl, fun hne => ?_⟩
      exact absurd (by rw [Option.map_some, hk]) hne

theorem trouble_of_readable {n : String} (h : env.readable n = true) : (Phrase.name n).trouble? env = none := by
  rw [Phrase.trouble?]
  unfold Context.readable at h
  unfold Context.refusal? Context.function?
  cases hb : env.names.get? n with
  | none =>
    rw [hb] at h
    have hexplicit : env.explicit = false := by simpa using h
    rw [hexplicit]
    rfl
  | some b =>
    rw [hb] at h
    match hk : b.kind with
    | .constant | .variable => simp [hk]
    | .function | .sub => simp [hk] at h

/-- The rest of an assignment whose expression has been read. -/
theorem assignment_of_read {op : Option BinaryOperator} {names : Scopes} {e : Expr} {r : List Symbol}
    (hnames : checkAssignable env target = .ok names) (ha : env.arrive rest = .ok ())
    (h : Parsed.plain (expression { env with names := names } rest) = .ok (e, r)) :
    Passed.plain (assignment env target op rest) = .ok ((.assign target.text op e, names), r) := by
  rw [plain_assignment, bind_of_ok hnames, bind_arrive ha, bind_of_ok h]

theorem assignment_of_refused {op : Option BinaryOperator} {names : Scopes} {code : FaultCode}
    (hnames : checkAssignable env target = .ok names) (ha : env.arrive rest = .ok ())
    (h : FailsWith code (Parsed.plain (expression { env with names := names } rest))) :
    FailsWith code (Passed.plain (assignment env target op rest)) := by
  obtain ⟨f, hf, hcode⟩ := h
  rw [plain_assignment, bind_of_ok hnames, bind_arrive ha, hf]
  exact ⟨f, rfl, hcode⟩

theorem assignment_of_unassignable {op : Option BinaryOperator} {code : FaultCode}
    (h : FailsWith code (checkAssignable env target)) :
    FailsWith code (Passed.plain (assignment env target op rest)) := by
  obtain ⟨f, hf, hcode⟩ := h
  rw [plain_assignment, hf]
  exact ⟨f, rfl, hcode⟩

/-- An update has the code of the assignment that it stands for. -/
theorem instructions_update (x : String) (op : BinaryOperator) (e : Expr) (a : Address) (p q : Position) :
    instructionsOf ((Stmt.assign x (some op) e).lines a p) =
      instructionsOf ((Stmt.assign x none (.binary op (.variable x) e)).lines a q) := by
  simp [Stmt.lines, Expr.code, Expr.size]

/-- The update `x += e` and the assignment `x = x + (e)`, and so with the other operators. Whatever block they begin, it
comes to the same instructions or is refused with the same code, unless `e`, outside of all its parentheses, has one
behind a name that is read as a variable, and no other fault before. The parser reads `e` up to that parenthesis; there
the update finds no end of its statement, and the assignment finds no closing parenthesis. -/
theorem block_update {env : Context} {x : String} {op : BinaryOperator} {p : Phrase}
    (hx : (env.names.get? x).map Binding.kind ≠ some .function) (hop : op ∈ updateOperators) (hp : p.WellFormed)
    {short long rest : List Symbol} (hshort : short.map mark = .name x :: .plain (.update op) :: p.render)
    (hlong : long.map mark =
      .name x :: .operator .equal :: .name x :: .operator op :: .openParen :: p.render ++ [.closeParen])
    (at_ : Place) (stops : List Word) (a : Address) (ha : env.arrive rest = .ok ())
    (hend : endsStatement stops (env.token rest) = true) :
    let blockOf (s : List Symbol) := Passed.plain (block env at_ stops a (s ++ rest))
    SameBlocks a (blockOf short) (blockOf long) ∨
      p.trouble? (env.assigned x) = some .cut ∧ FailsWith .unexpectedSymbol (blockOf short) ∧
        FailsWith .missingClosingParenthesis (blockOf long) := by
  intro blockOf
  obtain ⟨s, u, rfl, hs, hu⟩ := map_mark_cons hshort
  obtain ⟨sign, u, rfl, hsign, hu⟩ := map_mark_cons hu
  obtain ⟨t, v, rfl, ht, hv⟩ := map_mark_cons hlong
  obtain ⟨sign', v, rfl, hsign', hv⟩ := map_mark_cons hv
  obtain ⟨hsname, hstext⟩ := mark_eq_name hs
  obtain ⟨htname, httext⟩ := mark_eq_name ht
  have hassigns : assigns? sign.token = some (some op) := by rw [token_of_mark hsign]; rfl
  have hassigns' : assigns? sign'.token = some none := by rw [token_of_mark hsign']; rfl
  have hshort : Passed.plain (nameStatement env s (sign :: (u ++ rest))) = _ := plain_nameStatement_assign hassigns
  have hlong : Passed.plain (nameStatement env t (sign' :: (v ++ rest))) = _ := plain_nameStatement_assign hassigns'
  have hau := arrive_append ha u
  have hav := arrive_append ha v
  -- A name that cannot be assigned to is refused before the expression is read.
  rcases checkAssignable_cases env x with ⟨code, hcode⟩ | ⟨hnames, hread⟩
  · exact .inl (.of_codes
      (block_of_refused at_ stops hsname (arrive_cons _ _) (hshort ▸ assignment_of_unassignable (hcode s hstext)))
      (block_of_refused at_ stops htname (arrive_cons _ _) (hlong ▸ assignment_of_unassignable (hcode t httext))))
  · -- The longer expression is a phrase itself, and `p` is all that can be wrong with it.
    obtain ⟨hand, htight⟩ := tightness_of_update hop
    have hq : (Phrase.binary op (.name x) (.group p)).WellFormed :=
      ⟨hand, trivial, Nat.le_of_lt htight, hp, htight⟩
    have hv : v.map mark = (Phrase.binary op (.name x) (.group p)).render := hv
    have hstop (k : Nat) : Stops k rest := (stops_of_endsStatement stops hend).1
    have htrouble : (Phrase.binary op (.name x) (.group p)).trouble? (env.assigned x) =
        (p.trouble? (env.assigned x)).map (.within .missingClosingParenthesis) := by
      rw [Phrase.trouble?, trouble_of_readable (hread hx), Option.none_or, Phrase.trouble?]
    cases hp' : p.trouble? (env.assigned x) with
    | none =>
      obtain ⟨e, he⟩ := p.meaning_of_untroubled hp hp'
      have hmeaning : (Phrase.binary op (.name x) (.group p)).meaning? (env.assigned x) =
          some (.binary op (.variable x) e) := by
        rw [Phrase.meaning?, Phrase.meaning?, Phrase.meaning?, Context.name?, if_pos (hread hx), he]
        rfl
      have hx₁ := expression_accepts ⟨p, hp, Nat.zero_le _, hu, he⟩ (hstop 0) ha
      have hx₂ := expression_accepts ⟨_, hq, Nat.zero_le _, hv, hmeaning⟩ (hstop 0) ha
      refine .inl (sameBlocks_of_statements at_ stops hsname htname (arrive_cons _ _) (arrive_cons _ _)
        (hshort.trans (assignment_of_read (hnames s hstext) hau hx₁))
        (hlong.trans (assignment_of_read (hnames t httext) hav hx₂)) fun p q => ?_)
      rw [hstext, httext]
      exact instructions_update x op e a p q
    | some trouble =>
      have hx₁ := p.stumbles hp hp' (Nat.zero_le _) hu (hstop 7) ha
      have htrouble' : (Phrase.binary op (.name x) (.group p)).trouble? (env.assigned x) =
          some (trouble.within .missingClosingParenthesis) := by rw [htrouble, hp', Option.map_some]
      have hx₂ := Phrase.stumbles _ hq htrouble' (Nat.zero_le _) hv (hstop 7) ha
      have hlong' : ∀ {code}, FailsWith code (readAt (env.assigned x) 0 (v ++ rest)) →
          FailsWith code (blockOf (t :: sign' :: v)) := fun h =>
        block_of_refused at_ stops htname (arrive_cons _ _) (hlong ▸ assignment_of_refused (hnames t httext) hav h)
      cases trouble with
      | refused code =>
        exact .inl (.of_codes (block_of_refused at_ stops hsname (arrive_cons _ _)
          (hshort ▸ assignment_of_refused (hnames s hstext) hau hx₁)) (hlong' hx₂))
      | cut =>
        obtain ⟨e, o, w, ho, hread⟩ := hx₁
        exact .inr ⟨rfl, block_of_cut at_ stops hsname (arrive_cons _ _)
          (hshort.trans (assignment_of_read (hnames s hstext) hau hread)) ho, hlong' hx₂⟩

end Assignments

/-- `X -= Y AND TRUE` and `X = X - (Y AND TRUE)` at address 7, where nothing is declared. -/
theorem block_update_conjunction :
    let symbol (t : Token) (text : String) : Symbol := { token := t, text := text, position := .zero }
    let env : Context := { names := .empty, explicit := false, external := false, ending := .ok (symbol .eof "") }
    let e := [symbol .name "Y", symbol (.operator (.binary .and)) "AND", symbol (.word .trueWord) "TRUE"]
    let short := [symbol .name "X", symbol (.update .subtract) "-="] ++ e
    let long := [symbol .name "X", symbol (.operator (.binary .equal)) "=", symbol .name "X",
      symbol (.operator (.binary .subtract)) "-", symbol .openParen "("] ++ e ++ [symbol .closeParen ")"]
    let blockOf (s : List Symbol) := Passed.plain (block env ⟨false, true, [], none⟩ [] 7 s)
    SameBlocks 7 (blockOf short) (blockOf long) ∧ Except.isOk (blockOf long) = true := by
  intro symbol env e short long blockOf
  let p : Phrase := .conjunction (.name "Y") [.word .trueWord]
  have hp : p.WellFormed := by simp [p, Phrase.WellFormed, WellFormedAll, Phrase.tightness, wordValue?]
  have h := @block_update env "X" .subtract p (by decide) (by decide) hp short long [] rfl rfl
    ⟨false, true, [], none⟩ [] 7 rfl rfl
  have huncut : p.trouble? (env.assigned "X") ≠ some .cut := by decide +kernel
  exact ⟨h.resolve_right (huncut ·.1), by decide +kernel⟩

/-- A parenthesis behind a variable: the update does not end there, and the parenthesis of the assignment is not
closed there. -/
theorem script_update_cut :
    FailsWith .unexpectedSymbol (script (.ofString "DIM x, y\nx += y(1)") true true .empty) ∧
      FailsWith .missingClosingParenthesis (script (.ofString "DIM x, y\nx = x + (y(1))") true true .empty) := by
  decide +kernel

/-! ## Lists that begin with a parenthesis -/

/-- The marks do not begin with an opening parenthesis. -/
def BeginsBare (ms : List Mark) : Prop := ∀ m ∈ ms.head?, m ≠ .openParen

/-- The marks begin with a symbol at which no statement ends. -/
def GoesOn (ms : List Mark) : Prop := ∃ t more, ms = .plain t :: more ∧ ∀ stops, endsStatement stops t = false

theorem GoesOn.behind {ms ms' : List Mark} (h' : GoesOn ms') (h : ms = [] ∨ GoesOn ms) : GoesOn (ms ++ ms') := by
  rcases h with rfl | ⟨t, more, rfl, ht⟩
  · exact h'
  · exact ⟨t, more ++ ms', rfl, ht⟩

theorem goesOn_operator (op : BinaryOperator) (ms : List Mark) : GoesOn (.operator op :: ms) :=
  ⟨.operator (.binary op), ms, rfl, fun _ => rfl⟩

theorem goesOn_comma (ms : List Mark) : GoesOn (.comma :: ms) := ⟨.comma, ms, rfl, fun _ => rfl⟩

/-- A phrase that begins with a parenthesis: one that stands in parentheses, and an operator behind it unless that is
all. -/
structure Opens (p q : Phrase) (more : List Mark) : Prop where
  wellFormed : q.WellFormed
  render : p.render = .openParen :: q.render ++ .closeParen :: more
  alone : p = .group q ∧ more = [] ∨ GoesOn more

/-- What stands behind a phrase in a longer one. -/
theorem Opens.longer {p p' q : Phrase} {more ms : List Mark} (h : Opens p q more) (hp : p'.render = p.render ++ ms)
    (hms : GoesOn ms) : Opens p' q (more ++ ms) :=
  ⟨h.wellFormed, by rw [hp, h.render]; simp, .inr (hms.behind (h.alone.imp_left And.right))⟩

theorem head_of_append {m : Mark} {p : Phrase} (hp : p.WellFormed) {ms ms' : List Mark}
    (h : p.render ++ ms = m :: ms') : ∃ more, p.render = m :: more := by
  obtain ⟨m', more, hr, _⟩ := p.render_starts hp
  rw [hr] at h
  cases h
  exact ⟨more, hr⟩

theorem Phrase.opens : (p : Phrase) → p.WellFormed → ∀ {ms : List Mark}, p.render = .openParen :: ms →
    ∃ q more, Opens p q more
  | .number _, _, _, h | .text _, _, _, h | .word _, _, _, h | .name _, _, _, h | .apply _ _, _, _, h
  | .function _ _, _, _, h | .choice _ _ _, _, _, h | .dialog _ _, _, _, h => by cases h
  | .signed s _, _, _, h => by cases s <;> cases h
  | .group q, hw, _, _ => ⟨q, [], hw, by rw [Phrase.render], .inl ⟨rfl, rfl⟩⟩
  | .factorial e, hw, _, h => by
    obtain ⟨_, he⟩ := head_of_append hw.1 h
    obtain ⟨q, more, ho⟩ := e.opens hw.1 he
    exact ⟨q, _, ho.longer rfl ⟨.operator .factorial, [], rfl, fun _ => rfl⟩⟩
  | .binary op l r, hw, _, h => by
    obtain ⟨_, hl⟩ := head_of_append hw.2.1 h
    obtain ⟨q, more, ho⟩ := l.opens hw.2.1 hl
    exact ⟨q, _, ho.longer rfl (goesOn_operator op r.render)⟩
  | .conjunction first rest, hw, _, h => by
    obtain ⟨_, hf⟩ := head_of_append hw.1 h
    obtain ⟨q, more, ho⟩ := first.opens hw.1 hf
    obtain ⟨p, rest, rfl⟩ := List.exists_cons_of_ne_nil hw.2.2.1
    exact ⟨q, _, ho.longer rfl (goesOn_operator .and _)⟩

/-- A list that begins with a parenthesis is one phrase in parentheses, or goes on behind the closing one. -/
theorem renderList_opens {ps : List Phrase} (hw : WellFormedAll 0 ps) (h : ¬ BeginsBare (renderList ps)) :
    (∃ q, ps = [.group q]) ∨
      ∃ (q : Phrase) (more : List Mark), q.WellFormed ∧
        renderList ps = .openParen :: q.render ++ .closeParen :: more ∧ GoesOn more := by
  cases ps with
  | nil => exact absurd (fun m hm => by cases hm) h
  | cons p ps =>
    have hopen : ∃ ms, renderList (p :: ps) = .openParen :: ms := by
      cases hr : renderList (p :: ps) with
      | nil => exact absurd (fun m hm => by rw [hr] at hm; cases hm) h
      | cons m ms =>
        by_cases hm : m = .openParen
        · exact ⟨ms, by rw [hm]⟩
        · exact absurd (fun m' hm' => by rw [hr] at hm'; cases hm'; exact hm) h
    obtain ⟨ms, hms⟩ := hopen
    obtain ⟨_, hp⟩ := head_of_append hw.1 hms
    obtain ⟨q, more, ho⟩ := p.opens hw.1 hp
    have hlist : renderList (p :: ps) = .openParen :: q.render ++ .closeParen :: (more ++ renderEach .comma ps) := by
      rw [renderList, ho.render]
      simp
    cases ps with
    | nil =>
      rw [renderEach, List.append_nil] at hlist
      exact ho.alone.imp (fun ⟨hp, _⟩ => ⟨q, by rw [hp]⟩) fun hmore => ⟨q, more, ho.wellFormed, hlist, hmore⟩
    | cons p' ps =>
      exact .inr ⟨q, _, ho.wellFormed, hlist, (goesOn_comma _).behind (ho.alone.imp_left And.right)⟩

/-! ## Calls -/

section Calls

variable {env : Context} {target : Symbol} {rest : List Symbol}

/-- Arguments without trouble are read up to a symbol that binds nothing and is no comma. -/
theorem arguments_read (hstop : Stops 0 rest) (hcomma : env.token rest ≠ .comma) (ha : env.arrive rest = .ok ()) :
    (ps : List Phrase) → ps ≠ [] → WellFormedAll 0 ps → ∀ {es : List Expr}, meanings? env ps = some es →
    ∀ {used : List Symbol}, used.map mark = renderList ps →
    Parsed.plain (arguments env (used ++ rest)) = .ok (es, rest)
  | [], hne, _, _, _, _, _ => absurd rfl hne
  | p :: ps, _, hw, es, hes, used, hu => by
    obtain ⟨hp, hpk, hps⟩ := hw
    rw [meanings?] at hes
    obtain ⟨e, he, hes⟩ := Option.bind_eq_some_iff.1 hes
    obtain ⟨more, hmore, hes⟩ := Option.bind_eq_some_iff.1 hes
    cases hes
    obtain ⟨u, us, rfl, hu, hus⟩ := map_mark_append hu
    rw [List.append_assoc, plain_arguments, bind_of_ok (expression_accepts ⟨p, hp, hpk, hu, he⟩
      (stops_each (by decide) hus (.inr hstop)) (arrive_append ha us))]
    dsimp only
    -- The symbols behind an argument are a comma or what the whole list stands in front of.
    cases ps with
    | nil =>
      cases hmore
      rw [renderEach, List.map_eq_nil_iff] at hus
      have hnone : Passed.plain (moreArguments env rest) = .ok ([], rest) := by
        cases rest with
        | nil => exact plain_moreArguments_nil env
        | cons sym rest => rw [plain_moreArguments_cons, if_neg (show sym.token ≠ .comma from hcomma)]
      rw [hus, List.nil_append, bind_of_ok hnone]
      rfl
    | cons q qs =>
      obtain ⟨comma, us, rfl, hmark, hus⟩ := map_mark_cons hus
      rw [List.cons_append, plain_moreArguments_cons, if_pos (token_of_mark hmark), bind_arrive (arrive_append ha us),
        bind_of_ok (arguments_read hstop hcomma ha (q :: qs) (by simp) hps hmore hus)]
      rfl

/-- Arguments without parentheses are read like those of a list. -/
theorem callArguments_bare {ps : List Phrase} (hne : ps ≠ []) (hw : WellFormedAll 0 ps) {used : List Symbol}
    (hu : used.map mark = renderList ps) (hbare : BeginsBare (renderList ps)) :
    Passed.plain (callArguments env false (used ++ rest)) = Parsed.plain (arguments env (used ++ rest)) := by
  obtain ⟨p, ps, rfl⟩ := List.exists_cons_of_ne_nil hne
  obtain ⟨m, ms, hr, hm⟩ := p.render_starts hw.1
  rw [renderList, hr] at hu hbare
  obtain ⟨sym, u, rfl, hs, _⟩ := map_mark_cons hu
  have hopen : sym.token ≠ .openParen := by
    intro h
    rw [mark_plain h (by simp)] at hs
    exact hbare m rfl hs.symm
  have hstarts := starts_of_mark (hs ▸ hm)
  rw [List.cons_append, plain_callArguments_cons, if_neg hopen, hstarts]
  rfl

theorem callArguments_closed {ps : List Phrase} (hne : ps ≠ []) (hw : WellFormedAll 0 ps) {o c : Symbol}
    {used : List Symbol} (ho : o.token = .openParen) (hc : c.token = .closeParen) (hu : used.map mark = renderList ps)
    {es : List Expr} (hes : meanings? env ps = some es) (ha : env.arrive rest = .ok ()) :
    Passed.plain (callArguments env false (o :: (used ++ c :: rest))) = .ok (es, rest) := by
  rw [plain_callArguments_cons, if_pos ho, bind_arrive (arrive_append (arrive_cons _ _) _),
    if_neg (token_ne_close hw hne hu), bind_of_ok (arguments_read (stops_closeParen hc)
      (by show c.token ≠ .comma; rw [hc]; decide) (arrive_cons _ _) ps hne hw hes hu)]
  dsimp only
  exact bind_require hc ha _

/-- A statement that is a call. -/
theorem plain_nameStatement_call {s : List Symbol}
    (hroutine : (env.names.get? target.text).map Binding.isRoutine = some true) (h : assigns? (env.token s) = none) :
    Passed.plain (nameStatement env target s) =
      Passed.plain (call env target false s) >>= fun x => .ok ((.call x.1.1 x.1.2, env.names), x.2) := by
  have hcall : Passed.plain (callStatement env target s) =
      Passed.plain (call env target false s) >>= fun x => .ok ((.call x.1.1 x.1.2, env.names), x.2) := by
    unfold callStatement
    rw [hroutine]
    exact map_bind_view fun _ => rfl
  rw [← hcall]
  cases s with
  | nil => rfl
  | cons sym s =>
    have h : assigns? sym.token = none := h
    unfold nameStatement
    dsimp only
    split
    · rename_i hs
      rw [hs] at h
      cases h
    · rename_i hs
      rw [hs] at h
      cases h
    · rfl

/-- The rest of a call whose arguments have been read. -/
theorem nameStatement_of_read {s r : List Symbol} {routine : Routine} {es : List Expr}
    (hroutine : (env.names.get? target.text).map Binding.isRoutine = some true) (h : assigns? (env.token s) = none)
    (hr : routineOf env target = .ok routine) (hargs : Passed.plain (callArguments env false s) = .ok (es, r))
    (hcount : es.length = routine.parameters.length) :
    Passed.plain (nameStatement env target s) = .ok ((.call routine es, env.names), r) := by
  rw [plain_nameStatement_call hroutine h, plain_call, bind_of_ok hr, bind_of_ok hargs]
  dsimp only
  rw [if_pos hcount]
  rfl

theorem nameStatement_of_refused {s : List Symbol} {code : FaultCode}
    (hroutine : (env.names.get? target.text).map Binding.isRoutine = some true) (h : assigns? (env.token s) = none)
    (hx : FailsWith code (Passed.plain (call env target false s))) :
    FailsWith code (Passed.plain (nameStatement env target s)) := by
  obtain ⟨f, hf, hcode⟩ := hx
  rw [plain_nameStatement_call hroutine h, hf]
  exact ⟨f, rfl, hcode⟩

theorem call_of_unknown {s : List Symbol} {code : FaultCode} {inExpression : Bool}
    (h : FailsWith code (routineOf env target)) : FailsWith code (Passed.plain (call env target inExpression s)) := by
  obtain ⟨f, hf, hcode⟩ := h
  rw [plain_call, hf]
  exact ⟨f, rfl, hcode⟩

theorem call_of_refused {s : List Symbol} {routine : Routine} {code : FaultCode} {inExpression : Bool}
    (hr : routineOf env target = .ok routine) (h : FailsWith code (Passed.plain (callArguments env inExpression s))) :
    FailsWith code (Passed.plain (call env target inExpression s)) := by
  obtain ⟨f, hf, hcode⟩ := h
  rw [plain_call, bind_of_ok hr, hf]
  exact ⟨f, rfl, hcode⟩

theorem assigns?_of_starts {t : Token} (h : t.startsExpression = true) : assigns? t = none := by
  unfold assigns?
  split <;> first | cases h | rfl

/-- Whether a name can be called depends on what it is bound to. -/
theorem routineOf_cases (env : Context) (n : String) :
    (∃ code, ∀ target : Symbol, target.text = n → FailsWith code (routineOf env target)) ∨
      ∃ r, ∀ target : Symbol, target.text = n → routineOf env target = .ok r := by
  unfold routineOf
  cases hb : env.names.get? n with
  | none => exact .inl ⟨.unknownIdentifier, by rintro target rfl; rw [hb]; exact ⟨_, rfl, rfl⟩⟩
  | some b =>
    cases hr : b.isRoutine with
    | false => exact .inl ⟨.unknownIdentifier, by rintro target rfl; simp only [hb, hr]; exact ⟨_, rfl, rfl⟩⟩
    | true =>
      cases hentry : b.address with
      | none => exact .inl ⟨.internal, by rintro target rfl; simp only [hb, hr, hentry]; exact ⟨_, rfl, rfl⟩⟩
      | some entry => exact .inr ⟨⟨n, entry, b.parameters⟩, by rintro target rfl; simp only [hb, hr, hentry, if_true]⟩

/-- A reader of the arguments `ps` gives their meanings, or ends in their first trouble as it is seen from outside. -/
structure ReadsCall (env : Context) (ps : List Phrase) (seen : Trouble → Trouble) (rest : List Symbol)
    (x : Except Fault (List Expr × List Symbol)) : Prop where
  ok : ∀ es, meanings? env ps = some es → x = .ok (es, rest)
  trouble : ∀ t, troubleAmong? env ps = some t → Stumbles x rest (seen t)

/-- A list of arguments without parentheses. -/
theorem readsCall_bare {ps : List Phrase} (hne : ps ≠ []) (hw : WellFormedAll 0 ps) {used : List Symbol}
    (hu : used.map mark = renderList ps) (hbare : BeginsBare (renderList ps)) (hstop : ∀ k, Stops k rest)
    (hcomma : env.token rest ≠ .comma) (ha : env.arrive rest = .ok ()) :
    ReadsCall env ps id rest (Passed.plain (callArguments env false (used ++ rest))) := by
  rw [callArguments_bare hne hw hu hbare]
  exact ⟨fun es hes => arguments_read (hstop 0) hcomma ha ps hne hw hes hu,
    fun t ht => arguments_stumble ps hw ht hu (hstop 7) ha⟩

/-- A list of arguments in parentheses. -/
theorem readsCall_closed {ps : List Phrase} (hne : ps ≠ []) (hw : WellFormedAll 0 ps) {o c : Symbol}
    {used : List Symbol} (ho : o.token = .openParen) (hc : c.token = .closeParen) (hu : used.map mark = renderList ps)
    (ha : env.arrive rest = .ok ()) :
    ReadsCall env ps (.within .missingClosingParenthesis) rest
      (Passed.plain (callArguments env false (o :: (used ++ c :: rest)))) :=
  ⟨fun _ hes => callArguments_closed hne hw ho hc hu hes ha, fun _ ht => callArguments_stumbles false ho
    (token_ne_close hw hne hu) (arguments_stumble ps hw ht hu (stops_closeParen hc) (arrive_cons _ _))⟩

/-- One argument that stands in parentheses itself: they are taken for those of the list. -/
theorem readsCall_group {q : Phrase} (hq : q.WellFormed) {used : List Symbol}
    (hu : used.map mark = renderList [.group q]) (ha : env.arrive rest = .ok ()) :
    ReadsCall env [.group q] id rest (Passed.plain (callArguments env false (used ++ rest))) := by
  rw [renderList, renderEach, List.append_nil, Phrase.render] at hu
  obtain ⟨o, inner, c, rfl, ho, hc, hi⟩ := map_mark_closed hu
  rw [List.append_assoc, List.singleton_append]
  have hps : WellFormedAll 0 [q] := ⟨hq, Nat.zero_le _, trivial⟩
  have hclosed : ReadsCall env [q] _ _ _ := readsCall_closed (by simp) hps ho hc
    (by rw [renderList, renderEach, List.append_nil, hi]) ha
  refine ⟨hclosed.ok, fun t ht => ?_⟩
  obtain ⟨t, hsome, rfl⟩ : ∃ t', q.trouble? env = some t' ∧ t'.within .missingClosingParenthesis = t := by
    rw [troubleAmong?, troubleAmong?, Option.or_none] at ht
    exact Option.map_eq_some_iff.1 ht
  exact hclosed.trouble t (by rw [troubleAmong?, troubleAmong?, Option.or_none, hsome])

section Blocks

variable (at_ : Place) (stops : List Word) (a : Address) {s : List Symbol} {routine : Routine}
  (hname : target.token = .name) (hroutine : (env.names.get? target.text).map Binding.isRoutine = some true)
  (hsign : assigns? (env.token s) = none) (hs : env.arrive s = .ok ())

include hname hroutine hsign hs

/-- A call that is refused is what its block is refused for. -/
theorem block_of_refused_call {code : FaultCode} (h : FailsWith code (Passed.plain (call env target false s))) :
    FailsWith code (Passed.plain (block env at_ stops a (target :: s))) :=
  block_of_refused at_ stops hname hs (nameStatement_of_refused hroutine hsign h)

/-- A call that something follows at which no statement ends. -/
theorem block_of_unended_call (hr : routineOf env target = .ok routine) {es : List Expr} {o : Symbol} {v : List Symbol}
    (hargs : Passed.plain (callArguments env false s) = .ok (es, o :: v)) (ho : endsStatement stops o.token = false) :
    FailsWith .unexpectedSymbol (Passed.plain (block env at_ stops a (target :: s))) ∨
      FailsWith .wrongNumberOfParameters (Passed.plain (block env at_ stops a (target :: s))) := by
  by_cases hcount : es.length = routine.parameters.length
  · exact .inl (block_of_unended at_ stops hname hs (nameStatement_of_read hroutine hsign hr hargs hcount) ho)
  · exact .inr (block_of_refused_call at_ stops a hname hroutine hsign hs (call_miscounted hr hargs hcount))

end Blocks

/-- Behind the name of a routine a parenthesis opens the list of its arguments. So a call is refused in which something
else than the end of the statement stands behind the closing one. -/
theorem block_of_opened (at_ : Place) (stops : List Word) (a : Address) {q : Phrase} {more : List Mark}
    (hq : q.WellFormed) (hmore : GoesOn more) (hname : target.token = .name)
    (hroutine : (env.names.get? target.text).map Binding.isRoutine = some true) {u : List Symbol}
    (hu : u.map mark = .openParen :: q.render ++ .closeParen :: more) :
    ∃ code, FailsWith code (Passed.plain (block env at_ stops a (target :: (u ++ rest)))) := by
  obtain ⟨t, ms, rfl, ht⟩ := hmore
  obtain ⟨o, u, rfl, ho, hu⟩ := map_mark_cons hu
  obtain ⟨w, v, rfl, hw, hv⟩ := map_mark_append hu
  obtain ⟨c, v, rfl, hc, hv⟩ := map_mark_cons hv
  obtain ⟨m, v, rfl, hm, _⟩ := map_mark_cons hv
  have ho := token_of_mark ho
  have hm : endsStatement stops m.token = false := by rw [token_of_mark hm]; exact ht stops
  have hsign : assigns? (env.token (o :: (w ++ c :: m :: v) ++ rest)) = none := by
    show assigns? o.token = none
    rw [ho]
    rfl
  have hps : WellFormedAll 0 [q] := ⟨hq, Nat.zero_le _, trivial⟩
  have hargs : ReadsCall env [q] _ _ _ := readsCall_closed (by simp) hps ho (token_of_mark hc)
    (by rw [renderList, renderEach, List.append_nil, hw]) (arrive_cons m (v ++ rest))
  have hs : o :: (w ++ c :: m :: v) ++ rest = o :: (w ++ c :: m :: (v ++ rest)) := by simp
  have refused {code : FaultCode} (h : FailsWith code _) := block_of_refused_call at_ stops a hname hroutine hsign
    (arrive_cons _ _) h
  rcases routineOf_cases env target.text with ⟨code, hcode⟩ | ⟨r, hr⟩
  · exact ⟨_, refused (call_of_unknown (hcode target rfl))⟩
  cases htrouble : troubleAmong? env [q] with
  | none =>
    obtain ⟨es, hes⟩ := meanings_of_untroubled [q] hps htrouble
    exact (block_of_unended_call at_ stops a hname hroutine hsign (arrive_cons _ _) (hr target rfl)
      (hs ▸ hargs.ok es hes) hm).elim (fun h => ⟨_, h⟩) fun h => ⟨_, h⟩
  | some trouble =>
    have h := call_stumbles (hr target rfl) (hs ▸ hargs.trouble trouble htrouble)
    cases trouble with
    | refused code => exact ⟨_, refused h⟩
    | cut => exact ⟨_, refused h⟩

/-- The call `s e₁, …, eₙ` and the call `s(e₁, …, eₙ)`. Where the list does not begin with a parenthesis or is one
expression in parentheses, the blocks that they begin come to the same instructions or are refused with the same code,
unless an argument, outside of all its parentheses, has one behind a name that is read as a variable, and no other fault
before. The parser reads the arguments up to that parenthesis; there the list without parentheses finds no end of its
statement, and the other one finds no closing parenthesis. Where the list begins with a parenthesis and goes on behind
the closing one, the call without parentheses around it is refused. -/
theorem block_call {env : Context} {n : String} {ps : List Phrase}
    (hn : (env.names.get? n).map Binding.isRoutine = some true) (hne : ps ≠ []) (hps : WellFormedAll 0 ps)
    {bare closed rest : List Symbol} (hbare : bare.map mark = .name n :: renderList ps)
    (hclosed : closed.map mark = .name n :: .openParen :: renderList ps ++ [.closeParen])
    (at_ : Place) (stops : List Word) (a : Address) (ha : env.arrive rest = .ok ())
    (hend : endsStatement stops (env.token rest) = true) :
    let blockOf (s : List Symbol) := Passed.plain (block env at_ stops a (s ++ rest))
    ((BeginsBare (renderList ps) ∨ ∃ q, ps = [.group q]) →
      SameBlocks a (blockOf bare) (blockOf closed) ∨
        troubleAmong? env ps = some .cut ∧
          (FailsWith .unexpectedSymbol (blockOf bare) ∨ FailsWith .wrongNumberOfParameters (blockOf bare)) ∧
          FailsWith .missingClosingParenthesis (blockOf closed)) ∧
      (¬ (BeginsBare (renderList ps) ∨ ∃ q, ps = [.group q]) → ∃ code, FailsWith code (blockOf bare)) := by
  intro blockOf
  obtain ⟨s, u, rfl, hs, hu⟩ := map_mark_cons hbare
  obtain ⟨t, v, rfl, ht, hv⟩ := map_mark_cons hclosed
  obtain ⟨o, w, c, rfl, ho, hc, hw⟩ := map_mark_closed hv
  obtain ⟨hsname, rfl⟩ := mark_eq_name hs
  obtain ⟨htname, htext⟩ := mark_eq_name ht
  have htn : (env.names.get? t.text).map Binding.isRoutine = some true := by rw [htext]; exact hn
  constructor
  -- Without parentheses around it the list is read to its end as well, so both read the same arguments.
  · intro hfirst
    have hstop (k : Nat) : Stops k rest := (stops_of_endsStatement stops hend).1
    have hcomma : env.token rest ≠ .comma := (stops_of_endsStatement stops hend (k := 0)).2
    have hau := arrive_append ha u
    have hsign : assigns? (env.token (u ++ rest)) = none := by
      obtain ⟨p, ps, rfl⟩ := List.exists_cons_of_ne_nil hne
      obtain ⟨u, us, rfl, hu, _⟩ := map_mark_append hu
      rw [List.append_assoc]
      exact assigns?_of_starts (token_starts hps.1 hu)
    have hsign' : assigns? (env.token (o :: (w ++ c :: rest))) = none := by
      show assigns? o.token = none
      rw [ho]
      rfl
    have hbareArgs : ReadsCall env ps id rest (Passed.plain (callArguments env false (u ++ rest))) := by
      rcases hfirst with hfirst | ⟨q, rfl⟩
      · exact readsCall_bare hne hps hu hfirst hstop hcomma ha
      · exact readsCall_group (q := q) hps.1 hu ha
    have hclosedArgs := readsCall_closed hne hps ho hc hw ha
    have hblock : blockOf (t :: (o :: w ++ [c])) =
        Passed.plain (block env at_ stops a (t :: o :: (w ++ c :: rest))) := by
      show Passed.plain (block env at_ stops a (t :: (o :: w ++ [c]) ++ rest)) = _
      rw [List.cons_append, List.append_assoc, List.singleton_append, List.cons_append]
    rw [hblock]
    have refused {code : FaultCode} (h : FailsWith code _) := block_of_refused_call at_ stops a hsname hn hsign hau h
    have refused' {code : FaultCode} (h : FailsWith code _) := block_of_refused_call at_ stops a htname htn hsign'
      (arrive_cons _ _) h
    -- The routine is looked up before the arguments are read.
    rcases routineOf_cases env s.text with ⟨code, hcode⟩ | ⟨r, hr⟩
    · exact .inl (.of_codes (refused (call_of_unknown (hcode s rfl))) (refused' (call_of_unknown (hcode t htext))))
    cases htrouble : troubleAmong? env ps with
    | none =>
      obtain ⟨es, hes⟩ := meanings_of_untroubled ps hps htrouble
      have hx := hbareArgs.ok es hes
      have hy := hclosedArgs.ok es hes
      by_cases hcount : es.length = r.parameters.length
      · exact .inl (sameBlocks_of_statements at_ stops hsname htname hau (arrive_cons _ _)
          (nameStatement_of_read hn hsign (hr s rfl) hx hcount)
          (nameStatement_of_read htn hsign' (hr t htext) hy hcount)
          fun p q => by simp [Stmt.lines])
      · exact .inl (.of_codes (refused (call_miscounted (hr s rfl) hx hcount))
          (refused' (call_miscounted (hr t htext) hy hcount)))
    | some trouble =>
      have hx := hbareArgs.trouble trouble htrouble
      have hy := call_stumbles (hr t htext) (hclosedArgs.trouble trouble htrouble)
      cases trouble with
      | refused code => exact .inl (.of_codes (refused (call_of_refused (hr s rfl) hx)) (refused' hy))
      | cut =>
        obtain ⟨es, o', v', ho', hx⟩ := hx
        exact .inr ⟨rfl, block_of_unended_call at_ stops a hsname hn hsign hau (hr s rfl) hx (by rw [ho']; rfl),
          refused' hy⟩
  -- The list ends at the closing parenthesis, and what follows there ends no statement.
  · intro hfirst
    obtain ⟨hopen, hgroup⟩ := not_or.1 hfirst
    obtain ⟨q, more, hq, hlist, hmore⟩ := (renderList_opens hps hopen).resolve_left hgroup
    exact block_of_opened at_ stops a hq hmore hsname hn (hu.trans hlist)

end Calls

/-- Calls of a routine of two parameters: `S TRUE - X, Y` and `S(TRUE - X, Y)`; with one argument `S (X)` and `S((X))`;
and `S (X), Y`. -/
theorem block_call_parentheses :
    let symbol (t : Token) (text : String) : Symbol := { token := t, text := text, position := .zero }
    let env : Context :=
      { names := Scopes.empty.allocate (.routine "S" .sub 3 ["A", "B"]), explicit := false, external := false
        ending := .ok (symbol .eof "") }
    let name := symbol .name "S"
    let more := [symbol .comma ",", symbol .name "Y"]
    let parens (s : List Symbol) := symbol .openParen "(" :: s ++ [symbol .closeParen ")"]
    let first := [symbol (.word .trueWord) "TRUE", symbol (.operator (.binary .subtract)) "-", symbol .name "X"]
    let group := parens [symbol .name "X"]
    let blockOf (s : List Symbol) := Passed.plain (block env ⟨false, true, [], none⟩ [] 7 s)
    SameBlocks 7 (blockOf (name :: first ++ more)) (blockOf (name :: parens (first ++ more))) ∧
      Except.isOk (blockOf (name :: first ++ more)) = true ∧
      SameBlocks 7 (blockOf (name :: group)) (blockOf (name :: parens group)) ∧
      ∃ code, FailsWith code (blockOf (name :: group ++ more)) := by
  intro symbol env name more parens first group blockOf
  let difference : Phrase := .binary .subtract (.word .trueWord) (.name "X")
  let place : Place := ⟨false, true, [], none⟩
  have hn : (env.names.get? "S").map Binding.isRoutine = some true := by decide
  have htwo : WellFormedAll 0 [difference, .name "Y"] := by
    simp [difference, WellFormedAll, Phrase.WellFormed, Phrase.tightness, tightness, wordValue?]
  have hgroup : WellFormedAll 0 [.group (.name "X")] := ⟨trivial, Nat.zero_le _, trivial⟩
  have hmore : WellFormedAll 0 [.group (.name "X"), .name "Y"] :=
    ⟨trivial, Nat.zero_le _, trivial, Nat.zero_le _, trivial⟩
  have hfirst : BeginsBare (renderList [difference, .name "Y"]) := by
    rintro m ⟨⟩ h
    cases h
  have hbare := (@block_call env "S" [difference, .name "Y"] hn (by simp) htwo (name :: first ++ more)
    (name :: parens (first ++ more)) [] rfl rfl place [] 7 rfl rfl).1 (.inl hfirst)
  have hsingle := (@block_call env "S" [.group (.name "X")] hn (by simp) hgroup (name :: group) (name :: parens group)
    [] rfl rfl place [] 7 rfl rfl).1 (.inr ⟨_, rfl⟩)
  have huncut : troubleAmong? env [difference, .name "Y"] ≠ some .cut := by decide +kernel
  have huncut' : troubleAmong? env [.group (.name "X")] ≠ some .cut := by decide +kernel
  refine ⟨hbare.resolve_right (huncut ·.1), by decide +kernel, hsingle.resolve_right (huncut' ·.1), ?_⟩
  refine (@block_call env "S" [.group (.name "X"), .name "Y"] hn (by simp) hmore (name :: group ++ more)
    (name :: parens (group ++ more)) [] rfl rfl place [] 7 rfl rfl).2 ?_
  rintro (h | ⟨q, h⟩)
  · exact h .openParen rfl rfl
  · cases h

/-- A parenthesis behind a variable, and one behind the name of a routine that does not close at the end of the
statement. -/
theorem script_call_cut :
    (FailsWith .unexpectedSymbol (script (.ofString "DIM y\nSUB s(a, b)\nEND SUB\ns 1, y(2)") true true .empty) ∧
      FailsWith .missingClosingParenthesis
        (script (.ofString "DIM y\nSUB s(a, b)\nEND SUB\ns(1, y(2))") true true .empty)) ∧
      FailsWith .unexpectedSymbol (script (.ofString "SUB s(a)\nEND SUB\ns (1) + 2") true true .empty) ∧
      Except.isOk (script (.ofString "SUB s(a)\nEND SUB\ns((1) + 2)") true true .empty) = true := by
  decide +kernel

end MacroBasic.Grammar
