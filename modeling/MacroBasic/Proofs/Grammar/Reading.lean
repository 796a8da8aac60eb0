/-
The parser of expressions without its bookkeeping. A parse carries the proof that it moves on, which is
what makes the recursion end; here that proof is dropped, and each part of the parser is given by one
equation between plain results: what was read, and the symbols that are left.
-/
import MacroBasic.Grammar.Expression

namespace MacroBasic.Grammar

/-! ## Results without proofs -/

/-- What a parse gives and leaves. -/
def Parsed.plain {α : Type} {n : Nat} (x : Except Fault (Parsed α n)) : Except Fault (α × List Symbol) :=
  x.map fun p => (p.value, p.rest)

/-- What a parse that may pass nothing gives and leaves. -/
def Passed.plain {α : Type} {n : Nat} (x : Except Fault (Passed α n)) : Except Fault (α × List Symbol) :=
  x.map fun p => (p.value, p.rest)

theorem Parsed.of_plain_ok {α : Type} {n : Nat} {x : Except Fault (Parsed α n)} {a : α} {r : List Symbol}
    (h : Parsed.plain x = .ok (a, r)) : ∃ shorter : r.length < n, x = .ok ⟨a, r, shorter⟩ := by
  rcases x with f | ⟨a', r', hr⟩
  · cases h
  · cases h; exact ⟨hr, rfl⟩

theorem bind_eq_ok {α β : Type} {x : Except Fault α} {k : α → Except Fault β} {b : β} :
    x >>= k = .ok b ↔ ∃ a, x = .ok a ∧ k a = .ok b := by
  rcases x with f | a
  · constructor
    · intro h; cases h
    · rintro ⟨a, h, _⟩; cases h
  · constructor
    · intro h; exact ⟨a, rfl, h⟩
    · rintro ⟨a', h, hk⟩; cases h; exact hk

theorem bind_eq_error {α β : Type} {x : Except Fault α} {k : α → Except Fault β} {f : Fault} :
    x >>= k = .error f ↔ x = .error f ∨ ∃ a, x = .ok a ∧ k a = .error f := by
  rcases x with g | a
  · constructor
    · intro h; cases h; exact .inl rfl
    · rintro (h | ⟨_, h, _⟩)
      · cases h; rfl
      · cases h
  · constructor
    · intro h; exact .inr ⟨a, rfl, h⟩
    · rintro (h | ⟨_, h, hk⟩)
      · cases h
      · cases h; exact hk

section Views

variable {α β γ δ : Type} {x : Except Fault α}

/-- Looking at the end of two steps is taking the second step from what is seen of the first. -/
theorem map_bind_view {k : α → Except Fault β} {f : α → γ} {g : β → δ} {k' : γ → Except Fault δ}
    (h : ∀ a, (k a).map g = k' (f a)) : (x >>= k).map g = x.map f >>= k' := by
  rcases x with e | a
  · rfl
  · exact h a

theorem map_bind_same {k : α → Except Fault β} {g : β → δ} {k' : α → Except Fault δ}
    (h : ∀ a, (k a).map g = k' a) : (x >>= k).map g = x >>= k' := by
  rcases x with e | a
  · rfl
  · exact h a

theorem map_bind_pure {k : α → β} {g : β → δ} {f : α → δ} (h : ∀ a, g (k a) = f a) :
    (x >>= fun a => pure (k a)).map g = x.map f := by
  rcases x with e | a
  · rfl
  · exact congrArg Except.ok (h a)

end Views

/-! ## Required symbols -/

theorem arrive_cons {env : Context} (sym : Symbol) (rest : List Symbol) : env.arrive (sym :: rest) = .ok () := by
  unfold Context.arrive
  cases env.ending <;> rfl

theorem plain_require_cons (env : Context) (t : Token) (sym : Symbol) (rest : List Symbol) (f : Fault) :
    Parsed.plain (env.require t (sym :: rest) f) =
      if sym.token = t then do env.arrive rest; return (sym, rest) else .error f := by
  show Parsed.plain (if sym.token = t then _ else _) = _
  split
  · exact map_bind_same fun _ => rfl
  · rfl

/-- A required symbol that was passed was there, and the scan went on behind it. -/
theorem require_ok {env : Context} {t : Token} {s r : List Symbol} {f : Fault} {sym : Symbol}
    (h : Parsed.plain (env.require t s f) = .ok (sym, r)) :
    s = sym :: r ∧ sym.token = t ∧ env.arrive r = .ok () := by
  cases s with
  | nil => cases h
  | cons first rest =>
    rw [plain_require_cons] at h
    split at h
    · rename_i ht
      obtain ⟨_, ha, h⟩ := bind_eq_ok.1 h
      cases h
      exact ⟨rfl, ht, ha⟩
    · cases h

theorem plain_require_of {env : Context} {t : Token} {sym : Symbol} {rest : List Symbol} {f : Fault}
    (ht : sym.token = t) (ha : env.arrive rest = .ok ()) :
    Parsed.plain (env.require t (sym :: rest) f) = .ok (sym, rest) := by
  rw [plain_require_cons, if_pos ht, ha]; rfl

/-! ## Alternatives and conjunctions -/

variable (env : Context)

theorem plain_expression (s : List Symbol) :
    Parsed.plain (expression env s) = (do
      let (first, r) ← Parsed.plain (conjunction env s)
      Passed.plain (alternatives env first r)) := by
  rw [expression]
  exact map_bind_view fun p => map_bind_pure fun q => rfl

theorem plain_alternatives_nil (left : Expr) : Passed.plain (alternatives env left []) = .ok (left, []) := by
  rw [alternatives]; rfl

theorem plain_alternatives_cons (left : Expr) (sym : Symbol) (rest : List Symbol) :
    Passed.plain (alternatives env left (sym :: rest)) =
      if sym.token = .operator (.binary .or) then do
        env.arrive rest
        let (right, r) ← Parsed.plain (conjunction env rest)
        Passed.plain (alternatives env (.binary .or left right) r)
      else .ok (left, sym :: rest) := by
  rw [alternatives]
  split
  · exact map_bind_same fun _ => map_bind_view fun p => map_bind_pure fun q => rfl
  · rfl

/-- The operands of a chain of `AND` as one expression. -/
def joined (first : Expr) (more : List Expr) : Expr :=
  if more.isEmpty then first else .conjunction first more

theorem plain_conjunction (s : List Symbol) :
    Parsed.plain (conjunction env s) = (do
      let (first, r) ← Parsed.plain (chain env .relation s)
      let (more, r) ← Passed.plain (conjuncts env r)
      return (joined first more, r)) := by
  rw [conjunction]
  exact map_bind_view fun p => map_bind_view fun q => rfl

theorem plain_conjuncts_nil : Passed.plain (conjuncts env []) = .ok ([], []) := by
  rw [conjuncts]; rfl

theorem plain_conjuncts_cons (sym : Symbol) (rest : List Symbol) :
    Passed.plain (conjuncts env (sym :: rest)) =
      if sym.token = .operator (.binary .and) then do
        env.arrive rest
        let (e, r) ← Parsed.plain (chain env .relation rest)
        let (more, r) ← Passed.plain (conjuncts env r)
        return (e :: more, r)
      else .ok ([], sym :: rest) := by
  rw [conjuncts]
  split
  · exact map_bind_same fun _ => map_bind_view fun p => map_bind_view fun q => rfl
  · rfl

/-! ## Chains of operators -/

theorem plain_chain (l : Level) (s : List Symbol) :
    Parsed.plain (chain env l s) = (do
      let (first, r) ← Parsed.plain (chainOperand env l s)
      Passed.plain (chainRest env l first r)) := by
  rw [chain]
  exact map_bind_view fun p => map_bind_pure fun q => rfl

theorem chainOperand_of_some {l m : Level} (h : l.tighter? = some m) (s : List Symbol) :
    chainOperand env l s = chain env m s := by
  rw [chainOperand]
  split
  · rename_i m' h'
    rw [h] at h'; cases h'; rfl
  · rename_i h'
    rw [h] at h'; cases h'

theorem chainOperand_of_none {l : Level} (h : l.tighter? = none) (s : List Symbol) :
    chainOperand env l s = factorial env s := by
  rw [chainOperand]
  split
  · rename_i m' h'
    rw [h] at h'; cases h'
  · rfl

theorem plain_chainRest_nil (l : Level) (left : Expr) :
    Passed.plain (chainRest env l left []) = .ok (left, []) := by
  rw [chainRest]; rfl

theorem plain_chainRest_cons (l : Level) (left : Expr) (sym : Symbol) (rest : List Symbol) :
    Passed.plain (chainRest env l left (sym :: rest)) =
      match l.operator? sym with
      | some op => do
        env.arrive rest
        let (right, r) ← Parsed.plain (chainOperand env l rest)
        Passed.plain (chainRest env l (.binary op left right) r)
      | none => .ok (left, sym :: rest) := by
  rw [chainRest]
  cases l.operator? sym with
  | some op => exact map_bind_same fun _ => map_bind_view fun p => map_bind_pure fun q => rfl
  | none => rfl

theorem plain_factorial (s : List Symbol) :
    Parsed.plain (factorial env s) = (do
      let (first, r) ← Parsed.plain (operand env s)
      Passed.plain (factorials env first r)) := by
  rw [factorial]
  exact map_bind_view fun p => map_bind_pure fun q => rfl

theorem plain_factorials_nil (e : Expr) : Passed.plain (factorials env e []) = .ok (e, []) := by
  rw [factorials]; rfl

theorem plain_factorials_cons (e : Expr) (sym : Symbol) (rest : List Symbol) :
    Passed.plain (factorials env e (sym :: rest)) =
      if sym.token = .operator .factorial then do
        env.arrive rest
        Passed.plain (factorials env (.unary .factorial e) rest)
      else .ok (e, sym :: rest) := by
  rw [factorials]
  split
  · exact map_bind_same fun _ => map_bind_pure fun q => rfl
  · rfl

/-! ## Operands -/

section Operands

variable {sym : Symbol} {rest : List Symbol}

theorem plain_operand_value {v : Value} (h : opening sym = .value v) :
    Parsed.plain (operand env (sym :: rest)) = (do env.arrive rest; return (.literal v, rest)) := by
  rw [operand, h]
  exact map_bind_same fun _ => rfl

/-- An operand behind a sign. -/
def signed (op : Option UnaryOperator) (e : Expr) : Expr :=
  match op with
  | some op => .unary op e
  | none => e

theorem plain_operand_sign {op : Option UnaryOperator} (h : opening sym = .sign op) :
    Parsed.plain (operand env (sym :: rest)) = (do
      env.arrive rest
      let (e, r) ← Parsed.plain (operand env rest)
      return (signed op e, r)) := by
  rw [operand, h]
  exact map_bind_same fun _ => map_bind_view fun p => rfl

theorem plain_operand_function {name : String} {op : UnaryOperator} (h : opening sym = .function name op) :
    Parsed.plain (operand env (sym :: rest)) = (do
      env.arrive rest
      let (_, r) ← Parsed.plain (env.require .openParen rest (env.missingOpen rest ("after " ++ name)))
      let (e, r) ← Parsed.plain (expression env r)
      let (_, r) ← Parsed.plain (env.requireClose r ("after " ++ name ++ " argument"))
      return (.unary op e, r)) := by
  rw [operand, h]
  exact map_bind_same fun _ => map_bind_view fun p => map_bind_view fun p => map_bind_view fun p => rfl

theorem plain_operand_choice (h : opening sym = .choice) :
    Parsed.plain (operand env (sym :: rest)) = (do
      env.arrive rest
      let (_, r) ← Parsed.plain (env.require .openParen rest (env.missingOpen rest "after IIF"))
      let (c, r) ← Parsed.plain (expression env r)
      let (_, r) ← Parsed.plain (env.require .comma r (env.missingComma r "after IIF condition"))
      let (x, r) ← Parsed.plain (expression env r)
      let (_, r) ← Parsed.plain (env.require .comma r (env.missingComma r "after IIF true value"))
      let (y, r) ← Parsed.plain (expression env r)
      let (_, r) ← Parsed.plain (env.requireClose r "after IIF")
      return (.choice c x y, r)) := by
  rw [operand, h]
  exact map_bind_same fun _ => map_bind_view fun p => map_bind_view fun p => map_bind_view fun p =>
    map_bind_view fun p => map_bind_view fun p => map_bind_view fun p => map_bind_view fun p => rfl

theorem plain_operand_dialog {d : Dialog} (h : opening sym = .dialog d) :
    Parsed.plain (operand env (sym :: rest)) = (do
      env.arrive rest
      let (found, r) ← Passed.plain (dialogSlots env d false rest)
      return (.dialog d found, r)) := by
  rw [operand, h]
  exact map_bind_same fun _ => map_bind_view fun p => rfl

theorem plain_operand_group (h : opening sym = .group) :
    Parsed.plain (operand env (sym :: rest)) = (do
      env.arrive rest
      let (e, r) ← Parsed.plain (expression env rest)
      let (_, r) ← Parsed.plain (env.requireClose r "in expression")
      return (e, r)) := by
  rw [operand, h]
  exact map_bind_same fun _ => map_bind_view fun p => map_bind_view fun p => rfl

theorem plain_operand_function_name (h : opening sym = .name)
    (hk : (env.names.get? sym.text).map Binding.kind = some .function) :
    Parsed.plain (operand env (sym :: rest)) = (do
      env.arrive rest
      let ((r, found), s) ← Passed.plain (call env sym true rest)
      return (.call r found, s)) := by
  rw [operand, h, hk]
  exact map_bind_same fun _ => map_bind_view fun p => rfl

/-- Whether a name may be read as a variable or a constant. -/
def Context.readable (name : String) : Bool :=
  match (env.names.get? name).map Binding.kind with
  | some .function | some .sub => false
  | some _ => true
  | none => !env.explicit

theorem plain_operand_readable (h : opening sym = .name) (hk : env.readable sym.text = true) :
    Parsed.plain (operand env (sym :: rest)) = (do env.arrive rest; return (.variable sym.text, rest)) := by
  unfold Context.readable at hk
  rw [operand, h]
  generalize (env.names.get? sym.text).map Binding.kind = known at hk ⊢
  rcases known with _ | _ | _ | _ | _ <;> simp only at hk
  · rw [Bool.not_eq_true'] at hk
    rw [hk]; exact map_bind_same fun _ => rfl
  · exact map_bind_same fun _ => rfl
  · exact map_bind_same fun _ => rfl
  · cases hk
  · cases hk

/-- An operand that begins with a name is the call of a function or can be read. -/
theorem operand_name_ok {e : Expr} {r : List Symbol} (h : opening sym = .name)
    (hok : Parsed.plain (operand env (sym :: rest)) = .ok (e, r)) :
    (env.names.get? sym.text).map Binding.kind = some .function ∨ env.readable sym.text = true := by
  unfold Context.readable
  rw [operand, h] at hok
  generalize (env.names.get? sym.text).map Binding.kind = known at hok ⊢
  rcases known with _ | _ | _ | _ | _
  · cases hx : env.explicit
    · exact .inr rfl
    · rw [hx] at hok; cases hok
  · exact .inr rfl
  · exact .inr rfl
  · exact .inl rfl
  · cases hok

end Operands

/-! ## Calls -/

theorem plain_arguments (s : List Symbol) :
    Parsed.plain (arguments env s) = (do
      let (e, r) ← Parsed.plain (expression env s)
      let (more, r) ← Passed.plain (moreArguments env r)
      return (e :: more, r)) := by
  rw [arguments]
  exact map_bind_view fun p => map_bind_view fun q => rfl

theorem plain_moreArguments_nil : Passed.plain (moreArguments env []) = .ok ([], []) := by
  rw [moreArguments]; rfl

theorem plain_moreArguments_cons (sym : Symbol) (rest : List Symbol) :
    Passed.plain (moreArguments env (sym :: rest)) =
      if sym.token = .comma then do
        env.arrive rest
        Parsed.plain (arguments env rest)
      else .ok ([], sym :: rest) := by
  rw [moreArguments]
  split
  · exact map_bind_same fun _ => map_bind_pure fun q => rfl
  · rfl

theorem plain_callArguments_nil (inExpression : Bool) :
    Passed.plain (callArguments env inExpression []) = .ok ([], []) := by
  rw [callArguments]; rfl

theorem plain_callArguments_cons (inExpression : Bool) (sym : Symbol) (rest : List Symbol) :
    Passed.plain (callArguments env inExpression (sym :: rest)) =
      if sym.token = .openParen then do
        env.arrive rest
        if env.token rest = .closeParen then
          let (_, r) ← Parsed.plain (env.requireClose rest "after function parameters")
          return ([], r)
        else
          let (found, r) ← Parsed.plain (arguments env rest)
          let (_, r) ← Parsed.plain (env.requireClose r "after function parameters")
          return (found, r)
      else if !inExpression && sym.token.startsExpression then Parsed.plain (arguments env (sym :: rest))
      else .ok ([], sym :: rest) := by
  rw [callArguments]
  split
  · refine map_bind_same fun _ => ?_
    split
    · exact map_bind_view fun p => rfl
    · exact map_bind_view fun p => map_bind_view fun q => rfl
  · split
    · exact map_bind_pure fun q => rfl
    · rfl

theorem plain_call (name : Symbol) (inExpression : Bool) (s : List Symbol) :
    Passed.plain (call env name inExpression s) = (do
      let routine ← routineOf env name
      let (found, r) ← Passed.plain (callArguments env inExpression s)
      if found.length = routine.parameters.length then return ((routine, found), r)
      else throw (Context.wrongCount name routine.parameters.length found.length)) := by
  rw [call]
  refine map_bind_same fun routine => map_bind_view fun ⟨found, r, _⟩ => ?_
  show Except.map _ (if found.length = routine.parameters.length then _ else _) = _
  split
  · rename_i hl
    exact (if_pos hl).symm
  · rename_i hl
    exact (if_neg hl).symm

/-- A call that was read has as many arguments as the routine has parameters. -/
theorem call_ok {env : Context} {name : Symbol} {inExpression : Bool} {s r : List Symbol} {routine : Routine}
    {es : List Expr} (h : Passed.plain (call env name inExpression s) = .ok ((routine, es), r)) :
    routineOf env name = .ok routine ∧ Passed.plain (callArguments env inExpression s) = .ok (es, r) ∧
      es.length = routine.parameters.length := by
  rw [plain_call] at h
  obtain ⟨routine', hr, h⟩ := bind_eq_ok.1 h
  obtain ⟨⟨es', r'⟩, ha, h⟩ := bind_eq_ok.1 h
  simp only at h
  split at h
  · rename_i hl
    cases h
    exact ⟨hr, ha, hl⟩
  · cases h

/-! ## Dialogs -/

theorem plain_dialogSlots_cons (d : Dialog) (asStatement : Bool) (sym : Symbol) (rest : List Symbol) :
    Passed.plain (dialogSlots env d asStatement (sym :: rest)) =
      if sym.token = .openParen then do
        env.arrive rest
        if env.token rest = .closeParen then
          let (_, r) ← Parsed.plain (env.requireClose rest ("after " ++ d.mnemonic ++ " parameters"))
          return ([], r)
        else
          let (found, r) ← Passed.plain (slots env d 0 rest)
          let (_, r) ← Parsed.plain (env.requireClose r ("after " ++ d.mnemonic ++ " parameters"))
          return (found, r)
      else if !asStatement then .error (env.missingOpen (sym :: rest) ("after " ++ d.mnemonic))
      else if sym.token.startsExpression || sym.token = .comma then
        Passed.plain (slots env d 0 (sym :: rest))
      else .ok ([], sym :: rest) := by
  rw [dialogSlots]
  split
  · refine map_bind_same fun _ => ?_
    split
    · exact map_bind_view fun p => rfl
    · exact map_bind_view fun p => map_bind_view fun q => rfl
  · split
    · rfl
    · split <;> rfl

theorem plain_slots (d : Dialog) (count : Nat) (s : List Symbol) :
    Passed.plain (slots env d count s) =
      if count = d.most then
        .error ((env.current s).fault .wrongNumberOfParameters
          s!"{d.mnemonic} takes at most {d.most} parameters")
      else if (env.token s).startsExpression then do
        let (e, r) ← Parsed.plain (expression env s)
        let (more, r) ← Passed.plain (moreSlots env d (count + 1) r)
        return (.given e :: more, r)
      else do
        let (more, r) ← Passed.plain (moreSlots env d (count + 1) s)
        return (.omitted :: more, r) := by
  rw [slots]
  split
  · rfl
  · split
    · exact map_bind_view fun p => map_bind_view fun q => rfl
    · exact map_bind_view fun q => rfl

theorem plain_moreSlots_nil (d : Dialog) (count : Nat) :
    Passed.plain (moreSlots env d count []) = .ok ([], []) := by
  rw [moreSlots]; rfl

theorem plain_moreSlots_cons (d : Dialog) (count : Nat) (sym : Symbol) (rest : List Symbol) :
    Passed.plain (moreSlots env d count (sym :: rest)) =
      if sym.token = .comma then do
        env.arrive rest
        Passed.plain (slots env d count rest)
      else .ok ([], sym :: rest) := by
  rw [moreSlots]
  split
  · exact map_bind_same fun _ => map_bind_pure fun q => rfl
  · rfl

end MacroBasic.Grammar
