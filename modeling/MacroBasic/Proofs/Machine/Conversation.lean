/-
Conversations with a host. What a script does is a tree: at each node it has come to a result, has failed,
or asks the host something and goes on with the reply. A way through the tree leaves a trace of exchanges.
An oracle fixes every reply beforehand, given what has been said so far, and so picks one way through
every tree.
-/
import MacroBasic.Host

namespace MacroBasic

/-- A request with the reply to it. -/
structure Exchange where
  request : Request
  reply : request.Reply

/-- A conversation that ends with an `α` or fails with an `ε`. -/
inductive Talk (ε α : Type) where
  | done (a : α)
  | fail (e : ε)
  | ask (r : Request) (next : r.Reply → Talk ε α)

/-- How the host replies, given what has been said so far. -/
abbrev Oracle := List Exchange → (r : Request) → r.Reply

namespace Talk

variable {ε α β : Type}

/-- One conversation after the other. -/
def bind (x : Talk ε α) (k : α → Talk ε β) : Talk ε β :=
  match x with
  | .done a => k a
  | .fail e => .fail e
  | .ask r next => .ask r fun reply => (next reply).bind k

instance : Monad (Talk ε) where
  pure := .done
  bind := Talk.bind

/-- Asks the host. -/
def request (r : Request) : Talk ε r.Reply := .ask r .done

/-- A result that needs no conversation. -/
def ofExcept : Except ε α → Talk ε α
  | .ok a => .done a
  | .error e => .fail e

/-- The same conversation with other failures. -/
def mapError {ε' : Type} (f : ε → ε') : Talk ε α → Talk ε' α
  | .done a => .done a
  | .fail e => .fail (f e)
  | .ask r next => .ask r fun reply => (next reply).mapError f

/-! ## Ways through a conversation -/

/-- A conversation can go as the trace says and end so. -/
inductive Yields : Talk ε α → List Exchange → Except ε α → Prop
  | done (a : α) : Yields (.done a) [] (.ok a)
  | fail (e : ε) : Yields (.fail e) [] (.error e)
  | ask {r : Request} {next : r.Reply → Talk ε α} {reply : r.Reply} {t : List Exchange} {o : Except ε α}
      (h : Yields (next reply) t o) : Yields (.ask r next) (⟨r, reply⟩ :: t) o

section Yields

variable {t : List Exchange}

@[simp] theorem yields_pure {a : α} {o : Except ε α} :
    (pure a : Talk ε α).Yields t o ↔ t = [] ∧ o = .ok a := by
  constructor
  · intro h; cases h; exact ⟨rfl, rfl⟩
  · rintro ⟨rfl, rfl⟩; exact .done a

@[simp] theorem yields_done {a : α} {o : Except ε α} : (Talk.done a).Yields t o ↔ t = [] ∧ o = .ok a :=
  yields_pure

@[simp] theorem yields_fail {e : ε} {o : Except ε α} :
    (Talk.fail e : Talk ε α).Yields t o ↔ t = [] ∧ o = .error e := by
  constructor
  · intro h; cases h; exact ⟨rfl, rfl⟩
  · rintro ⟨rfl, rfl⟩; exact .fail e

theorem yields_ask {r : Request} {next : r.Reply → Talk ε α} {o : Except ε α} :
    (Talk.ask r next).Yields t o ↔ ∃ reply t', t = ⟨r, reply⟩ :: t' ∧ (next reply).Yields t' o := by
  constructor
  · intro h; cases h with | ask h => exact ⟨_, _, rfl, h⟩
  · rintro ⟨reply, t', rfl, h⟩; exact .ask h

@[simp] theorem yields_ofExcept {x o : Except ε α} : (ofExcept x).Yields t o ↔ t = [] ∧ o = x := by
  cases x <;> simp [ofExcept]

/-- Two conversations in a row: the first one fails, or it ends and the second one follows. -/
theorem yields_bind {x : Talk ε α} {k : α → Talk ε β} {o : Except ε β} :
    (x >>= k).Yields t o ↔ (∃ e, x.Yields t (.error e) ∧ o = .error e) ∨
      ∃ a t₁ t₂, t = t₁ ++ t₂ ∧ x.Yields t₁ (.ok a) ∧ (k a).Yields t₂ o := by
  constructor
  · intro h
    induction x generalizing t with
    | done a => exact .inr ⟨a, [], t, rfl, .done a, h⟩
    | fail e => cases h; exact .inl ⟨e, .fail e, rfl⟩
    | ask r next ih =>
      obtain ⟨reply, t', rfl, hnext⟩ := yields_ask.1 h
      rcases ih reply hnext with ⟨e, he, rfl⟩ | ⟨a, t₁, t₂, rfl, h₁, h₂⟩
      · exact .inl ⟨e, .ask he, rfl⟩
      · exact .inr ⟨a, ⟨r, reply⟩ :: t₁, t₂, rfl, .ask h₁, h₂⟩
  · rintro (⟨e, he, rfl⟩ | ⟨a, t₁, t₂, rfl, h₁, h₂⟩)
    · generalize ho : (Except.error e : Except ε α) = o at he
      induction he with
      | done a => cases ho
      | fail => cases ho; exact .fail e
      | ask _ ih => exact .ask (ih ho)
    · generalize ho : (Except.ok a : Except ε α) = o at h₁
      induction h₁ with
      | done a' => cases ho; exact h₂
      | fail e => cases ho
      | ask _ ih => exact .ask (ih ho)

theorem yields_mapError {ε' : Type} {f : ε → ε'} {x : Talk ε α} {o : Except ε' α} :
    (x.mapError f).Yields t o ↔ ∃ o', x.Yields t o' ∧ o = o'.mapError f := by
  constructor
  · intro h
    induction x generalizing t with
    | done a => cases h; exact ⟨.ok a, .done a, rfl⟩
    | fail e => cases h; exact ⟨.error e, .fail e, rfl⟩
    | ask r next ih =>
      obtain ⟨reply, t', rfl, hnext⟩ := yields_ask.1 h
      obtain ⟨o', h', ho⟩ := ih reply hnext
      exact ⟨o', .ask h', ho⟩
  · rintro ⟨o', h, rfl⟩
    induction h with
    | done a => exact .done a
    | fail e => exact .fail (f e)
    | ask _ ih => exact .ask ih

end Yields

/-! ## What a conversation ensures -/

/-- However a conversation goes, it ends with a good result or a good failure. -/
def Ensures (x : Talk ε α) (good : α → Prop) (bad : ε → Prop) : Prop :=
  ∀ t o, x.Yields t o → match o with
    | .ok a => good a
    | .error e => bad e

section Ensures

variable {good : α → Prop} {bad : ε → Prop}

theorem ensures_done {a : α} (h : good a) : (done a : Talk ε α).Ensures good bad := by
  intro t o ho
  cases ho
  exact h

theorem ensures_fail {e : ε} (h : bad e) : (fail e : Talk ε α).Ensures good bad := by
  intro t o ho
  cases ho
  exact h

theorem ensures_ask {r : Request} {next : r.Reply → Talk ε α} (h : ∀ reply, (next reply).Ensures good bad) :
    (ask r next).Ensures good bad := by
  intro t o ho
  obtain ⟨reply, t', rfl, hnext⟩ := yields_ask.1 ho
  exact h reply t' o hnext

end Ensures

/-! ## Oracles -/

/-- The replies in a trace are those of an oracle, where `past` has been said before. -/
def Follows (ω : Oracle) (past : List Exchange) : List Exchange → Prop
  | [] => True
  | x :: t => x.reply = ω past x.request ∧ Follows ω (past ++ [x]) t

theorem follows_append {ω : Oracle} {past t₁ t₂ : List Exchange} :
    Follows ω past (t₁ ++ t₂) ↔ Follows ω past t₁ ∧ Follows ω (past ++ t₁) t₂ := by
  induction t₁ generalizing past with
  | nil => simp [Follows]
  | cons x t₁ ih =>
    simp only [List.cons_append, Follows, ih, List.append_assoc, List.nil_append, and_assoc]

/-- An oracle gets every conversation to an end. -/
theorem exists_yields (ω : Oracle) (past : List Exchange) (x : Talk ε α) :
    ∃ t o, x.Yields t o ∧ Follows ω past t := by
  induction x generalizing past with
  | done a => exact ⟨[], .ok a, .done a, trivial⟩
  | fail e => exact ⟨[], .error e, .fail e, trivial⟩
  | ask r next ih =>
    obtain ⟨t, o, h, hf⟩ := ih (ω past r) (past ++ [⟨r, ω past r⟩])
    exact ⟨⟨r, ω past r⟩ :: t, o, .ask h, rfl, hf⟩

/-- An oracle leaves one way through a conversation. -/
theorem Yields.unique {ω : Oracle} {past t t' : List Exchange} {x : Talk ε α} {o o' : Except ε α}
    (h : x.Yields t o) (h' : x.Yields t' o') (hf : Follows ω past t) (hf' : Follows ω past t') :
    t = t' ∧ o = o' := by
  induction h generalizing past t' with
  | done a => cases h'; exact ⟨rfl, rfl⟩
  | fail e => cases h'; exact ⟨rfl, rfl⟩
  | ask h ih =>
    cases h' with
    | ask h' =>
      obtain ⟨hr, hf⟩ := hf
      obtain ⟨hr', hf'⟩ := hf'
      simp only at hr hr'
      subst hr
      subst hr'
      obtain ⟨rfl, rfl⟩ := ih h' hf hf'
      exact ⟨rfl, rfl⟩

theorem getElem?_of_extends {l l' : List Exchange} {i : Nat} {x : Exchange} (h : l <+: l') (hx : l[i]? = some x) :
    l'[i]? = some x := by
  obtain ⟨hi, rfl⟩ := List.getElem?_eq_some_iff.1 hx
  exact List.prefix_iff_getElem?.1 h i hi

/-- There is an oracle that replies as the traces of a conversation say that goes on and on. -/
theorem exists_follows (past : List Exchange) (t : Nat → List Exchange) (ht : ∀ m n, m ≤ n → t m <+: t n) :
    ∃ ω, ∀ n, Follows ω past (t n) := by
  classical
  -- it gives the reply that any of the traces has at the place, if that is a reply to the same request
  let ω : Oracle := fun said r =>
    if h : ∃ n reply, (t n)[said.length - past.length]? = some ⟨r, reply⟩ then h.choose_spec.choose
    else r.indifferent
  have hω : ∀ said n x, (t n)[said.length - past.length]? = some x → x.reply = ω said x.request := by
    intro said n x hx
    have h : ∃ n reply, (t n)[said.length - past.length]? = some ⟨x.request, reply⟩ := ⟨n, x.reply, hx⟩
    have hchosen := h.choose_spec.choose_spec
    have hsame : some x = some ⟨x.request, h.choose_spec.choose⟩ := by
      rcases Nat.le_total n h.choose with hle | hle
      · rw [← hchosen, getElem?_of_extends (ht _ _ hle) hx]
      · rw [← hx, getElem?_of_extends (ht _ _ hle) hchosen]
    simp only [ω, dif_pos h]
    exact eq_of_heq (Exchange.mk.inj (Option.some.inj hsame)).2
  refine ⟨ω, fun n => ?_⟩
  have all : ∀ (done rest : List Exchange), t n = done ++ rest → Follows ω (past ++ done) rest := by
    intro done rest
    induction rest generalizing done with
    | nil => intro _; trivial
    | cons x rest ih =>
      intro hn
      refine ⟨hω (past ++ done) n x ?_, ?_⟩
      · rw [List.length_append, Nat.add_sub_cancel_left, hn]
        simp
      · rw [List.append_assoc]
        exact ih (done ++ [x]) (by rw [hn]; simp)
  simpa using all [] (t n) rfl

end Talk

end MacroBasic
