/-
Where code leads. Code at an address takes the machine from a configuration to another one, to a fault, or
on for a number of instructions, unless a full stack stops it on the way.
-/
import MacroBasic.Proofs.Machine.Path

namespace MacroBasic

/-- The names of all scopes with what they stand for, the innermost scope first. -/
def Scopes.bindings (s : Scopes) : List (List Binding) := s.frames.map Scope.names

@[simp] theorem Scopes.bindings_cons (v : Value) (s : Scopes) : (s.cons v).bindings = s.bindings := rfl

/-- The same scopes with more values in the innermost one, the last of them on top. -/
def Scopes.pushAll (vs : List Value) (s : Scopes) : Scopes := vs.foldl (fun s v => s.cons v) s

@[simp] theorem Scopes.bindings_pushAll (vs : List Value) (s : Scopes) : (s.pushAll vs).bindings = s.bindings := by
  induction vs generalizing s with
  | nil => rfl
  | cons v vs ih => exact ih (s.cons v)

theorem Scopes.pushAll_append (vs ws : List Value) (s : Scopes) :
    s.pushAll (vs ++ ws) = (s.pushAll vs).pushAll ws := List.foldl_append

namespace Machine

/-! ## Code in place -/

/-- A table from an address on begins with the given entries. -/
def ListsAt {α : Type} (table : Address → Option α) (a : Address) (l : List α) : Prop :=
  ∀ i x, l[i]? = some x → table (a + i) = some x

section ListsAt

variable {α : Type} {table : Address → Option α} {a : Address} {l l' : List α} {x : α}

theorem ListsAt.left (h : ListsAt table a (l ++ l')) : ListsAt table a l := by
  intro n y hy
  refine h n y ?_
  rw [List.getElem?_append_left (List.getElem?_eq_some_iff.1 hy).1]
  exact hy

theorem ListsAt.right {b : Address} (h : ListsAt table a (l ++ l')) (hb : @Eq Nat (a + l.length) b) :
    ListsAt table b l' := by
  subst hb
  intro n y hy
  have := h (l.length + n) y (by rw [List.getElem?_append_right (Nat.le_add_right ..)]; simpa using hy)
  rwa [← Nat.add_assoc] at this

theorem ListsAt.first (h : ListsAt table a (x :: l)) : table a = some x := h 0 x rfl

theorem ListsAt.tail (h : ListsAt table a (x :: l)) : ListsAt table (a + 1) l := by
  intro n y hy
  rw [Nat.add_assoc, Nat.add_comm 1 n]
  exact h (n + 1) y hy

end ListsAt

/-- The instructions of a program from an address on begin with the given ones. -/
def CodeAt (lines : Array Line) (a : Address) (code : List Instruction) : Prop :=
  ListsAt (fun b => lines[b]?.map Line.instruction) a code

section CodeAt

variable {lines : Array Line} {a : Address} {code code' : List Instruction} {i : Instruction}

theorem CodeAt.left (h : CodeAt lines a (code ++ code')) : CodeAt lines a code := ListsAt.left h

theorem CodeAt.right {b : Address} (h : CodeAt lines a (code ++ code')) (hb : @Eq Nat (a + code.length) b) :
    CodeAt lines b code' := ListsAt.right h hb

theorem CodeAt.head (h : CodeAt lines a (i :: code)) : ∃ line, lines[a]? = some line ∧ line.instruction = i :=
  Option.map_eq_some_iff.1 (ListsAt.first h)

theorem CodeAt.tail (h : CodeAt lines a (i :: code)) : CodeAt lines (a + 1) code := ListsAt.tail h

end CodeAt

/-! ## Goals -/

/-- Where code leads: to a configuration, to one that is at least an instruction ahead, to a fault while names
stand for the given values, on for so many instructions, or nowhere. -/
inductive Goal where
  | reach (c : Config)
  | progress (c : Config)
  | fault (code : FaultCode) (bindings : List (List Binding))
  | beyond (n : Nat)
  | nowhere

/-- The same goal after an instruction at least. -/
def Goal.onward : Goal → Goal
  | .reach c => .progress c
  | goal => goal

section Leads

variable (ui : Bool) (lines : Array Line)

/-- The machine gets to a goal, saying what the trace says. -/
def Attains (c : Config) (t : List Exchange) : Goal → Prop
  | .reach c' => ∃ n, Path ui lines n c t c'
  | .progress c' => ∃ n, Path ui lines (n + 1) c t c'
  | .fault code b => ∃ f s, Ends ui lines c t (.error (f, s)) ∧ f.code = code ∧ s.bindings = b
  | .beyond n => ∃ m c', n ≤ m ∧ Path ui lines m c t c'
  | .nowhere => False

/-- The machine stops because a stack is full, saying what the trace says. -/
def Overflows (c : Config) (t : List Exchange) : Prop :=
  ∃ s : Scopes, s.Full ∧ Ends ui lines c t (.error (s.overflow, s))

/-- The machine gets to a goal or is stopped on the way by a full stack, which takes `full`. -/
def Leads (full : Prop) (c : Config) (t : List Exchange) (goal : Goal) : Prop :=
  Attains ui lines c t goal ∨ full ∧ ∃ t₁ t₂, t = t₁ ++ t₂ ∧ Overflows ui lines c t₁

end Leads

section Leads

variable {ui : Bool} {lines : Array Line} {full full' : Prop} {c c' : Config} {n : Nat} {t t' : List Exchange}
  {goal : Goal} {o : Except (Fault × Scopes) Scopes}

theorem Attains.after (path : Path ui lines n c t c') (h : Attains ui lines c' t' goal) :
    Attains ui lines c (t ++ t') goal := by
  cases goal with
  | reach c'' =>
    obtain ⟨m, path'⟩ := h
    exact ⟨n + m, path.trans path'⟩
  | progress c'' =>
    obtain ⟨m, path'⟩ := h
    exact ⟨n + m, path.trans path'⟩
  | fault code b =>
    obtain ⟨f, s, hends, hf⟩ := h
    exact ⟨f, s, hends.after path, hf⟩
  | beyond k =>
    obtain ⟨m, c'', hk, path'⟩ := h
    exact ⟨n + m, c'', by omega, path.trans path'⟩
  | nowhere => exact h

theorem Leads.after (path : Path ui lines n c t c') (h : Leads ui lines full c' t' goal) :
    Leads ui lines full c (t ++ t') goal := by
  rcases h with h | ⟨hfull, t₁, t₂, rfl, s, hs, h⟩
  · exact .inl (h.after path)
  · exact .inr ⟨hfull, t ++ t₁, t₂, (List.append_assoc ..).symm, s, hs, h.after path⟩

/-- Code after code. -/
theorem Leads.trans (h : Leads ui lines full c t (.reach c')) (h' : Leads ui lines full c' t' goal) :
    Leads ui lines full c (t ++ t') goal := by
  rcases h with ⟨n, path⟩ | ⟨hfull, t₁, t₂, rfl, ho⟩
  · exact h'.after path
  · exact .inr ⟨hfull, t₁, t₂ ++ t', List.append_assoc .., ho⟩

/-- Code after code of which the first part takes an instruction at least. -/
theorem Leads.onward (h : Leads ui lines full c t (.progress c')) (h' : Leads ui lines full c' t' goal) :
    Leads ui lines full c (t ++ t') goal.onward := by
  rcases h with ⟨n, path⟩ | ⟨hfull, t₁, t₂, rfl, ho⟩
  · rcases h' with h' | ⟨hfull, t₁, t₂, rfl, s, hs, h'⟩
    · cases goal with
      | reach c'' =>
        obtain ⟨m, path'⟩ := h'
        refine .inl ⟨n + m, ?_⟩
        have := path.trans path'
        rwa [Nat.succ_add] at this
      | progress | fault | beyond | nowhere => exact .inl (h'.after path)
    · exact .inr ⟨hfull, t ++ t₁, t₂, (List.append_assoc ..).symm, s, hs, h'.after path⟩
  · exact .inr ⟨hfull, t₁, t₂ ++ t', List.append_assoc .., ho⟩

theorem Leads.of_onward (h : Leads ui lines full c t goal.onward) : Leads ui lines full c t goal := by
  cases goal with
  | reach c' =>
    rcases h with ⟨n, path⟩ | h
    · exact .inl ⟨n + 1, path⟩
    · exact .inr h
  | progress | fault | beyond | nowhere => exact h

/-- Going on for so many instructions behind one at least. -/
theorem Leads.succ {k : Nat} (h : Leads ui lines full c t (.progress c'))
    (h' : Leads ui lines full c' t' (.beyond k)) : Leads ui lines full c (t ++ t') (.beyond (k + 1)) := by
  rcases h with ⟨n, path⟩ | ⟨hfull, t₁, t₂, rfl, ho⟩
  · rcases h' with ⟨m, c'', hk, path'⟩ | ⟨hfull, t₁, t₂, rfl, s, hs, h'⟩
    · exact .inl ⟨n + 1 + m, c'', by omega, path.trans path'⟩
    · exact .inr ⟨hfull, t ++ t₁, t₂, (List.append_assoc ..).symm, s, hs, h'.after path⟩
  · exact .inr ⟨hfull, t₁, t₂ ++ t', List.append_assoc .., ho⟩

theorem Leads.mono (h : Leads ui lines full c t goal) (hf : full → full') : Leads ui lines full' c t goal := by
  rcases h with h | ⟨hfull, h⟩
  · exact .inl h
  · exact .inr ⟨hf hfull, h⟩

theorem Leads.here : Leads ui lines full c [] (.reach c) := .inl ⟨0, .here c⟩

/-- What a single instruction leads to. -/
theorem Leads.ofYields {line : Line} {i : Instruction} (hline : lines[c.pc]? = some line)
    (hi : line.instruction = i) (h : (advance ui i c).Yields t (.ok c')) : Leads ui lines full c t (.reach c') := by
  subst hi
  exact .inl ⟨1, .one hline h⟩

theorem Leads.ofFails {line : Line} {i : Instruction} {f : Fault} {s : Scopes} (hline : lines[c.pc]? = some line)
    (hi : line.instruction = i) (h : (advance ui i c).Yields t (.error (f, s))) :
    Leads ui lines full c t (.fault f.code s.bindings) := by
  subst hi
  exact .inl ⟨f, s, .here (.fault hline h), rfl, rfl⟩

end Leads

section CodeAt

variable {ui : Bool} {lines : Array Line} {full : Prop} {a : Address} {s s' : Scopes} {i : Instruction}
  {code : List Instruction} {t : List Exchange}

/-- An instruction that says nothing. -/
theorem CodeAt.silent {c' : Config} (h : CodeAt lines a (i :: code)) (hi : advance ui i ⟨a, s⟩ = .done c') :
    Leads ui lines full ⟨a, s⟩ [] (.reach c') := by
  obtain ⟨line, hline, hinstr⟩ := h.head
  exact Leads.ofYields hline hinstr (by rw [hi]; exact .done c')

theorem CodeAt.fails {f : Fault} (h : CodeAt lines a (i :: code)) (hi : advance ui i ⟨a, s⟩ = .fail (f, s')) :
    Leads ui lines full ⟨a, s⟩ [] (.fault f.code s'.bindings) := by
  obtain ⟨line, hline, hinstr⟩ := h.head
  exact Leads.ofFails hline hinstr (by rw [hi]; exact .fail _)

/-- An instruction that asks once. -/
theorem CodeAt.asks {r : Request} {next : r.Reply → Talk (Fault × Scopes) Config} {c' : Config}
    (h : CodeAt lines a (i :: code)) (hi : advance ui i ⟨a, s⟩ = .ask r next) (reply : r.Reply)
    (hn : next reply = .done c') :
    Leads ui lines full ⟨a, s⟩ [⟨r, reply⟩] (.reach c') := by
  obtain ⟨line, hline, hinstr⟩ := h.head
  exact Leads.ofYields hline hinstr (by rw [hi]; exact .ask (by rw [hn]; exact .done c'))

theorem CodeAt.asks_fails {r : Request} {next : r.Reply → Talk (Fault × Scopes) Config} {f : Fault}
    (h : CodeAt lines a (i :: code)) (hi : advance ui i ⟨a, s⟩ = .ask r next) (reply : r.Reply)
    (hn : next reply = .fail (f, s')) : Leads ui lines full ⟨a, s⟩ [⟨r, reply⟩] (.fault f.code s'.bindings) := by
  obtain ⟨line, hline, hinstr⟩ := h.head
  exact Leads.ofFails hline hinstr (by rw [hi]; exact .ask (by rw [hn]; exact .fail _))

/-- An instruction that pushes a value. -/
theorem CodeAt.pushes {v : Value} {b : Address} (h : CodeAt lines a (i :: code))
    (hi : (advance ui i ⟨a, s⟩) = pushing v b s') (hfull : s'.Full → full) :
    Leads ui lines full ⟨a, s⟩ [] (.reach ⟨b, s'.cons v⟩) := by
  obtain ⟨line, hline, hinstr⟩ := h.head
  unfold pushing at hi
  by_cases hf : s'.Full
  · rw [if_pos hf] at hi
    subst hinstr
    exact .inr ⟨hfull hf, [], [], rfl, s', hf, .here (.fault hline (by rw [hi]; exact .fail _))⟩
  · rw [if_neg hf] at hi
    exact h.silent hi

/-- An instruction that asks and pushes a value made of the reply. -/
theorem CodeAt.asks_pushes {r : Request} {next : r.Reply → Talk (Fault × Scopes) Config} {v : Value} {b : Address}
    (h : CodeAt lines a (i :: code)) (hi : advance ui i ⟨a, s⟩ = .ask r next) (reply : r.Reply)
    (hn : next reply = pushing v b s') (hfull : s'.Full → full) :
    Leads ui lines full ⟨a, s⟩ [⟨r, reply⟩] (.reach ⟨b, s'.cons v⟩) := by
  obtain ⟨line, hline, hinstr⟩ := h.head
  unfold pushing at hn
  by_cases hf : s'.Full
  · rw [if_pos hf] at hn
    subst hinstr
    have hy : (advance ui line.instruction ⟨a, s⟩).Yields [⟨r, reply⟩] (.error (s'.overflow, s')) := by
      rw [hi]; exact .ask (by rw [hn]; exact .fail _)
    exact .inr ⟨hfull hf, [⟨r, reply⟩], [], rfl, s', hf, .here (.fault hline hy)⟩
  · rw [if_neg hf] at hn
    exact h.asks hi reply hn

end CodeAt

end Machine

end MacroBasic
