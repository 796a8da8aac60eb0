/-
What is done between entering a frame and leaving it again. Whatever the operations are, and whether they fail or not,
the frames that there were before keep their stacks, and their names with kinds, addresses and parameters in their
order. A value changes only where an operation names it while no frame inside of its own binds the name, and in the end
every name is found in the frame where it was found before.
-/
import MacroBasic.Proofs.Machine.Frames
import Mathlib.Data.List.Infix

namespace MacroBasic

/-- The state that an operation leaves, also where it faults. -/
def Work.left {σ α : Type} (w : Work σ α) (s : σ) : σ :=
  match w s with
  | .ok _ s' => s'
  | .error _ s' => s'

/-! ## Operations on scopes -/

namespace Scopes

/-- What can be done with scopes. Writing through the nearest binding of a name is `set`, and `assign` is the same for
those who want the value back where the name is not bound. -/
inductive Operation where
  | allocate (b : Binding)
  | assign (name : String) (v : Value)
  | set (name : String) (v : Value)
  | push (v : Value)
  | pop
  | pop2
  | peek (depth : Nat)
  | pushScope
  | popScope

/-- An operation is to give a name a value. -/
def Operation.Names (name : String) (v : Value) (op : Operation) : Prop := op = .assign name v ∨ op = .set name v

/-- The scopes after an operation, also where it fails. -/
def apply (S : Scopes) : Operation → Scopes
  | .allocate b => S.allocate b
  | .assign name v | .set name v => (S.assign? name v).getD S
  | .push v => (push v).left S
  | .pop => pop.left S
  | .pop2 => pop2.left S
  | .peek depth => (peek depth).left S
  | .pushScope => pushScope.left S
  | .popScope => popScope.left S

/-- The scopes after some operations. -/
def after (S : Scopes) (ops : List Operation) : Scopes := ops.foldl apply S

/-- No frame inside of the one `k` places above the outermost one binds a name. -/
def Free (S : Scopes) (k : Nat) (name : String) : Prop := ∀ j, k < j → S.binding? j name = none

/-- One of some operations gives a name a value, and when it comes to it no frame inside of the `k`-th one binds the
name. -/
def Gives (S : Scopes) (k : Nat) (ops : List Operation) (name : String) (v : Value) : Prop :=
  ∃ before op later, ops = before ++ op :: later ∧ op.Names name v ∧ (S.after before).Free k name

/-- Entering a frame, some operations, and leaving a frame. -/
def Operation.enclosed (ops : List Operation) : List Operation := .pushScope :: (ops ++ [.popScope])

/-- Entering a frame succeeds, none of some operations leaves that frame, and behind them it is the innermost one, so
that it is the one that is left next. Where a frame is entered in vain there is none to leave. -/
structure Encloses (S : Scopes) (ops : List Operation) : Prop where
  inside : ∀ before, before <+: ops → S.depth < (S.after (.pushScope :: before)).depth
  innermost : (S.after (.pushScope :: ops)).depth = S.depth + 1

/-- The binding of a name that is found stands in the `k`-th frame. -/
structure Finds (S : Scopes) (name : String) (k : Nat) (b : Binding) : Prop where
  get : S.get? name = some b
  here : S.binding? k name = some b
  free : S.Free k name

end Scopes

/-! ## Other values -/

/-- The same binding, with the same value or with one that is given to its name. -/
structure Binding.Revalued (given : String → Value → Prop) (b b' : Binding) : Prop where
  name : b'.name = b.name
  kind : b'.kind = b.kind
  address : b'.address = b.address
  parameters : b'.parameters = b.parameters
  value : b'.value = b.value ∨ given b.name b'.value

/-- The same stack and the same bindings in the same order, but for values that are given to their names. -/
structure Scope.Revalued (given : String → Value → Prop) (f f' : Scope) : Prop where
  stack : f'.stack = f.stack
  names : List.Forall₂ (Binding.Revalued given) f.names f'.names

section Revalued

variable {given given' : String → Value → Prop} {b b' b'' : Binding} {f f' f'' : Scope}

theorem Binding.Revalued.refl (b : Binding) : b.Revalued given b := ⟨rfl, rfl, rfl, rfl, .inl rfl⟩

theorem Binding.Revalued.trans (h : b.Revalued given b') (h' : b'.Revalued given b'') : b.Revalued given b'' := by
  refine ⟨h'.name.trans h.name, h'.kind.trans h.kind, h'.address.trans h.address, h'.parameters.trans h.parameters, ?_⟩
  rcases h'.value with hsame | hgiven
  · rw [hsame]
    exact h.value
  · rw [h.name] at hgiven
    exact .inr hgiven

theorem Binding.Revalued.mono (hgiven : ∀ name v, given name v → given' name v) (h : b.Revalued given b') :
    b.Revalued given' b' := ⟨h.name, h.kind, h.address, h.parameters, h.value.imp_right (hgiven _ _)⟩

theorem Scope.Revalued.refl (f : Scope) : f.Revalued given f :=
  ⟨rfl, List.forall₂_same.2 fun b _ => Binding.Revalued.refl b⟩

theorem Scope.Revalued.trans (h : f.Revalued given f') (h' : f'.Revalued given f'') : f.Revalued given f'' :=
  ⟨h'.stack.trans h.stack, forall₂_trans (fun _ _ _ hb hb' => hb.trans hb') h.names h'.names⟩

theorem Scope.Revalued.mono (hgiven : ∀ name v, given name v → given' name v) (h : f.Revalued given f') :
    f.Revalued given' f' := ⟨h.stack, h.names.imp fun _ _ hb => hb.mono hgiven⟩

theorem Scope.Revalued.assign? {name : String} {v : Value} (h : f.assign? name v = some f') :
    f.Revalued (fun n w => n = name ∧ w = v) f' := by
  obtain ⟨names, hnames, rfl⟩ := Option.map_eq_some_iff.1 h
  refine ⟨rfl, (forall₂_replace? hnames).imp fun b b' hb => ?_⟩
  rcases hb with rfl | ⟨hfound, rfl⟩
  · exact .refl _
  · have hname : b.name = name := by simpa using List.find?_some hfound
    exact ⟨rfl, rfl, rfl, rfl, .inr ⟨hname, rfl⟩⟩

/-- A name is bound in both scopes or in neither. -/
theorem Scope.Revalued.get? (h : f.Revalued given f') (name : String) :
    Option.Rel (Binding.Revalued given) (f.get? name) (f'.get? name) := by
  unfold Scope.get?
  have hnames := h.names
  generalize f.names = l, f'.names = l' at hnames
  induction hnames with
  | nil => exact .none
  | cons hb _ ih =>
    rw [List.find?_cons, List.find?_cons, hb.name]
    split
    · exact .some hb
    · exact ih

end Revalued

namespace Scopes

variable {S S' : Scopes} {ops : List Operation} {op : Operation} {k : Nat} {f f' : Scope} {b : Binding} {name : String}
  {v : Value} {inner outer : List Scope}

/-! ## Frames from outside -/

theorem length_frames (S : Scopes) : S.frames.length = S.depth := S.depth_eq.symm

theorem frame?_outer (h : S.frames = inner ++ f :: outer) (hk : k < outer.length) :
    S.frame? k = outer.reverse[k]? := by
  unfold frame?
  rw [h, List.reverse_append, List.reverse_cons, List.append_assoc, List.getElem?_append_left (by simpa using hk)]

theorem frame?_length (h : S.frames = inner ++ f :: outer) : S.frame? outer.length = some f := by
  unfold frame?
  rw [h, List.reverse_append, List.reverse_cons, List.append_assoc, List.getElem?_append_right (by simp)]
  simp

theorem frame?_inner (h : S.frames = inner ++ f :: outer) (hk : outer.length < k) :
    S.frame? k = inner.reverse[k - (outer.length + 1)]? := by
  unfold frame?
  rw [h, List.reverse_append, List.reverse_cons, List.getElem?_append_right (by simpa using Nat.succ_le_of_lt hk)]
  simp

/-- Where the inner frames do not bind a name, no frame inside of the next one does. -/
theorem free_of_split (h : S.frames = inner ++ f :: outer) (hinner : ∀ g ∈ inner, g.get? name = none) :
    S.Free outer.length name := by
  intro j hj
  unfold binding?
  rw [frame?_inner h hj]
  cases hg : inner.reverse[j - (outer.length + 1)]? with
  | none => rfl
  | some g => exact hinner g (List.mem_reverse.1 (List.mem_of_getElem? hg))

/-! ## Names -/

theorem binding?_eq_none (h : S.get? name = none) (k : Nat) : S.binding? k name = none := by
  unfold binding?
  cases hf : S.frame? k with
  | none => rfl
  | some f => exact List.findSome?_eq_none_iff.1 h f (List.mem_reverse.1 (List.mem_of_getElem? hf))

theorem exists_finds (h : S.get? name = some b) : ∃ k, S.Finds name k b := by
  obtain ⟨inner, f, outer, hframes, hb, hinner⟩ := List.findSome?_eq_some_iff.1 h
  have hhere : S.binding? outer.length name = some b := by
    unfold binding?
    rw [frame?_length hframes]
    exact hb
  exact ⟨outer.length, h, hhere, free_of_split hframes hinner⟩

/-- A binding is found where no frame inside of its own binds the name. -/
theorem finds_of_free (hb : S.binding? k name = some b) (hfree : S.Free k name) : S.Finds name k b := by
  cases hget : S.get? name with
  | none =>
    rw [binding?_eq_none hget k] at hb
    cases hb
  | some b' =>
    obtain ⟨k', h⟩ := exists_finds hget
    -- the frame where it is found cannot be another one
    have hk : k' = k := by
      rcases Nat.lt_trichotomy k' k with hlt | heq | hlt
      · rw [h.free k hlt] at hb
        cases hb
      · exact heq
      · have hnone := hfree k' hlt
        rw [h.here] at hnone
        cases hnone
    subst hk
    cases h.here.symm.trans hb
    exact h

/-! ## One operation -/

/-- What an operation can do: it works on the innermost frame, gives the nearest binding of a name a value, enters a
frame that is empty, or leaves the innermost one of several. -/
inductive Changes (op : Operation) (S S' : Scopes) : Prop
  | inside (hbelow : S'.below = S.below)
  | gives (name : String) (v : Value) (hop : op.Names name v) (hassign : S.assign? name v = some S')
  | enters (hop : op = .pushScope) (hframes : S'.frames = .empty :: S.frames)
  | leaves (hop : op = .popScope) (hframes : S.frames = S.top :: S'.frames)

theorem below_values {α : Type} (w : Work (Stack Value) α) (S : Scopes) : ((values w).left S).below = S.below := by
  unfold Work.left values Scope.values Work.within
  cases w S.top.stack with
  | ok a stack => rfl
  | error f stack => rfl

theorem changes_assign (hop : op.Names name v) : Changes op S ((S.assign? name v).getD S) := by
  cases hassign : S.assign? name v with
  | none => exact .inside rfl
  | some S' => exact .gives name v hop hassign

theorem changes_pushScope (S : Scopes) : Changes .pushScope S (pushScope.left S) := by
  unfold Work.left pushScope
  by_cases hfull : limit ≤ S.depth
  · rw [if_pos hfull]
    exact .inside rfl
  · rw [if_neg hfull]
    exact .enters rfl rfl

theorem changes_popScope (S : Scopes) : Changes .popScope S (popScope.left S) := by
  obtain ⟨top, below, depth, depth_eq⟩ := S
  cases below with
  -- the only frame is not left
  | nil => exact .inside rfl
  | cons next rest => exact .leaves rfl rfl

theorem changes_apply (S : Scopes) (op : Operation) : Changes op S (S.apply op) := by
  cases op with
  | allocate b => exact .inside rfl
  | assign name v => exact changes_assign (.inl rfl)
  | set name v => exact changes_assign (.inr rfl)
  | push v => exact .inside (below_values _ S)
  | pop => exact .inside (below_values _ S)
  | pop2 => exact .inside (below_values _ S)
  | peek depth => exact .inside (below_values _ S)
  | pushScope => exact changes_pushScope S
  | popScope => exact changes_popScope S

/-- The first of some frames that binds a name is the one where the name is given a value. -/
theorem assignFirst?_split {l l' : List Scope} (h : assignFirst? name v l = some l') :
    ∃ inner f f' outer, l = inner ++ f :: outer ∧ l' = inner ++ f' :: outer ∧ f.assign? name v = some f' ∧
      ∀ g ∈ inner, g.get? name = none := by
  induction l generalizing l' with
  | nil => cases h
  | cons first rest ih =>
    unfold assignFirst? at h
    split at h
    · rename_i first' hfirst
      cases h
      exact ⟨[], first, first', rest, rfl, rfl, hfirst, nofun⟩
    · rename_i hfirst
      obtain ⟨rest', hrest, rfl⟩ := Option.map_eq_some_iff.1 h
      obtain ⟨inner, f, f', outer, rfl, rfl, hf, hinner⟩ := ih hrest
      have hfree : first.get? name = none := replace?_eq_none (Option.map_eq_none_iff.1 hfirst)
      exact ⟨first :: inner, f, f', outer, rfl, rfl, hf, List.forall_mem_cons.2 ⟨hfree, hinner⟩⟩

/-- Giving a name a value does nothing to a frame but to the bindings of the name, and to these only where no frame
inside binds the name. -/
theorem frame_assign? (h : S.assign? name v = some S') (hf : S.frame? k = some f) :
    ∃ f', S'.frame? k = some f' ∧ f.Revalued (fun n w => (n = name ∧ w = v) ∧ S.Free k name) f' := by
  obtain ⟨inner, g, g', outer, hold, hnew, hassign, hinner⟩ := assignFirst?_split (assign?_frames h)
  rcases Nat.lt_trichotomy k outer.length with hk | rfl | hk
  · rw [frame?_outer hold hk] at hf
    exact ⟨f, by rw [frame?_outer hnew hk, hf], .refl f⟩
  · rw [frame?_length hold] at hf
    cases hf
    have hfree := free_of_split hold hinner
    exact ⟨g', frame?_length hnew, (Scope.Revalued.assign? hassign).mono fun _ _ hgiven => ⟨hgiven, hfree⟩⟩
  · rw [frame?_inner hold hk] at hf
    exact ⟨f, by rw [frame?_inner hnew hk, hf], .refl f⟩

/-- What an operation does to a frame that is not the innermost one. -/
theorem Changes.frame (h : Changes op S S') (hk : k < S.below.length) (hf : S.frame? k = some f) :
    ∃ f', S'.frame? k = some f' ∧ f.Revalued (fun name v => op.Names name v ∧ S.Free k name) f' := by
  cases h with
  | inside hbelow =>
    rw [frame?_outer (show S.frames = [] ++ S.top :: S.below from rfl) hk, ← hbelow] at hf
    exact ⟨f, frame?_of_below hf, .refl f⟩
  | gives name v hop hassign =>
    obtain ⟨f', hf', hrevalued⟩ := frame_assign? hassign hf
    refine ⟨f', hf', hrevalued.mono ?_⟩
    rintro _ _ ⟨⟨rfl, rfl⟩, hfree⟩
    exact ⟨hop, hfree⟩
  | enters _ hframes => exact ⟨f, by rw [frame?_of_cons hframes (frame?_lt hf), hf], .refl f⟩
  | leaves _ hframes =>
    have hbelow : S.below = S'.frames := (List.cons.inj hframes).2
    rw [hbelow] at hk
    exact ⟨f, by rw [← frame?_of_cons hframes hk, hf], .refl f⟩

/-! ## Runs of operations -/

theorem Gives.cons (h : (S.apply op).Gives k ops name v) : S.Gives k (op :: ops) name v := by
  obtain ⟨before, op', later, rfl, hop, hfree⟩ := h
  exact ⟨op :: before, op', later, rfl, hop, hfree⟩

/-- What operations do to a frame that is the innermost one in front of none of them. -/
theorem frame_after (hinside : ∀ before op later, ops = before ++ op :: later → k < (S.after before).below.length)
    (hf : S.frame? k = some f) : ∃ f', (S.after ops).frame? k = some f' ∧ f.Revalued (S.Gives k ops) f' := by
  -- by induction on the operations: what the first one gives is added to what the others give
  induction ops generalizing S f with
  | nil => exact ⟨f, hf, .refl f⟩
  | cons op ops ih =>
    obtain ⟨f₁, hf₁, hfirst⟩ := (changes_apply S op).frame (hinside [] op ops rfl) hf
    obtain ⟨f', hf', hrest⟩ := ih (S := S.apply op) (fun before op' later hops => by
      subst hops
      exact hinside (op :: before) op' later rfl) hf₁
    refine ⟨f', hf', .trans (hfirst.mono ?_) (hrest.mono fun _ _ => Gives.cons)⟩
    rintro name v ⟨hop, hfree⟩
    exact ⟨[], op, ops, rfl, hop, hfree⟩

/-- Entering a frame does nothing to those that there are. -/
theorem frame?_pushScope (hk : k < S.frames.length) (hdepth : S.depth < (S.apply .pushScope).depth) :
    (S.apply .pushScope).frame? k = S.frame? k := by
  have hchanges : Changes .pushScope S (S.apply .pushScope) := changes_apply S .pushScope
  cases hchanges with
  | inside hbelow =>
    rw [S.depth_eq, depth_eq, hbelow] at hdepth
    exact absurd hdepth (Nat.lt_irrefl _)
  | gives _ _ hop => rcases hop with hop | hop <;> cases hop
  | enters _ hframes => exact frame?_of_cons hframes hk
  | leaves hop => cases hop

theorem depth_popScope (h : 1 < S.depth) : (S.apply .popScope).depth = S.depth - 1 := by
  obtain ⟨top, below, depth, depth_eq⟩ := S
  cases below with
  | nil =>
    subst depth_eq
    exact absurd h (Nat.lt_irrefl _)
  | cons next rest => rfl

namespace Encloses

theorem depth (h : S.Encloses ops) : (S.after (Operation.enclosed ops)).depth = S.depth := by
  have hdepth : 0 < S.depth := by
    rw [S.depth_eq]
    exact Nat.succ_pos _
  have hleft : S.after (Operation.enclosed ops) = (S.after (.pushScope :: ops)).apply .popScope :=
    List.foldl_append
  rw [hleft, depth_popScope (by rw [h.innermost]; omega), h.innermost, Nat.add_sub_cancel]

/-- Whatever comes next, the frames that there were before are not the innermost one. -/
theorem below (h : S.Encloses ops) (hk : k < S.depth) (before : List Operation) (op : Operation)
    (later : List Operation) (hops : ops ++ [.popScope] = before ++ op :: later) :
    k < ((S.apply .pushScope).after before).below.length := by
  have hprefix : before <+: ops ++ [.popScope] := ⟨op :: later, hops.symm⟩
  have hbefore : before <+: ops := by
    rcases List.prefix_concat_iff.1 hprefix with rfl | hbefore
    · simp at hops
    · exact hbefore
  have hinside : S.depth < ((S.apply .pushScope).after before).depth := h.inside before hbefore
  rw [depth_eq ((S.apply .pushScope).after before)] at hinside
  omega

theorem frame (h : S.Encloses ops) (hf : S.frame? k = some f) :
    ∃ f', (S.after (Operation.enclosed ops)).frame? k = some f' ∧ f.Revalued (S.Gives k (Operation.enclosed ops)) f' := by
  have hk := frame?_lt hf
  rw [← frame?_pushScope hk (h.inside [] List.nil_prefix)] at hf
  rw [length_frames] at hk
  obtain ⟨f', hf', hrevalued⟩ := frame_after (h.below hk) hf
  exact ⟨f', hf', hrevalued.mono fun _ _ => Gives.cons⟩

end Encloses

/-- Where the bindings of all frames correspond, each name is found in the same frame. -/
theorem same_finds {given : Nat → String → Value → Prop} (h : ∀ k,
    Option.Rel (Binding.Revalued (given k)) (S.binding? k name) (S'.binding? k name)) :
    S.get? name = none ∧ S'.get? name = none ∨
      ∃ k b b', S.Finds name k b ∧ S'.Finds name k b' ∧ b.Revalued (given k) b' := by
  have hnone (j : Nat) (hj : S.binding? j name = none) : S'.binding? j name = none := by
    have hrel := h j
    rw [hj] at hrel
    generalize S'.binding? j name = x at hrel
    cases hrel
    rfl
  cases hget : S.get? name with
  | none =>
    refine .inl ⟨rfl, ?_⟩
    cases hget' : S'.get? name with
    | none => rfl
    | some b' =>
      obtain ⟨k, hfinds⟩ := exists_finds hget'
      exact hfinds.here.symm.trans (hnone k (binding?_eq_none hget k))
  | some b =>
    obtain ⟨k, hfinds⟩ := exists_finds hget
    have hrel := h k
    rw [hfinds.here] at hrel
    generalize hb' : S'.binding? k name = x at hrel
    cases hrel with
    | some hrevalued =>
      exact .inr ⟨k, b, _, hfinds, finds_of_free hb' fun j hj => hnone j (hfinds.free j hj), hrevalued⟩

/-- A frame is entered, any operations follow, failing or not, that do not leave it, and then it is left. Afterwards
there are as many frames as before, each with the same stack and the same names with the same kinds, addresses and
parameters in the same order. A value is the same, unless an operation gave another one to its name when no frame
inside bound the name. Every name is found in the same frame as before, or in none as before. -/
theorem after_enclosed (S : Scopes) (ops : List Operation) (h : S.Encloses ops) :
    let S' := S.after (Operation.enclosed ops)
    S'.depth = S.depth ∧
    (∀ k f, S.frame? k = some f →
      ∃ f', S'.frame? k = some f' ∧ f.Revalued (S.Gives k (Operation.enclosed ops)) f') ∧
    ∀ name, S.get? name = none ∧ S'.get? name = none ∨
      ∃ k b b', S.Finds name k b ∧ S'.Finds name k b' ∧ b.Revalued (S.Gives k (Operation.enclosed ops)) b' := by
  intro S'
  refine ⟨h.depth, fun k f hf => h.frame hf, fun name => same_finds fun k => ?_⟩
  unfold binding?
  cases hf : S.frame? k with
  | some f =>
    obtain ⟨f', hf', hrevalued⟩ := h.frame hf
    rw [hf']
    exact hrevalued.get? name
  | none =>
    have hf' : S'.frame? k = none := by
      cases hf' : S'.frame? k with
      | none => rfl
      | some f' =>
        have hk := frame?_lt hf'
        rw [length_frames, h.depth, ← length_frames] at hk
        obtain ⟨f, hf₁⟩ := exists_frame? hk
        cases hf.symm.trans hf₁
    rw [hf']
    exact .none

/-- A name is bound again in the frame that is entered and given a value there, another one is given a value from an
inner frame, and values are missing for what is taken. -/
theorem after_enclosed_shadowed :
    let S := ((onBottom (Scope.empty.allocate { name := "y" })).allocate { name := "x", value := .text "a" }).apply
      (.push (.text "b"))
    let ops : List Operation := [.pop, .allocate { name := "x" }, .assign "x" (.text "c"), .push (.text "d"),
      .pushScope, .peek 0, .set "y" (.text "e"), .popScope, .pop2, .assign "z" (.text "f")]
    S.Encloses ops ∧ ∃ f, (S.after (Operation.enclosed ops)).frame? 1 = some f ∧
      f.stack.items = [.text "b"] ∧ f.names.map Binding.name = ["x"] ∧
      ∃ k b b', S.Finds "y" k b ∧ (S.after (Operation.enclosed ops)).Finds "y" k b' := by
  intro S ops
  have hinside : ∀ before ∈ ops.inits, S.depth < (S.after (.pushScope :: before)).depth := by decide +kernel
  have hencloses : S.Encloses ops :=
    ⟨fun before hbefore => hinside before ((List.mem_inits before ops).2 hbefore), by decide +kernel⟩
  obtain ⟨_, hframes, hnames⟩ := after_enclosed S ops hencloses
  obtain ⟨f, hf, hrevalued⟩ := hframes 1 S.top rfl
  refine ⟨hencloses, f, hf, congrArg Stack.items hrevalued.stack, ?_, ?_⟩
  · have hbindings : List.Forall₂ _ [_] f.names := hrevalued.names
    generalize f.names = names at hbindings
    cases hbindings with
    | cons hx hrest =>
      cases hrest
      exact congrArg ([·]) hx.name
  · rcases hnames "y" with ⟨hfree, _⟩ | ⟨k, b, b', hb, hb', _⟩
    · cases hfree
    · exact ⟨k, b, b', hb, hb'⟩

end Scopes

end MacroBasic
