/-
Slots of names. The nearest binding of a name stands in one of the scopes, which is known by the number of scopes that
are older. As long as there are newer scopes, nothing but giving the name a value changes what its slot holds. So when
a run has come back to the older scopes, the slot holds the last value that it has been given there, or else what it
held before.
-/
import MacroBasic.Proofs.Machine.Passage

namespace MacroBasic

/-! ## Slots -/

/-- The nearest binding of a name in some scopes, the innermost one first, with the number of scopes that are older
than the one where it stands. -/
def slot? (x : String) : List Scope → Option (Nat × Binding)
  | [] => none
  | f :: older =>
    match f.get? x with
    | some b => some (older.length, b)
    | none => slot? x older

/-- The same slot with another value. -/
def refill (v : Value) (s : Nat × Binding) : Nat × Binding := (s.1, { s.2 with value := v })

section Slots

variable {x name : String} {v : Value} {f f' : Scope} {frames frames' above lower older : List Scope} {n : Nat}
  {b : Binding}

theorem slot?_cons_of_bound (h : f.get? x = some b) : slot? x (f :: older) = some (older.length, b) := by
  rw [slot?, h]

theorem slot?_cons_of_free (h : f.get? x = none) : slot? x (f :: older) = slot? x older := by
  rw [slot?, h]

theorem findSome?_eq_slot? (x : String) (frames : List Scope) :
    frames.findSome? (·.get? x) = (slot? x frames).map Prod.snd := by
  induction frames with
  | nil => rfl
  | cons f older ih =>
    rw [List.findSome?_cons]
    cases hf : f.get? x with
    | some b => rw [slot?_cons_of_bound hf]; rfl
    | none => rw [slot?_cons_of_free hf]; exact ih

theorem Scopes.get?_eq_slot? (x : String) (S : Scopes) : S.get? x = (slot? x S.frames).map Prod.snd :=
  findSome?_eq_slot? x S.frames

theorem slot?_lt (h : slot? x frames = some (n, b)) : n < frames.length := by
  induction frames with
  | nil => cases h
  | cons f older ih =>
    cases hf : f.get? x with
    | some b' =>
      rw [slot?_cons_of_bound hf] at h
      cases h
      exact Nat.lt_succ_self _
    | none =>
      rw [slot?_cons_of_free hf] at h
      exact Nat.lt_succ_of_lt (ih h)

/-- A slot that is not among the newer scopes is found behind all of these. -/
theorem slot?_append_free (h : slot? x (above ++ lower) = some (n, b)) (hn : n < lower.length) :
    ∀ f ∈ above, f.get? x = none := by
  induction above with
  | nil => exact nofun
  | cons f above ih =>
    cases hf : f.get? x with
    | some b' =>
      rw [List.cons_append, slot?_cons_of_bound hf] at h
      cases h
      rw [List.length_append] at hn
      omega
    | none =>
      rw [List.cons_append, slot?_cons_of_free hf] at h
      exact List.forall_mem_cons.2 ⟨hf, ih h⟩

theorem slot?_append_of_free (h : ∀ f ∈ above, f.get? x = none) : slot? x (above ++ lower) = slot? x lower := by
  induction above with
  | nil => rfl
  | cons f above ih =>
    obtain ⟨hf, habove⟩ := List.forall_mem_cons.1 h
    rw [List.cons_append, slot?_cons_of_free hf]
    exact ih habove

/-! ## Giving values -/

theorem find?_replace?_self : ∀ {names names' : List Binding}, Scope.replace? x v names = some names' →
    names'.find? (·.name == x) = (names.find? (·.name == x)).map fun b => { b with value := v }
  | [], _, h => nomatch h
  | first :: rest, _, h => by
    unfold Scope.replace? at h
    by_cases hfirst : first.name = x
    · rw [if_pos hfirst] at h
      cases h
      rw [List.find?_cons_of_pos (by simpa using hfirst), List.find?_cons_of_pos (by simpa using hfirst)]
      rfl
    · rw [if_neg hfirst] at h
      obtain ⟨rest', hrest, rfl⟩ := Option.map_eq_some_iff.1 h
      rw [List.find?_cons_of_neg (by simpa using hfirst), List.find?_cons_of_neg (by simpa using hfirst)]
      exact find?_replace?_self hrest

theorem Scope.get?_assign?_self (h : f.assign? x v = some f') :
    f'.get? x = (f.get? x).map fun b => { b with value := v } := by
  obtain ⟨names, hnames, rfl⟩ := Option.map_eq_some_iff.1 h
  exact find?_replace?_self hnames

theorem Scope.get?_assign?_of_ne (h : f.assign? name v = some f') (hname : name ≠ x) : f'.get? x = f.get? x := by
  obtain ⟨names, hnames, rfl⟩ := Option.map_eq_some_iff.1 h
  exact Machine.find?_replace?_of_ne hname hnames

theorem Scope.get?_of_assign?_none (h : f.assign? x v = none) : f.get? x = none :=
  replace?_eq_none (Option.map_eq_none_iff.1 h)

theorem Scope.assign?_eq_none (h : f.get? x = none) : f.assign? x v = none := by
  cases hassign : f.assign? x v with
  | none => rfl
  | some f' =>
    obtain ⟨names, hnames, -⟩ := Option.map_eq_some_iff.1 hassign
    have hbound := find?_of_replace? hnames
    rw [show f.names.find? (·.name == x) = none from h] at hbound
    cases hbound

/-- Giving a name a value refills its slot. -/
theorem slot?_assignFirst?_self (h : Scopes.assignFirst? x v frames = some frames') :
    slot? x frames' = (slot? x frames).map (refill v) := by
  induction frames generalizing frames' with
  | nil => cases h
  | cons f older ih =>
    unfold Scopes.assignFirst? at h
    split at h
    · rename_i f' hf
      cases h
      have hget := Scope.get?_assign?_self hf
      obtain ⟨names, hnames, -⟩ := Option.map_eq_some_iff.1 hf
      obtain ⟨b, hb⟩ := Option.isSome_iff_exists.1 (find?_of_replace? hnames)
      have hb : f.get? x = some b := hb
      rw [hb] at hget
      rw [slot?_cons_of_bound hget, slot?_cons_of_bound hb]
      rfl
    · rename_i hf
      obtain ⟨older', holder, rfl⟩ := Option.map_eq_some_iff.1 h
      have hfree := Scope.get?_of_assign?_none hf
      rw [slot?_cons_of_free hfree, slot?_cons_of_free hfree]
      exact ih holder

/-- Giving another name a value leaves a slot as it is. -/
theorem slot?_assignFirst?_of_ne (h : Scopes.assignFirst? name v frames = some frames') (hname : name ≠ x) :
    slot? x frames' = slot? x frames := by
  induction frames generalizing frames' with
  | nil => cases h
  | cons f older ih =>
    unfold Scopes.assignFirst? at h
    split at h
    · rename_i f' hf
      cases h
      rw [slot?, slot?, Scope.get?_assign?_of_ne hf hname]
    · obtain ⟨older', holder, rfl⟩ := Option.map_eq_some_iff.1 h
      rw [slot?, slot?, ih holder, Scopes.assignFirst?_length holder]

theorem exists_assignFirst? (h : slot? x frames = some (n, b)) (v : Value) :
    ∃ frames', Scopes.assignFirst? x v frames = some frames' := by
  induction frames with
  | nil => cases h
  | cons f older ih =>
    unfold Scopes.assignFirst?
    split
    · exact ⟨_, rfl⟩
    · rename_i hf
      rw [slot?_cons_of_free (Scope.get?_of_assign?_none hf)] at h
      obtain ⟨older', holder⟩ := ih h
      rw [holder]
      exact ⟨_, rfl⟩

theorem Scopes.frames_assign? (name : String) (v : Value) (S : Scopes) :
    (S.assign? name v).map Scopes.frames = Scopes.assignFirst? name v S.frames := by
  unfold Scopes.assign? Scopes.frames
  rw [Scopes.assignFirst?]
  split
  · rfl
  · split
    · rename_i hbelow
      exact congrArg (Option.map (S.top :: ·)) hbelow.symm
    · rename_i hbelow
      exact congrArg (Option.map (S.top :: ·)) hbelow.symm

/-- A name that no newer scope binds is given a value in the older ones. -/
theorem assignFirst?_append_of_free (h : ∀ f ∈ above, f.get? name = none) :
    Scopes.assignFirst? name v (above ++ lower) = (Scopes.assignFirst? name v lower).map (above ++ ·) := by
  induction above with
  | nil => rw [List.nil_append]; exact Option.map_id'.symm
  | cons f above ih =>
    obtain ⟨hf, habove⟩ := List.forall_mem_cons.1 h
    rw [List.cons_append, Scopes.assignFirst?, Scope.assign?_eq_none hf, ih habove, Option.map_map]
    rfl

/-- A value is given to a name in one of the newer scopes or in one of the older ones, never in both. -/
theorem assignFirst?_append (h : Scopes.assignFirst? name v (above ++ lower) = some frames') :
    (∃ above', frames' = above' ++ lower) ∨
      ∃ lower', frames' = above ++ lower' ∧ Scopes.assignFirst? name v lower = some lower' ∧
        ∀ f ∈ above, f.get? name = none := by
  induction above generalizing frames' with
  | nil => exact .inr ⟨frames', rfl, h, nofun⟩
  | cons f above ih =>
    rw [List.cons_append] at h
    unfold Scopes.assignFirst? at h
    split at h
    · rename_i f' _
      cases h
      exact .inl ⟨f' :: above, rfl⟩
    · rename_i hf
      obtain ⟨rest, hrest, rfl⟩ := Option.map_eq_some_iff.1 h
      rcases ih hrest with ⟨above', rfl⟩ | ⟨lower', rfl, hlower, hfree⟩
      · exact .inl ⟨f :: above', rfl⟩
      · exact .inr ⟨lower', rfl, hlower, List.forall_mem_cons.2 ⟨Scope.get?_of_assign?_none hf, hfree⟩⟩

end Slots

namespace Machine

open Relation

/-! ## One instruction -/

section Effects

variable {i : Instruction} {pc pc' : Address} {S S' S₁ : Scopes} {above lower : List Scope} {x : String} {v : Value}
  {b : Binding}

/-- Giving a bound name a value. -/
theorem Effect.given (h : Effect (.assign x) pc (S₁.cons v) pc' S') (hb : S₁.get? x = some b) :
    S' = (S₁.assign? x v).getD S₁ := by
  have hbound {S₂ : Scopes} {w : Value} (hS : S₁.cons v = S₂.cons w) (hfree : S₂.get? x = none) : False := by
    obtain ⟨rfl, rfl⟩ := Scopes.cons_inj hS
    rw [hb] at hfree
    cases hfree
  cases h with
  | gives name w S₂ _ hi _ hS _ _ hS' =>
    cases hi
    obtain ⟨rfl, rfl⟩ := Scopes.cons_inj hS
    exact hS'
  | hands name w S₂ hi _ hS hfree => cases hi; exact (hbound hS hfree).elim
  | creates name w S₂ hi _ hS hfree => cases hi; exact (hbound hS hfree).elim
  | values _ _ _ hi => cases hi
  | binds _ hb => cases hb
  | enters hi => cases hi
  | leaves hi => cases hi

/-- Older scopes stay as they are as long as there is a newer one, unless one of them is where a name is given a
value. -/
theorem Effect.older (h : Effect i pc S pc' S') (hS : S.frames = above ++ lower) (habove : above ≠ []) :
    (∃ above', S'.frames = above' ++ lower) ∨
      ∃ (above' lower' : List Scope) (name : String) (v : Value) (S₁ : Scopes), i = .assign name ∧
        S = S₁.cons v ∧ S₁.frames = above' ++ lower ∧ S'.frames = above' ++ lower' ∧
        Scopes.assignFirst? name v lower = some lower' ∧ ∀ f ∈ above', f.get? name = none := by
  obtain ⟨top, rest, rfl⟩ := List.exists_cons_of_ne_nil habove
  obtain ⟨-, hbelow⟩ := List.cons.inj hS
  cases h with
  | values base taken given _ _ _ _ hS₁ hS' =>
    refine .inl ⟨S'.top :: rest, ?_⟩
    rw [hS₁, Scopes.below_pushAll] at hbelow
    rw [Scopes.frames, hS', Scopes.below_pushAll, hbelow]
    rfl
  | binds b _ _ hS' =>
    subst hS'
    exact .inl ⟨_ :: rest, congrArg (S.top.allocate b :: ·) hbelow⟩
  | gives name v S₁ b hi _ hS₁ hb _ hS' =>
    subst hS₁ hS'
    have hframes : S₁.frames = (S₁.top :: rest) ++ lower := congrArg (S₁.top :: ·) hbelow
    cases hassign : S₁.assign? name v with
    | none => exact .inl ⟨_, hframes⟩
    | some S₂ =>
      have hfirst := Scopes.assign?_frames hassign
      rw [hframes] at hfirst
      rcases assignFirst?_append hfirst with ⟨above', h'⟩ | ⟨lower', h', hlower, hfree⟩
      · exact .inl ⟨above', h'⟩
      · exact .inr ⟨_, lower', name, v, S₁, hi, rfl, hframes, h', hlower, hfree⟩
  | hands name v S₁ _ _ hS₁ _ hS' =>
    subst hS₁ hS'
    exact .inl ⟨_ :: rest, congrArg (S'.top :: ·) hbelow⟩
  | creates name v S₁ _ _ hS₁ _ hS' =>
    subst hS₁ hS'
    exact .inl ⟨_ :: rest, congrArg (_ :: ·) hbelow⟩
  | enters _ _ _ hS' =>
    subst hS'
    exact .inl ⟨.empty :: top :: rest, congrArg (Scope.empty :: ·) hS⟩
  | leaves _ _ hframes =>
    rw [hframes] at hbelow
    exact .inl ⟨rest, hbelow⟩

end Effects

/-! ## Runs -/

section Runs

variable {σ : Type} (host : Host (StateM σ)) (options : Options) (lines : Array Line) (x : String) (n : Nat)

/-- At a moment the slot of a name, inside of so many older scopes, is about to be given a value. -/
def Moment.Gives (v : Value) (m : Moment σ) : Prop :=
  ∃ (line : Line) (S : Scopes) (b : Binding), lines[m.pc]? = some line ∧ line.instruction = .assign x ∧
    m.scopes = S.cons v ∧ slot? x S.frames = some (n, b)

/-- From one moment to another, the last value that the slot of a name has been given is the given one, if there is
any. -/
inductive Fills (stay : Moment σ → Prop) (m : Moment σ) : Option Value → Moment σ → Prop
  | start : Fills stay m none m
  | keeps {last : Option Value} {m₁ m₂ : Moment σ} (h : Fills stay m last m₁)
      (hstep : StepWhile host options lines stay m₁ m₂) (hkeeps : ∀ v, ¬ m₁.Gives lines x n v) : Fills stay m last m₂
  | gives {last : Option Value} {v : Value} {m₁ m₂ : Moment σ} (h : Fills stay m last m₁)
      (hstep : StepWhile host options lines stay m₁ m₂) (hgives : m₁.Gives lines x n v) : Fills stay m (some v) m₂

end Runs

section Runs

variable {σ : Type} {host : Host (StateM σ)} {options : Options} {lines : Array Line} {L : Address → Option Layout}
  {m m' : Moment σ} {x : String} {n : Nat} {b : Binding} {above lower : List Scope} {v : Value}

theorem Step.effect_at (hL : Describes L lines) (h : Step host options lines m m') (hm : m.Laid L) {line : Line}
    (hline : lines[m.pc]? = some line) : Effect line.instruction m.pc m.scopes m'.pc m'.scopes := by
  obtain ⟨line', hline', hturn, _⟩ := h
  have hsame : some line' = some line := hline'.symm.trans hline
  cases hsame
  exact turn_effect hL hm hline hturn

/-- A step gives the slot of a name the value that it is about to be given. -/
theorem Moment.Gives.step (hL : Describes L lines) (hm : m.Laid L) (hstep : Step host options lines m m')
    (hS : m.scopes.frames = above ++ lower) (habove : above ≠ []) (hslot : slot? x lower = some (n, b))
    (h : m.Gives lines x n v) : ∃ above' lower', m'.scopes.frames = above' ++ lower' ∧
      lower'.length = lower.length ∧ slot? x lower' = some (refill v (n, b)) := by
  obtain ⟨line, S₁, b₁, hline, hi, hS₁, hslot₁⟩ := h
  have heffect := hstep.effect_at hL hm hline
  rw [hi, hS₁] at heffect
  have hgiven := heffect.given (by rw [Scopes.get?_eq_slot?, hslot₁]; rfl)
  obtain ⟨top, rest, rfl⟩ := List.exists_cons_of_ne_nil habove
  have hframes : S₁.frames = (S₁.top :: rest) ++ lower := by
    rw [hS₁] at hS
    exact congrArg (S₁.top :: ·) (List.cons.inj hS).2
  rw [hframes] at hslot₁
  -- the slot is in one of the older scopes, so that no newer one binds the name
  have hfree := slot?_append_free hslot₁ (slot?_lt hslot)
  obtain ⟨lower', hlower⟩ := exists_assignFirst? hslot v
  have hfirst := Scopes.frames_assign? x v S₁
  rw [hframes, assignFirst?_append_of_free hfree, hlower] at hfirst
  obtain ⟨S₂, hassign, hS₂⟩ := Option.map_eq_some_iff.1 hfirst
  rw [hassign, Option.getD_some] at hgiven
  refine ⟨_, lower', by rw [hgiven, hS₂], Scopes.assignFirst?_length hlower, ?_⟩
  rw [slot?_assignFirst?_self hlower, hslot]
  rfl

/-- A step leaves the slot of a name as it is if it is not about to be given a value. -/
theorem Step.keeps_slot (hL : Describes L lines) (hm : m.Laid L) (hstep : Step host options lines m m')
    (hS : m.scopes.frames = above ++ lower) (habove : above ≠ []) (hslot : slot? x lower = some (n, b))
    (h : ∀ v, ¬ m.Gives lines x n v) : ∃ above' lower', m'.scopes.frames = above' ++ lower' ∧
      lower'.length = lower.length ∧ slot? x lower' = some (n, b) := by
  have hstep' := hstep
  obtain ⟨line, hline, -⟩ := hstep'
  have heffect := hstep.effect_at hL hm hline
  rcases heffect.older hS habove with
    ⟨above', h'⟩ | ⟨above', lower', name, v, S₁, hi, hS₁, hframes, h', hlower, hfree⟩
  · exact ⟨above', lower, h', rfl, hslot⟩
  · refine ⟨above', lower', h', Scopes.assignFirst?_length hlower, ?_⟩
    have hname : name ≠ x := by
      rintro rfl
      exact h v ⟨line, S₁, b, hline, hi, hS₁, by rw [hframes, slot?_append_of_free hfree, hslot]⟩
    rw [slot?_assignFirst?_of_ne hlower hname, hslot]

/-- What each step keeps true of the older scopes while there are newer ones is true of them in the end. -/
theorem older_of_steps {P : Moment σ → List Scope → Prop} (hL : Describes L lines) (hm : m.Laid L)
    (hS : m.scopes.frames = above ++ lower) (h₀ : P m lower)
    (hstep : ∀ {m₁ m₂ : Moment σ} {above₁ lower₁ : List Scope}, m₁.Laid L → m₁.scopes.frames = above₁ ++ lower₁ →
      above₁ ≠ [] → StepWhile host options lines (fun y => lower.length < y.scopes.frames.length) m₁ m₂ →
      P m₁ lower₁ → ∃ above₂ lower₂, m₂.scopes.frames = above₂ ++ lower₂ ∧ lower₂.length = lower₁.length ∧
        P m₂ lower₂)
    (hpath : ReflTransGen (StepWhile host options lines fun y => lower.length < y.scopes.frames.length) m m') :
    ∃ above' lower', m'.scopes.frames = above' ++ lower' ∧ lower'.length = lower.length ∧ P m' lower' := by
  induction hpath with
  | refl => exact ⟨above, lower, hS, rfl, h₀⟩
  | @tail m₁ m₂ hbefore hwhile ih =>
    obtain ⟨above₁, lower₁, hS₁, hlength, h₁⟩ := ih
    have hm₁ : m₁.Laid L := laid_of_steps hL (ReflTransGen.mono (fun _ _ hstep => hstep.2) _ _ hbefore) hm
    have habove : above₁ ≠ [] := by
      rintro rfl
      have hdeep : lower.length < m₁.scopes.frames.length := hwhile.1
      rw [hS₁, List.nil_append, hlength] at hdeep
      exact Nat.lt_irrefl _ hdeep
    obtain ⟨above₂, lower₂, hS₂, hlength₂, h₂⟩ := hstep hm₁ hS₁ habove hwhile h₁
    exact ⟨above₂, lower₂, hS₂, hlength₂.trans hlength, h₂⟩

/-- While there are newer scopes, a slot holds the last value that it has been given, or else what it held before. -/
theorem exists_fills (hL : Describes L lines) (hm : m.Laid L) (hS : m.scopes.frames = above ++ lower)
    (hslot : slot? x lower = some (n, b))
    (hpath : ReflTransGen (StepWhile host options lines fun y => lower.length < y.scopes.frames.length) m m') :
    ∃ above' lower', m'.scopes.frames = above' ++ lower' ∧ lower'.length = lower.length ∧
      ∃ last, Fills host options lines x n (fun y => lower.length < y.scopes.frames.length) m last m' ∧
        slot? x lower' = some (refill (last.getD b.value) (n, b)) := by
  refine older_of_steps (P := fun y l => ∃ last,
    Fills host options lines x n (fun y => lower.length < y.scopes.frames.length) m last y ∧
      slot? x l = some (refill (last.getD b.value) (n, b))) hL hm hS ⟨none, .start, hslot⟩ ?_ hpath
  rintro m₁ m₂ above₁ lower₁ hm₁ hS₁ habove hwhile ⟨last, hfills, hslot₁⟩
  by_cases hgives : ∃ v, m₁.Gives lines x n v
  · obtain ⟨v, hgives⟩ := hgives
    obtain ⟨above₂, lower₂, hS₂, hlength, hslot₂⟩ := hgives.step hL hm₁ hwhile.2 hS₁ habove hslot₁
    exact ⟨above₂, lower₂, hS₂, hlength, some v, .gives hfills hwhile hgives, hslot₂⟩
  · have hkeeps := not_exists.1 hgives
    obtain ⟨above₂, lower₂, hS₂, hlength, hslot₂⟩ := hwhile.2.keeps_slot hL hm₁ hS₁ habove hslot₁ hkeeps
    exact ⟨above₂, lower₂, hS₂, hlength, last, .keeps hfills hwhile hkeeps, hslot₂⟩

/-- A name that no older scope binds stays without a slot there. -/
theorem free_of_steps (hL : Describes L lines) (hm : m.Laid L) (hS : m.scopes.frames = above ++ lower)
    (hslot : slot? x lower = none)
    (hpath : ReflTransGen (StepWhile host options lines fun y => lower.length < y.scopes.frames.length) m m') :
    ∃ above' lower', m'.scopes.frames = above' ++ lower' ∧ lower'.length = lower.length ∧ slot? x lower' = none := by
  refine older_of_steps (P := fun _ l => slot? x l = none) hL hm hS hslot ?_ hpath
  intro m₁ m₂ above₁ lower₁ hm₁ hS₁ habove hwhile hfree
  have hstep := hwhile.2
  obtain ⟨line, hline, -⟩ := hwhile.2
  rcases (hstep.effect_at hL hm₁ hline).older hS₁ habove with
    ⟨above₂, h₂⟩ | ⟨above₂, lower₂, name, v, _, _, _, _, h₂, hlower, _⟩
  · exact ⟨above₂, lower₁, h₂, rfl, hfree⟩
  · refine ⟨above₂, lower₂, h₂, Scopes.assignFirst?_length hlower, ?_⟩
    by_cases hname : name = x
    · subst hname
      rw [slot?_assignFirst?_self hlower, hfree]
      rfl
    · rw [slot?_assignFirst?_of_ne hlower hname, hfree]

end Runs

end Machine

end MacroBasic
