/-
Plain operands. Where the instructions of a program fit a table of layouts, bring addresses only to the places where
the table has them, and read no return address by its name, every value that a run works with is plain, as long as
the host gives plain values. So a name stands for an address only where a call has recorded where to return to, the
host is handed plain values, and no fault of a calculation is about a value that is not plain.
-/
import MacroBasic.Proofs.Machine.Turn
import MacroBasic.Proofs.Value.Plain

namespace MacroBasic

/-! ## Conversations with conditions -/

namespace Talk

variable {ε α : Type} {heard : Exchange → Prop} {said : Request → Prop} {good : α → Prop} {bad : ε → Prop}

/-- As long as all that is heard is as it should be, so is all that is said, and the conversation ends with a good
result or a good failure. -/
def Assures (heard : Exchange → Prop) (said : Request → Prop) (good : α → Prop) (bad : ε → Prop) (x : Talk ε α) :
    Prop :=
  ∀ t o, (∀ e ∈ t, heard e) → x.Yields t o →
    (∀ e ∈ t, said e.request) ∧ (∀ a, o = .ok a → good a) ∧ ∀ e, o = .error e → bad e

theorem assures_done {a : α} (h : good a) : (done a : Talk ε α).Assures heard said good bad := by
  intro t o _ ho
  cases ho
  refine ⟨by simp, ?_, by simp⟩
  rintro _ ⟨⟩
  exact h

theorem assures_fail {e : ε} (h : bad e) : (fail e : Talk ε α).Assures heard said good bad := by
  intro t o _ ho
  cases ho
  refine ⟨by simp, by simp, ?_⟩
  rintro _ ⟨⟩
  exact h

theorem assures_ask {r : Request} {next : r.Reply → Talk ε α} (hr : said r)
    (h : ∀ reply, heard ⟨r, reply⟩ → (next reply).Assures heard said good bad) :
    (ask r next).Assures heard said good bad := by
  intro t o ht ho
  obtain ⟨reply, t', rfl, hnext⟩ := yields_ask.1 ho
  rw [List.forall_mem_cons] at ht
  obtain ⟨hsaid, hend⟩ := h reply ht.1 t' o ht.2 hnext
  exact ⟨List.forall_mem_cons.2 ⟨hr, hsaid⟩, hend⟩

end Talk

/-- No value that a host gives for a name is anything but plain. -/
def Exchange.Plain (x : Exchange) : Prop := ∀ name v, x = ⟨.retrieve name, some v⟩ → v.Plain

/-- A value that is handed to a host is plain. -/
def Request.Plain : Request → Prop
  | .assign _ v => v.Plain
  | _ => True

/-- The values are plain that a host gives for names. -/
def Host.GivesPlain {σ : Type} (host : Host (StateM σ)) : Prop :=
  ∀ name st v, ((host.ask (.retrieve name) st).1.reply : Option Value) = some v → v.Plain

theorem Host.Speaks.plain {σ : Type} {host : Host (StateM σ)} {st st' : σ} {events : List Event}
    (h : host.Speaks st events st') (hhost : host.GivesPlain) : ∀ e ∈ events, e.exchange.Plain := by
  intro e he name v hx
  obtain ⟨st₁, hanswer⟩ := h.answered he
  obtain ⟨r, answer⟩ := e
  injection hx with hr hreply
  subst hr
  rw [hanswer] at hreply
  exact hhost name st₁ v (eq_of_heq hreply)

/-! ## Names -/

/-- A binding holds an address only if it is the constant that records where to return to. -/
def Binding.Apart (b : Binding) : Prop :=
  ∀ a, b.value = .address a → b.name = Machine.returnName ∧ b.kind = .constant

/-- All bindings of all scopes are such. -/
def Scopes.Apart (S : Scopes) : Prop := ∀ f ∈ S.frames, ∀ b ∈ f.names, b.Apart

section Apart

variable {S S' : Scopes} {name : String} {v : Value} {b : Binding}

theorem Binding.apart_of_plain (h : b.value.Plain ∨ b.value = .uninitialized) : b.Apart := by
  intro a ha
  rw [ha] at h
  rcases h with h | h <;> cases h

theorem Scopes.Apart.of_names (h : S.Apart) (htop : S'.top.names = S.top.names) (hbelow : S'.below = S.below) :
    S'.Apart := by
  intro f hf b hb
  unfold Scopes.frames at hf
  rw [hbelow] at hf
  rcases List.mem_cons.1 hf with rfl | hf
  · rw [htop] at hb
    exact h S.top (List.mem_cons_self ..) b hb
  · exact h f (List.mem_cons_of_mem _ hf) b hb

theorem Scopes.Apart.allocate (h : S.Apart) (hb : b.Apart) : (S.allocate b).Apart := by
  intro f hf b' hb'
  rcases List.mem_cons.1 hf with rfl | hf
  · rcases Scope.mem_put hb' with rfl | hb'
    · exact hb
    · exact h S.top (List.mem_cons_self ..) b' hb'
  · exact h f (List.mem_cons_of_mem _ hf) b' hb'

theorem Scopes.Apart.assign (h : S.Apart) (hv : v.Plain) : ((S.assign? name v).getD S).Apart := by
  cases hs : S.assign? name v with
  | none => exact h
  | some S' =>
    intro f hf b hb
    rcases Scopes.mem_assignFirst? (Scopes.assign?_frames hs) hf hb with ⟨f', hf', hold⟩ | hgiven
    · exact h f' hf' b hold
    · exact Binding.apart_of_plain (.inl (by rw [hgiven]; exact hv))

/-- What a name stands for that is not that of a return address is plain or missing. -/
theorem Scopes.Apart.plain (h : S.Apart) (hb : S.get? name = some b) (hname : name ≠ Machine.returnName)
    (hvalue : ¬ b.value.isUninitialized = true) : b.value.Plain := by
  obtain ⟨f, hf, hfind⟩ := List.exists_of_findSome?_eq_some hb
  have hapart := h f hf b (List.mem_of_find?_eq_some hfind)
  cases hv : b.value with
  | number | text | boolean => trivial
  | uninitialized => rw [hv] at hvalue; exact absurd rfl hvalue
  | address a =>
    have hreturn := (hapart a hv).1
    rw [Scopes.name_of_get? hb] at hreturn
    exact absurd hreturn hname

end Apart

/-! ## Instructions -/

section

open Machine

/-- An instruction at an address brings no address to a place where the table has a value. -/
def Instruction.Clean (L : Address → Option Layout) (a : Address) : Instruction → Prop
  | .pushValue v => v.Plain ∨ ∃ (s : Shape) (b : Address), L (a + 1) = some (.shaped (s.push (.exit b)))
  | .pushVariable name => name ≠ returnName
  | .copy depth => ∃ s : Shape, L a = some (.shaped s) ∧ s.cells[depth]? = some .value
  | .allocConst _ v => v.Plain
  | _ => True

end

/-- How many values of the innermost scope an instruction takes to work with, other than to drop one or to go to the
address that it is. -/
def Instruction.worksWith : Instruction → Nat
  | .assign _ | .unary _ | .print | .jumpTrue _ | .jumpFalse _ => 1
  | .binary _ => 2
  | .dialog d => d.defaults.length
  | _ => 0

namespace Machine

/-! ## Values at their places -/

/-- The value at a place is the address that the layout tells, or a plain one. -/
def Cell.Takes : Cell → Value → Prop
  | .value, v => v.Plain
  | .exit a, v => v = .address a

/-- The values of all scopes but the shared one, which is the last, are at their places. -/
inductive Stocked : List (List Cell) → List Scope → Prop
  | shared (f : Scope) : Stocked [] [f]
  | layer {cells : List Cell} {layers : List (List Cell)} {f : Scope} {frames : List Scope}
      (htop : List.Forall₂ Cell.Takes cells f.stack.items) (h : Stocked layers frames) :
    Stocked (cells :: layers) (f :: frames)

section Layers

variable (L : Address → Option Layout)

/-- The places in the scopes of the activations that are to be returned to. -/
def callers : List Address → List (List Cell)
  | [] => []
  | a :: calls =>
    match L a with
    | some (.returned s) => s.cells :: (s.waiting ++ callers calls)
    -- no call returns to another layout
    | _ => []

/-- The places in the scopes of all activations, the innermost scope first. -/
def Shape.layers (s : Shape) (calls : List Address) : List (List Cell) := s.cells :: (s.waiting ++ callers L calls)

/-- The values are at the places that a layout tells. -/
def Layout.Stocks : Layout → Scopes → List Address → Prop
  | .shaped s, S, calls => Stocked (s.layers L calls) S.frames
  | .returned s, S, calls => Stocked (s.layers L calls) S.below

/-- The values of a configuration are at the places that the table tells. -/
def Tidy (c : Config) (calls : List Address) : Prop := ∃ l, L c.pc = some l ∧ l.Stocks L c.scopes calls

end Layers

section Stocked

variable {L : Address → Option Layout} {s : Shape} {S : Scopes} {calls : List Address} {c : Cell} {v : Value}

theorem Cell.takes_of_admits (h : c.Admits v) (hv : v.Plain ∨ ∃ a, c = .exit a) : c.Takes v := by
  cases c with
  | exit a => exact h
  | value =>
    rcases hv with hv | ⟨a, ha⟩
    · exact hv
    · cases ha

theorem callers_cons {a : Address} (h : L a = some (.returned s)) : callers L (a :: calls) = s.layers L calls := by
  rw [callers, h]
  rfl

theorem Stocked.top {cells : List Cell} {layers : List (List Cell)} (h : Stocked (cells :: layers) S.frames) :
    List.Forall₂ Cell.Takes cells S.items := by
  unfold Scopes.frames at h
  cases h with
  | layer htop _ => exact htop

theorem Stocked.rest {cells : List Cell} {layers : List (List Cell)} (h : Stocked (cells :: layers) S.frames) :
    Stocked layers S.below := by
  unfold Scopes.frames at h
  cases h with
  | layer _ h => exact h

theorem Stocked.cons (h : Stocked (s.layers L calls) S.frames) (hc : c.Takes v) :
    Stocked ((s.push c).layers L calls) (S.cons v).frames :=
  .layer (.cons hc h.top) h.rest

theorem Stocked.uncons (h : Stocked ((s.push c).layers L calls) S.frames) :
    ∃ (v : Value) (S' : Scopes), S = S'.cons v ∧ c.Takes v ∧ Stocked (s.layers L calls) S'.frames := by
  have htop : List.Forall₂ Cell.Takes (s.push c).cells S.items := h.top
  cases hs : S.items with
  | nil => rw [hs] at htop; cases htop
  | cons v rest =>
    obtain ⟨S', rfl, rfl⟩ := S.exists_cons hs
    have hrest : Stocked (s.waiting ++ callers L calls) (S'.cons v).below := Stocked.rest h
    cases htop with
    | cons hc hitems => exact ⟨v, S', rfl, hc, .layer hitems hrest⟩

theorem Stocked.allocate (h : Stocked (s.layers L calls) S.frames) (b : Binding) :
    Stocked (s.layers L calls) (S.allocate b).frames := .layer h.top h.rest

theorem Stocked.similar {layers : List (List Cell)} {frames frames' : List Scope} (h : Stocked layers frames)
    (hs : List.Forall₂ Scope.Similar frames frames') : Stocked layers frames' := by
  induction h generalizing frames' with
  | shared f =>
    cases hs with
    | cons _ hs =>
      cases hs
      exact .shared _
  | layer htop _ ih =>
    cases hs with
    | cons hf hs => exact .layer (by rw [hf.1]; exact htop) (ih hs)

end Stocked

/-! ## Faults -/

theorem message_orPlace (f : Fault) (p : Position) : (f.orPlace p).message = f.message := by
  unfold Fault.orPlace
  split <;> rfl

/-- A fault of a calculation is not about a value that is not plain. -/
def Blameless (e : Fault × Scopes) : Prop :=
  e.1.code = .math → ∃ before m, e.1.message = before ++ m ∧ Value.Told m

theorem blameless_of_ne {f : Fault} {S : Scopes} (h : f.code ≠ .math) : Blameless (f, S) :=
  fun hf => absurd hf h

theorem blameless_calculation {α : Type} {good : α → Prop} {x : Except Fault α} {f : Fault} (hx : Value.Serves good x)
    (h : x = .error f) (role : String) (i : Instruction) (S : Scopes) : Blameless (calculationFault role i f, S) := by
  rw [h] at hx
  obtain ⟨m, rfl, hm⟩ := hx
  intro _
  exact ⟨_, m, rfl, hm⟩

/-! ## One instruction -/

section Step

variable {L : Address → Option Layout} {ui : Bool} {pc : Address} {s : Shape} {S : Scopes} {calls : List Address}
  {i : Instruction}

/-- Where all that is heard is plain, an instruction hands over plain values and leaves every value at its place. -/
abbrev AssuresPlain (L : Address → Option Layout) (calls : List Address) (x : Talk (Fault × Scopes) Config) : Prop :=
  x.Assures Exchange.Plain Request.Plain (Tidy L · calls) Blameless

theorem Tidy.shaped {c : Config} (hl : L c.pc = some (.shaped s)) (hS : Stocked (s.layers L calls) c.scopes.frames) :
    Tidy L c calls := ⟨_, hl, hS⟩

theorem assures_pushing {v : Value} {a : Address} {c : Cell} (hS : Stocked (s.layers L calls) S.frames)
    (hl : L a = some (.shaped (s.push c))) (hc : c.Takes v) : AssuresPlain L calls (pushing v a S) := by
  unfold pushing
  by_cases hfull : S.Full
  · rw [if_pos hfull]
    exact Talk.assures_fail (blameless_of_ne (by simp [Scopes.overflow, Fault.because]))
  · rw [if_neg hfull]
    exact Talk.assures_done (.shaped hl (hS.cons hc))

theorem dialog_plain {d : Dialog} (h : s.Fits L pc (.dialog d)) (hS : Stocked (s.layers L calls) S.frames) :
    AssuresPlain L calls (advance ui (.dialog d) ⟨pc, S⟩) := by
  obtain ⟨s', rfl, hl⟩ := h
  cases d with
  | message =>
    obtain ⟨text, S₁, rfl, _, hS₁⟩ := hS.uncons
    obtain ⟨kind, S', rfl, hkind, hS'⟩ := hS₁.uncons
    rw [advance_message]
    cases hk : kind.toInteger with
    | ok n => exact Talk.assures_ask trivial fun _ _ => Talk.assures_done (.shaped hl hS')
    | error f => exact Talk.assures_fail (blameless_calculation (Value.toInteger_serves hkind) hk _ _ _)
  | msgBox =>
    obtain ⟨title, S₁, rfl, _, hS₁⟩ := hS.uncons
    obtain ⟨buttons, S₂, rfl, hbuttons, hS₂⟩ := hS₁.uncons
    obtain ⟨prompt, S', rfl, _, hS'⟩ := hS₂.uncons
    cases ui with
    | false =>
      rw [advance_dialog_refused _ _ (d := .msgBox) (by simp)]
      exact Talk.assures_fail (blameless_of_ne (by decide))
    | true =>
      rw [advance_msgBox]
      cases hb : buttons.toInteger with
      | ok n => exact Talk.assures_ask trivial fun _ _ => assures_pushing hS' hl trivial
      | error f => exact Talk.assures_fail (blameless_calculation (Value.toInteger_serves hbuttons) hb _ _ _)
  | inputBox =>
    obtain ⟨initial, S₁, rfl, _, hS₁⟩ := hS.uncons
    obtain ⟨title, S₂, rfl, _, hS₂⟩ := hS₁.uncons
    obtain ⟨prompt, S', rfl, _, hS'⟩ := hS₂.uncons
    cases ui with
    | false =>
      rw [advance_dialog_refused _ _ (d := .inputBox) (by simp)]
      exact Talk.assures_fail (blameless_of_ne (by decide))
    | true =>
      rw [advance_inputBox]
      exact Talk.assures_ask trivial fun _ _ => assures_pushing hS' hl trivial

theorem pushVariable_plain {name : String} (hl : L (pc + 1) = some (.shaped (s.push .value)))
    (hname : name ≠ returnName) (hS : Stocked (s.layers L calls) S.frames) (hnames : S.Apart) :
    AssuresPlain L calls (advance ui (.pushVariable name) ⟨pc, S⟩) := by
  cases hb : S.get? name with
  | some b =>
    rw [advance_pushVariable_bound _ _ _ hb]
    by_cases hu : b.value.isUninitialized = true
    · rw [if_pos hu]
      exact Talk.assures_fail (blameless_of_ne (by simp [Fault.because]))
    · rw [if_neg hu]
      exact assures_pushing hS hl (hnames.plain hb hname hu)
  | none =>
    rw [advance_pushVariable_unbound _ _ _ hb]
    refine Talk.assures_ask trivial fun reply hreply => ?_
    cases reply with
    | some v => exact assures_pushing hS hl (hreply name v rfl)
    | none => exact Talk.assures_fail (blameless_of_ne (by simp [Fault.because]))

theorem assign_plain {name : String} {v : Value} (hl : L (pc + 1) = some (.shaped s)) (hv : v.Plain)
    (hS : Stocked (s.layers L calls) S.frames) :
    AssuresPlain L calls (advance ui (.assign name) ⟨pc, S.cons v⟩) := by
  cases hb : S.get? name with
  | some b =>
    rw [advance_assign_bound _ _ _ _ hb]
    by_cases hk : b.kind = .constant
    · rw [if_pos hk]
      exact Talk.assures_fail (blameless_of_ne (by simp [Fault.because]))
    · rw [if_neg hk]
      refine Talk.assures_done (.shaped hl (hS.similar ?_))
      rw [Scopes.name_of_get? hb]
      exact Scopes.similar_assign? hb hk
  | none =>
    rw [advance_assign_unbound _ _ _ _ hb]
    refine Talk.assures_ask hv fun taken _ => Talk.assures_done (.shaped hl ?_)
    cases (taken : Bool) with
    | true => exact hS
    | false => exact hS.allocate _

/-- An instruction that fits a shape and brings no address to the place of a value works with plain values only. -/
theorem Shape.Fits.plain (h : s.Fits L pc i) (hclean : i.Clean L pc) (hl : L pc = some (.shaped s))
    (hstands : s.Stands L S calls) (hS : Stocked (s.layers L calls) S.frames) (hnames : S.Apart) :
    AssuresPlain L (track pc calls i) (Machine.advance ui i ⟨pc, S⟩) := by
  cases i with
  | allocConst name v =>
    rw [advance_allocConst]
    exact Talk.assures_done (.shaped h.2 (hS.allocate _))
  | allocVar name =>
    rw [advance_allocVar]
    exact Talk.assures_done (.shaped h.2 (hS.allocate _))
  | pushValue v =>
    obtain ⟨c, hc, hnext⟩ := h
    rw [advance_pushValue]
    refine assures_pushing hS hnext (c.takes_of_admits hc ?_)
    -- an address is pushed only to a place that the table has for the address behind a loop
    rcases hclean with hv | ⟨s', b, hb⟩
    · exact .inl hv
    · have hcells := congrArg Shape.cells (Layout.shaped.inj (Option.some.inj (hnext.symm.trans hb)))
      exact .inr ⟨b, (List.cons.inj hcells).1⟩
  | pushVariable name => exact pushVariable_plain h hclean hS hnames
  | pop =>
    obtain ⟨c, s', rfl, hnext⟩ := h
    obtain ⟨v, S', rfl, _, hS'⟩ := hS.uncons
    rw [advance_pop]
    exact Talk.assures_done (.shaped hnext hS')
  | copy depth =>
    obtain ⟨s', hs', hcell⟩ := hclean
    -- the copy comes from the place of a value, so it is none of the addresses between
    obtain rfl : s = s' := Layout.shaped.inj (Option.some.inj (hl.symm.trans hs'))
    have hdepth : depth < S.items.length := by rw [← (Stocked.top hS).length_eq]; exact h.1
    have htakes := (Stocked.top hS).get h.1 hdepth
    rw [List.get_eq_getElem, (List.getElem_eq_iff h.1).2 hcell] at htakes
    rw [advance_copy _ _ (List.getElem?_eq_getElem hdepth)]
    exact assures_pushing hS h.2 htakes
  | assign name =>
    obtain ⟨hname, s', rfl, hnext⟩ := h
    obtain ⟨v, S', rfl, hv, hS'⟩ := hS.uncons
    exact assign_plain hnext hv hS'
  | binary op =>
    obtain ⟨s', rfl, hnext⟩ := h
    obtain ⟨r, S₁, rfl, hr, hS₁⟩ := hS.uncons
    obtain ⟨l, S', rfl, hl, hS'⟩ := hS₁.uncons
    have hserves := op.apply_serves hl hr
    rw [advance_binary]
    cases hop : op.apply l r with
    | ok v =>
      rw [hop] at hserves
      exact assures_pushing hS' hnext hserves
    | error f => exact Talk.assures_fail (blameless_calculation hserves hop _ _ _)
  | unary op =>
    obtain ⟨s', rfl, hnext⟩ := h
    obtain ⟨v, S', rfl, hv, hS'⟩ := hS.uncons
    have hserves := op.apply_serves hv
    rw [advance_unary]
    cases hop : op.apply v with
    | ok v' =>
      rw [hop] at hserves
      exact assures_pushing hS' hnext hserves
    | error f => exact Talk.assures_fail (blameless_calculation hserves hop _ _ _)
  | print =>
    obtain ⟨s', rfl, hnext⟩ := h
    obtain ⟨v, S', rfl, _, hS'⟩ := hS.uncons
    rw [advance_print]
    exact Talk.assures_ask trivial fun _ _ => Talk.assures_done (.shaped hnext hS')
  | notify n =>
    rw [advance_notify]
    exact Talk.assures_ask trivial fun _ _ => Talk.assures_done (.shaped h hS)
  | dialog d => exact dialog_plain h hS
  | jump b =>
    rw [advance_jump]
    exact Talk.assures_done (.shaped h hS)
  | jumpTrue b =>
    obtain ⟨s', rfl, hnext, hb⟩ := h
    obtain ⟨v, S', rfl, hv, hS'⟩ := hS.uncons
    rw [advance_jumpTrue]
    cases hc : v.toBoolean with
    | error f => exact Talk.assures_fail (blameless_calculation (Value.toBoolean_serves hv) hc _ _ _)
    | ok taken =>
      refine Talk.assures_done (.shaped ?_ hS')
      cases taken with
      | true => exact hb
      | false => exact hnext
  | jumpFalse b =>
    obtain ⟨s', rfl, hnext, hb⟩ := h
    obtain ⟨v, S', rfl, hv, hS'⟩ := hS.uncons
    rw [advance_jumpFalse]
    cases hc : v.toBoolean with
    | error f => exact Talk.assures_fail (blameless_calculation (Value.toBoolean_serves hv) hc _ _ _)
    | ok taken =>
      refine Talk.assures_done (.shaped ?_ hS')
      cases taken with
      | true => exact hnext
      | false => exact hb
  | jumpPop =>
    obtain ⟨b, s', rfl, hnext⟩ := h
    obtain ⟨v, S', rfl, hv, hS'⟩ := hS.uncons
    cases hv
    rw [advance_jumpPop]
    exact Talk.assures_done (.shaped hnext hS')
  | pushScope =>
    rw [advance_pushScope]
    by_cases hlimit : Scopes.limit ≤ S.depth
    · rw [if_pos hlimit]
      exact Talk.assures_fail (blameless_of_ne (by simp [Fault.because]))
    · rw [if_neg hlimit]
      exact Talk.assures_done (.shaped h (.layer .nil hS))
  | popScope => exact h.elim
  | call b =>
    obtain ⟨s', rfl, hb, hnext⟩ := h
    rw [advance_call]
    refine Talk.assures_done (.shaped hb ?_)
    -- the scopes that waited in the caller now wait below the routine
    show Stocked ([] :: ([] ++ callers L ((pc + 1) :: calls))) (S.allocate _).frames
    rw [List.nil_append, callers_cons hnext]
    have hwaiting : Stocked (s'.layers L calls) S.below := Stocked.rest hS
    have hitems : List.Forall₂ Cell.Takes [] S.items := Stocked.top hS
    exact .layer hitems hwaiting
  | ret =>
    obtain ⟨a, s', calls', hback, rfl, hreturned, _⟩ := hstands.returns h
    rw [advance_ret _ _ _ (get?_of_returnOf hback)]
    refine Talk.assures_done ⟨_, hreturned, ?_⟩
    -- a routine has no scopes of its own that wait, so those of its caller come next
    have hbelow := Stocked.rest hS
    rw [h.2, List.nil_append, callers_cons hreturned] at hbelow
    exact hbelow

theorem Layout.Fits.plain {l : Layout} (h : l.Fits L pc i) (hclean : i.Clean L pc) (hl : L pc = some l)
    (hstands : l.Stands L S calls) (hS : l.Stocks L S calls) (hnames : S.Apart) :
    AssuresPlain L (track pc calls i) (Machine.advance ui i ⟨pc, S⟩) := by
  cases l with
  | shaped s => exact Shape.Fits.plain h hclean hl hstands hS hnames
  | returned s =>
    obtain ⟨rfl, hnext⟩ := h
    obtain ⟨top, below, depth, hdepth⟩ := S
    obtain ⟨next, rest, rfl, _⟩ := Around.next hstands
    rw [advance_popScope]
    exact Talk.assures_done (.shaped hnext hS)

theorem Stocked.plain_values {n : Nat} (h : Stocked ((s.values n).layers L calls) S.frames) :
    ∀ v ∈ S.items.take n, v.Plain := by
  induction n generalizing S with
  | zero => simp
  | succ n ih =>
    obtain ⟨v, S', rfl, hv, hS'⟩ := Stocked.uncons h
    rw [Scopes.items_cons, List.take_succ_cons, List.forall_mem_cons]
    exact ⟨hv, ih hS'⟩

/-- The values that an instruction works with are plain. -/
theorem Shape.Fits.works_plain (h : s.Fits L pc i) (hS : Stocked (s.layers L calls) S.frames) :
    ∀ v ∈ S.items.take i.worksWith, v.Plain := by
  cases i with
  | assign name =>
    obtain ⟨_, s', rfl, _⟩ := h
    exact Stocked.plain_values (n := 1) hS
  | unary | print | jumpTrue | jumpFalse =>
    obtain ⟨s', rfl, _⟩ := h
    exact Stocked.plain_values (n := 1) hS
  | binary op | dialog d =>
    obtain ⟨s', rfl, _⟩ := h
    exact Stocked.plain_values hS
  | allocConst | allocVar | pushValue | pushVariable | pop | copy | notify | jump | jumpPop | pushScope | popScope |
    call | ret => simp [Instruction.worksWith]

/-- Whatever an instruction does, addresses stay apart from the names that it gives plain values. -/
theorem Effect.apart {pc' : Address} {S' : Scopes} (h : Effect i pc S pc' S') (hclean : i.Clean L pc)
    (hoperands : ∀ v ∈ S.items.take i.worksWith, v.Plain) (hnames : S.Apart) : S'.Apart := by
  -- the value that an assignment takes
  have htop {name : String} {v : Value} {S₁ : Scopes} (hi : i = .assign name) (hS : S = S₁.cons v) : v.Plain := by
    subst hi hS
    exact hoperands v (List.mem_cons_self ..)
  have htaken {v : Value} {S₁ : Scopes} (hS : S = S₁.cons v) : S₁.Apart := by
    subst hS
    exact hnames.of_names rfl rfl
  cases h with
  | values base taken given _ _ _ _ hS hS' =>
    refine hnames.of_names ?_ ?_
    · rw [hS, hS', Scopes.names_pushAll, Scopes.names_pushAll]
    · rw [hS, hS', Scopes.below_pushAll, Scopes.below_pushAll]
  | binds b hb _ hS' =>
    rw [hS']
    refine hnames.allocate ?_
    cases i with
    | allocConst name v => cases hb; exact Binding.apart_of_plain (.inl hclean)
    | allocVar name => cases hb; exact Binding.apart_of_plain (.inr rfl)
    | call b => cases hb; exact fun _ _ => ⟨rfl, rfl⟩
    | _ => cases hb
  | gives name v S₁ b hi _ hS _ _ hS' =>
    rw [hS']
    exact (htaken hS).assign (htop hi hS)
  | hands name v S₁ _ _ hS _ hS' =>
    rw [hS']
    exact htaken hS
  | creates name v S₁ hi _ hS _ hS' =>
    rw [hS']
    exact (htaken hS).allocate (Binding.apart_of_plain (.inl (htop hi hS)))
  | enters _ _ _ hS' =>
    rw [hS']
    intro f hf b hb
    rcases List.mem_cons.1 hf with rfl | hf
    · cases hb
    · exact hnames f hf b hb
  | leaves _ _ hframes =>
    intro f hf b hb
    refine hnames f (List.mem_cons_of_mem _ ?_) b hb
    rw [hframes]
    exact hf

end Step

/-! ## Turns -/

section Turns

variable {options : Options} {line : Line} {M : Machine} {events : List Event} {o : Outcome}
  {heard : Exchange → Prop} {said : Request → Prop} {good : Config → Prop} {bad : Fault × Scopes → Prop}

/-- What an instruction assures, a turn does: all that it says besides is a request for more time, and its faults are
those of the instruction unless the run is cancelled or its time is over. -/
theorem Turned.assured (h : Turned options line M events o)
    (hx : (advance options.ui line.instruction M.config).Assures heard said good bad)
    (hheard : ∀ e ∈ events, heard e.exchange) (htime : said .timeout) :
    (∀ e ∈ events, said e.request) ∧ (∀ M', o = .ok () M' → good M'.config) ∧
      ∀ f M', o = .error f M' → f.code = .cancelled ∨ f.code = .timedOut ∨
        ∃ f', f = f'.orPlace line.position ∧ bad (f', M'.scopes) := by
  have hasked {asked : List Event} {o' : Outcome} (h' : Executed options.ui line.instruction M asked o')
      (hin : asked ⊆ events) : (∀ e ∈ asked, said e.request) ∧ (∀ M', o' = .ok () M' → good M'.config) ∧
        ∀ f M', o' = .error f M' → bad (f, M'.scopes) := by
    have hexchanges : ∀ x ∈ asked.map Event.exchange, heard x := by
      intro x hx
      obtain ⟨e, he, rfl⟩ := List.mem_map.1 hx
      exact hheard e (hin he)
    have haccounts := h'.accounts
    cases o' with
    | ok _ M' =>
      obtain ⟨hsaid, hgood, _⟩ := hx _ _ hexchanges haccounts
      refine ⟨fun e he => hsaid _ (List.mem_map_of_mem he), ?_, by simp⟩
      rintro _ ⟨⟩
      exact hgood _ rfl
    | error f M' =>
      obtain ⟨hsaid, _, hbad⟩ := hx _ _ hexchanges haccounts
      refine ⟨fun e he => hsaid _ (List.mem_map_of_mem he), by simp, ?_⟩
      rintro _ _ ⟨⟩
      exact hbad _ rfl
  -- the request for more time comes last
  have hlast {asked : List Event} {answer : Answer .timeout} (hsaid : ∀ e ∈ asked, said e.request) :
      ∀ e ∈ asked ++ [⟨.timeout, answer⟩], said e.request := by
    intro e he
    rcases List.mem_append.1 he with he | he
    · exact hsaid e he
    · rw [List.mem_singleton.1 he]
      exact htime
  cases h with
  | faults h =>
    obtain ⟨hsaid, _, hbad⟩ := hasked h (List.Subset.refl _)
    refine ⟨hsaid, by simp, ?_⟩
    rintro _ _ ⟨⟩
    exact .inr (.inr ⟨_, rfl, hbad _ _ rfl⟩)
  | stops h _ =>
    obtain ⟨hsaid, _, _⟩ := hasked h (List.Subset.refl _)
    refine ⟨hsaid, by simp, ?_⟩
    rintro _ _ ⟨⟩
    exact .inl rfl
  | onward h _ =>
    obtain ⟨hsaid, hgood, _⟩ := hasked h (List.Subset.refl _)
    exact ⟨hsaid, hgood, by simp⟩
  | late h _ _ =>
    obtain ⟨hsaid, _, _⟩ := hasked h (List.subset_append_left _ _)
    refine ⟨hlast hsaid, by simp, ?_⟩
    rintro _ _ ⟨⟩
    exact .inr (.inl rfl)
  | @granted asked M' answer now h _ _ =>
    obtain ⟨hsaid, hgood, _⟩ := hasked h (List.subset_append_left _ _)
    refine ⟨hlast hsaid, ?_, by simp⟩
    rintro _ ⟨⟩
    exact hgood M' rfl

end Turns

/-! ## Runs -/

/-- No instruction of a program brings an address to the place of a value. -/
def AllClean (L : Address → Option Layout) (lines : Array Line) : Prop :=
  ∀ a (line : Line), lines[a]? = some line → line.instruction.Clean L a

/-- A configuration is as the table tells, with plain values at the places of values and in all names but those of
return addresses. -/
structure Orderly (L : Address → Option Layout) (c : Config) (calls : List Address) : Prop where
  laid : Laid L c calls
  tidy : Tidy L c calls
  apart : c.scopes.Apart

section Runs

variable {σ : Type} {host : Host (StateM σ)} {options : Options} {lines : Array Line} {M₀ M M' : Machine}
  {st₀ st st' : σ} {calls : List Address} {L : Address → Option Layout} {line : Line} {events : List Event}
  {o : Outcome} {fuel : Nat}

theorem worksWith_le (i : Instruction) : i.worksWith ≤ i.operands := by
  cases i <;> simp [Instruction.worksWith, Instruction.operands]

/-- The next instruction finds the values that it works with, and they are plain. -/
theorem Orderly.works {c : Config} (hL : Describes L lines) (h : Orderly L c calls) (hline : lines[c.pc]? = some line) :
    line.instruction.worksWith ≤ c.scopes.items.length ∧
      ∀ v ∈ c.scopes.items.take line.instruction.worksWith, v.Plain := by
  refine ⟨Nat.le_trans (worksWith_le _) ((h.laid.safe hL).operands line hline), ?_⟩
  obtain ⟨l, hl, hstocks⟩ := h.tidy
  obtain ⟨l', hl', hfits⟩ := hL.fits c.pc line hline
  rw [hl] at hl'
  cases hl'
  cases l with
  | shaped s => exact Shape.Fits.works_plain hfits hstocks
  | returned s =>
    rw [hfits.1]
    simp [Instruction.worksWith]

theorem Orderly.advance {ui : Bool} {c : Config} (hL : Describes L lines) (hclean : AllClean L lines)
    (h : Orderly L c calls) (hline : lines[c.pc]? = some line) :
    AssuresPlain L (track c.pc calls line.instruction) (Machine.advance ui line.instruction c) := by
  obtain ⟨l, hl, hstands⟩ := h.laid
  obtain ⟨l', hl', hstocks⟩ := h.tidy
  obtain ⟨l'', hl'', hfits⟩ := hL.fits c.pc line hline
  rw [hl] at hl' hl''
  cases hl'
  cases hl''
  exact hfits.plain (hclean c.pc line hline) hl hstands hstocks h.apart

/-- A turn in which the host gives plain values hands it plain ones, and leads to where all is in order again. -/
theorem Orderly.turned (hL : Describes L lines) (hclean : AllClean L lines) (h : Orderly L M.config calls)
    (hline : lines[M.pc]? = some line) (hheard : ∀ e ∈ events, e.exchange.Plain)
    (hturned : Turned options line M events o) :
    (∀ e ∈ events, e.request.Plain) ∧
    (∀ M', o = .ok () M' → Orderly L M'.config (track M.pc calls line.instruction)) ∧
    ∀ f M', o = .error f M' → f.code = .math → ∃ before m, f.message = before ++ m ∧ Value.Told m := by
  obtain ⟨hsaid, htidy, hfault⟩ := hturned.assured (h.advance hL hclean hline) hheard trivial
  refine ⟨hsaid, ?_, ?_⟩
  · rintro M' rfl
    obtain ⟨asked, _, hyields | ⟨f, hf, _⟩⟩ := hturned.advanced
    · have heffect := advance_effect ((h.laid.safe hL).operands line hline) hyields
      exact ⟨h.laid.advance hL hline _ _ hyields, htidy M' rfl,
        heffect.apart (hclean M.pc line hline) (h.works hL hline).2 h.apart⟩
    · cases hf
  · rintro f M' rfl hmath
    rcases hfault f M' rfl with hcode | hcode | ⟨f', rfl, hblameless⟩
    · rw [hmath] at hcode; cases hcode
    · rw [hmath] at hcode; cases hcode
    · rw [Fault.code_orPlace] at hmath
      rw [message_orPlace]
      exact hblameless hmath

/-- Every state that a run reaches is in order. -/
theorem Reaches.orderly (hL : Describes L lines) (hclean : AllClean L lines) (hhost : host.GivesPlain)
    (h₀ : Orderly L M₀.config []) (h : Reaches host options lines M₀ st₀ M st calls) : Orderly L M.config calls := by
  induction h with
  | start => exact h₀
  | turn _ hline hturn ih =>
    obtain ⟨events, hspeaks, hturned⟩ := turn_turned hturn
    exact (ih.turned hL hclean hline (hspeaks.plain hhost) hturned).2.1 _ rfl

/-- The faults of calculations that end a run are about plain values. -/
theorem run_blameless (hL : Describes L lines) (hclean : AllClean L lines) (hhost : host.GivesPlain)
    (h₀ : Orderly L M₀.config []) {f : Fault} (hrun : run host options lines fuel M₀ st₀ = (some (.error f M'), st'))
    (hmath : f.code = .math) : ∃ before m, f.message = before ++ m ∧ Value.Told m := by
  obtain ⟨M, st, calls, hreaches, ⟨ho, _⟩ | ⟨line, f, M', ho, hline, hturn⟩⟩ := exists_reaches_of_run .start hrun
  · cases ho
  · cases ho
    obtain ⟨events, hspeaks, hturned⟩ := turn_turned hturn
    have horderly := hreaches.orderly hL hclean hhost h₀
    exact (horderly.turned hL hclean hline (hspeaks.plain hhost) hturned).2.2 _ _ rfl hmath

/-- All values are plain that a run hands to its host. -/
theorem run_hands_plain {ended : Option Outcome} (hL : Describes L lines) (hclean : AllClean L lines)
    (hhost : host.GivesPlain) (h : Orderly L M.config calls) (hrun : run host options lines fuel M st = (ended, st')) :
    ∃ events, host.Speaks st events st' ∧ ∀ e ∈ events, e.request.Plain := by
  -- a state in order is all that a turn needs, so the induction is on the turns that are left
  induction fuel generalizing M st calls with
  | zero =>
    cases hrun
    exact ⟨[], .silent _, by simp⟩
  | succ fuel ih =>
    unfold run at hrun
    cases hline : lines[M.pc]? with
    | none =>
      rw [hline] at hrun
      cases hrun
      exact ⟨[], .silent _, by simp⟩
    | some line =>
      rw [hline] at hrun
      simp only at hrun
      rw [stateM_bind] at hrun
      generalize hturn : turn host options line M st = x at hrun
      obtain ⟨o, st₁⟩ := x
      obtain ⟨events, hspeaks, hturned⟩ := turn_turned hturn
      obtain ⟨hsaid, hnext, _⟩ := h.turned hL hclean hline (hspeaks.plain hhost) hturned
      cases o with
      | error f M' =>
        cases hrun
        exact ⟨events, hspeaks, hsaid⟩
      | ok _ M' =>
        obtain ⟨events', hspeaks', hsaid'⟩ := ih (hnext M' rfl) hrun
        exact ⟨events ++ events', hspeaks.append hspeaks', List.forall_mem_append.2 ⟨hsaid, hsaid'⟩⟩

end Runs

end Machine

end MacroBasic
