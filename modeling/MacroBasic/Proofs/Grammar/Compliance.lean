/-
The parser keeps the rules. Whatever names its symbols spell may have values and whatever routines are
visible may be called: then the tree it gives obeys. A routine becomes visible when it is defined, so the
routines that a script defines have to be among those that may be called.
-/
import MacroBasic.Proofs.Grammar.Forms
import MacroBasic.Proofs.Grammar.Rules
import MacroBasic.Proofs.Grammar.Soundness

namespace MacroBasic

namespace Rules

variable (R : Rules)

/-- The names among some symbols may have values. -/
def Spells (s : List Symbol) : Prop := ∀ sym ∈ s, sym.token = .name → R.name sym.text

/-- The routines that some scopes hold may be called. -/
def Offers (names : Scopes) : Prop :=
  ∀ frame ∈ names.frames, ∀ b ∈ frame.names, ∀ entry, b.address = some entry →
    R.routine ⟨b.name, entry, b.parameters⟩

end Rules

section Names

variable {R : Rules} {names : Scopes}

theorem Rules.Spells.suffix {s r : List Symbol} (h : R.Spells s) (hr : r <:+ s) : R.Spells r :=
  fun sym hsym => h sym (hr.subset hsym)

theorem Scopes.mem_of_get? {n : String} {b : Binding} (h : names.get? n = some b) :
    b.name = n ∧ ∃ frame ∈ names.frames, b ∈ frame.names := by
  unfold Scopes.get? at h
  obtain ⟨frame, hframe, hb⟩ := List.exists_of_findSome?_eq_some h
  unfold Scope.get? at hb
  have hname := List.find?_some hb
  exact ⟨by simpa using hname, frame, hframe, List.mem_of_find?_eq_some hb⟩

theorem Rules.Offers.routine {n : String} {b : Binding} {entry : Address} (h : R.Offers names)
    (hb : names.get? n = some b) (ha : b.address = some entry) : R.routine ⟨n, entry, b.parameters⟩ := by
  obtain ⟨hname, frame, hframe, hmem⟩ := Scopes.mem_of_get? hb
  have := h frame hframe b hmem entry ha
  rwa [hname] at this

theorem Rules.Offers.allocate {b : Binding} (h : R.Offers names)
    (hb : ∀ entry, b.address = some entry → R.routine ⟨b.name, entry, b.parameters⟩) :
    R.Offers (names.allocate b) := by
  intro frame hframe x hx entry ha
  rcases List.mem_cons.1 hframe with rfl | hbelow
  · rcases Scope.mem_put hx with rfl | hx
    · exact hb entry ha
    · exact h names.top (List.mem_cons_self ..) x hx entry ha
  · exact h frame (List.mem_cons_of_mem _ hbelow) x hx entry ha

/-- Declaring what is no routine offers nothing new. -/
theorem Rules.Offers.declare {b : Binding} (h : R.Offers names) (hb : b.address = none) :
    R.Offers (names.allocate b) :=
  h.allocate fun _ ha => by rw [hb] at ha; cases ha

/-- A chain whose scopes bind no routine offers none. -/
theorem Rules.offers_onBottom {bottom : Scope} (h : ∀ b ∈ bottom.names, b.address = none) :
    R.Offers (.onBottom bottom) := by
  intro frame hframe b hb entry ha
  rcases List.mem_cons.1 hframe with rfl | hframe
  · cases hb
  · rw [List.mem_singleton.1 hframe] at hb
    rw [h b hb] at ha
    cases ha

end Names

namespace Grammar

/-! ## Expressions -/

section Phrases

variable {R : Rules} {env : Context} (hR : R.Offers env.names)

include hR

theorem Context.function?_obeys {n : String} {r : Routine} (h : env.function? n = some r) : R.routine r := by
  unfold Context.function? at h
  split at h
  · rename_i b hb
    split at h
    · obtain ⟨entry, ha, rfl⟩ := Option.map_eq_some_iff.1 h
      exact hR.routine hb ha
    · cases h
  · cases h

theorem Context.name?_obeys {n : String} {e : Expr} (h : env.name? n = some e) : e.Obeys R := by
  unfold Context.name? at h
  split at h
  · cases h; trivial
  · obtain ⟨r, hr, h⟩ := Option.bind_eq_some_iff.1 h
    unfold call? at h
    split at h
    · rename_i hl
      cases h
      exact ⟨Context.function?_obeys hR hr, hl, trivial⟩
    · cases h

end Phrases

section Phrases

variable {R : Rules} {env : Context}

mutual

/-- What a phrase means calls only what is visible. -/
theorem Phrase.obeys_of_meaning (hR : R.Offers env.names) :
    (p : Phrase) → ∀ {e : Expr}, p.meaning? env = some e → e.Obeys R
  | .number _, _, h | .text _, _, h => by cases h; trivial
  | .word w, _, h => by
    rw [Phrase.meaning?] at h
    obtain ⟨v, _, rfl⟩ := Option.map_eq_some_iff.1 h
    trivial
  | .name n, _, h => Context.name?_obeys hR h
  | .apply n arguments, _, h => by
    rw [Phrase.meaning?] at h
    obtain ⟨r, hr, h⟩ := Option.bind_eq_some_iff.1 h
    obtain ⟨es, hes, h⟩ := Option.bind_eq_some_iff.1 h
    unfold call? at h
    split at h
    · rename_i hl
      cases h
      exact ⟨Context.function?_obeys hR hr, hl, obeys_of_meanings hR arguments hes⟩
    · cases h
  | .group p, _, h => Phrase.obeys_of_meaning hR p h
  | .signed sign p, _, h => by
    rw [Phrase.meaning?] at h
    obtain ⟨e, he, rfl⟩ := Option.map_eq_some_iff.1 h
    have := Phrase.obeys_of_meaning hR p he
    cases sign <;> exact this
  | .factorial p, _, h => by
    rw [Phrase.meaning?] at h
    obtain ⟨e, he, rfl⟩ := Option.map_eq_some_iff.1 h
    have := Phrase.obeys_of_meaning hR p he
    exact this
  | .binary op l r, _, h => by
    rw [Phrase.meaning?] at h
    obtain ⟨x, hx, h⟩ := Option.bind_eq_some_iff.1 h
    obtain ⟨y, hy, h⟩ := Option.bind_eq_some_iff.1 h
    cases h
    exact ⟨Phrase.obeys_of_meaning hR l hx, Phrase.obeys_of_meaning hR r hy⟩
  | .conjunction first rest, _, h => by
    rw [Phrase.meaning?] at h
    obtain ⟨x, hx, h⟩ := Option.bind_eq_some_iff.1 h
    obtain ⟨xs, hxs, h⟩ := Option.bind_eq_some_iff.1 h
    cases h
    exact ⟨Phrase.obeys_of_meaning hR first hx, obeys_of_meanings hR rest hxs⟩
  | .function w p, _, h => by
    rw [Phrase.meaning?] at h
    obtain ⟨op, _, h⟩ := Option.bind_eq_some_iff.1 h
    obtain ⟨x, hx, h⟩ := Option.bind_eq_some_iff.1 h
    cases h
    have := Phrase.obeys_of_meaning hR p hx
    exact this
  | .choice c p q, _, h => by
    rw [Phrase.meaning?] at h
    obtain ⟨x, hx, h⟩ := Option.bind_eq_some_iff.1 h
    obtain ⟨y, hy, h⟩ := Option.bind_eq_some_iff.1 h
    obtain ⟨z, hz, h⟩ := Option.bind_eq_some_iff.1 h
    cases h
    exact ⟨Phrase.obeys_of_meaning hR c hx, Phrase.obeys_of_meaning hR p hy, Phrase.obeys_of_meaning hR q hz⟩
  | .dialog d gaps, _, h => by
    rw [Phrase.meaning?] at h
    obtain ⟨slots, hs, rfl⟩ := Option.map_eq_some_iff.1 h
    exact obeys_of_slotsOf hR gaps hs

theorem obeys_of_meanings (hR : R.Offers env.names) :
    (ps : List Phrase) → ∀ {es : List Expr}, meanings? env ps = some es → AllObey R es
  | [], _, h => by cases h; trivial
  | p :: rest, _, h => by
    rw [meanings?] at h
    obtain ⟨x, hx, h⟩ := Option.bind_eq_some_iff.1 h
    obtain ⟨xs, hxs, h⟩ := Option.bind_eq_some_iff.1 h
    cases h
    exact ⟨Phrase.obeys_of_meaning hR p hx, obeys_of_meanings hR rest hxs⟩

theorem obeys_of_slotsOf (hR : R.Offers env.names) :
    (gaps : List Gap) → ∀ {slots : List Slot}, slotsOf? env gaps = some slots → SlotsObey R slots
  | [], _, h => by cases h; trivial
  | g :: rest, _, h => by
    rw [slotsOf?] at h
    obtain ⟨x, hx, h⟩ := Option.bind_eq_some_iff.1 h
    obtain ⟨xs, hxs, h⟩ := Option.bind_eq_some_iff.1 h
    cases h
    exact ⟨Gap.obeys_of_slot hR g hx, obeys_of_slotsOf hR rest hxs⟩

theorem Gap.obeys_of_slot (hR : R.Offers env.names) :
    (g : Gap) → ∀ {slot : Slot}, g.slot? env = some slot → slot.Obeys R
  | .omitted, _, h => by cases h; trivial
  | .given p, _, h => by
    rw [Gap.slot?] at h
    obtain ⟨e, he, rfl⟩ := Option.map_eq_some_iff.1 h
    exact Phrase.obeys_of_meaning hR p he

end

end Phrases

/-! ## Parts of statements

Each part leaves an end of the symbols it was given, so that the names ahead may still have values.
-/

section Parts

variable {R : Rules} {env : Context} {s r : List Symbol}

theorem suffix_cons {sym : Symbol} {rest : List Symbol} (h : r <:+ rest) : r <:+ sym :: rest :=
  h.trans (List.suffix_cons sym rest)

theorem require_suffix {t : Token} {f : Fault} {p : Parsed Symbol s.length} (h : env.require t s f = .ok p) :
    p.rest <:+ s ∧ p.value ∈ s ∧ p.value.token = t := by
  obtain ⟨sym, r, hlt⟩ := p
  obtain ⟨rfl, ht⟩ := require_form h
  exact ⟨List.suffix_cons .., List.mem_cons_self .., ht⟩

theorem expression_obeys {p : Parsed Expr s.length} (h : expression env s = .ok p) :
    p.rest <:+ s ∧ (R.Offers env.names → p.value.Obeys R) := by
  have hp : Parsed.plain (expression env s) = .ok (p.value, p.rest) := by rw [h]; rfl
  obtain ⟨used, hs, phrase, _, _, _, hm⟩ := expression_reads hp
  exact ⟨⟨used, hs.symm⟩, fun hR => phrase.obeys_of_meaning hR hm⟩

theorem arguments_obey {es : List Expr} (h : Parsed.plain (arguments env s) = .ok (es, r)) :
    r <:+ s ∧ (R.Offers env.names → AllObey R es) := by
  obtain ⟨used, hs, _, ps, _, _, hm⟩ := (readsBelow env (s.length + 1)).arguments s (Nat.lt_succ_self _) es r h
  exact ⟨⟨used, hs.symm⟩, fun hR => obeys_of_meanings hR ps hm⟩

theorem slots_obey {d : Dialog} {found : List Slot} (h : Passed.plain (slots env d 0 s) = .ok (found, r)) :
    r <:+ s ∧ (R.Offers env.names → SlotsObey R found) := by
  obtain ⟨used, hs, g, gaps, _, _, _, hm⟩ :=
    (readsBelow env (s.length + 1)).slots d 0 s (Nat.lt_succ_self _) (Nat.zero_le _) found r h
  exact ⟨⟨used, hs.symm⟩, fun hR => obeys_of_slotsOf hR (g :: gaps) hm⟩

theorem callArguments_obey {inExpression : Bool} {es : List Expr}
    (h : Passed.plain (callArguments env inExpression s) = .ok (es, r)) :
    r <:+ s ∧ (R.Offers env.names → AllObey R es) := by
  cases callArguments_form h with
  | absent => exact ⟨List.suffix_refl _, fun _ => trivial⟩
  | bare h => exact arguments_obey h
  | empty => exact ⟨suffix_cons (List.suffix_cons ..), fun _ => trivial⟩
  | enclosed _ h =>
    obtain ⟨hr, hes⟩ := arguments_obey h
    exact ⟨suffix_cons ((List.suffix_cons ..).trans hr), hes⟩

theorem dialogSlots_obey {d : Dialog} {found : List Slot} {l : r.length ≤ s.length}
    (h : dialogSlots env d true s = .ok ⟨found, r, l⟩) : r <:+ s ∧ (R.Offers env.names → SlotsObey R found) := by
  cases dialogSlots_form h with
  | absent => exact ⟨List.suffix_refl _, fun _ => trivial⟩
  | bare h => exact slots_obey h
  | empty => exact ⟨suffix_cons (List.suffix_cons ..), fun _ => trivial⟩
  | enclosed _ h =>
    obtain ⟨hr, hslots⟩ := slots_obey h
    exact ⟨suffix_cons ((List.suffix_cons ..).trans hr), hslots⟩

theorem routineOf_obeys {name : Symbol} {routine : Routine} (hR : R.Offers env.names)
    (h : routineOf env name = .ok routine) : R.routine routine := by
  unfold routineOf at h
  split at h
  · rename_i b hb
    split at h
    · split at h
      · rename_i entry ha
        cases h
        exact hR.routine hb ha
      · cases h
    · cases h
  · cases h

/-! ## Declarations -/

theorem declareVariable_offers {names names' : Scopes} {sym : Symbol} (h : declareVariable names sym = .ok names')
    (hR : R.Offers names) : R.Offers names' := by
  unfold declareVariable at h
  split at h
  · cases h
  · cases h; exact hR.declare rfl

theorem declareShared_offers {names names' : Scopes} {sym : Symbol} (h : declareShared names sym = .ok names')
    (hR : R.Offers names) : R.Offers names' := by
  unfold declareShared at h
  split at h
  · cases h
  · split at h
    · cases h; exact hR
    · cases h; exact hR.declare rfl

theorem NamesForm.obeys {declare : Scopes → Symbol → Except Fault Scopes}
    (hd : ∀ {names sym names'}, declare names sym = .ok names' → R.Offers names → R.Offers names')
    {names names' : Scopes} {found : List String} (h : NamesForm declare names s found names' r) (hs : R.Spells s) :
    r <:+ s ∧ (∀ n ∈ found, R.name n) ∧ (R.Offers names → R.Offers names') := by
  induction h with
  | one hsym hdeclare =>
    have hname := hs _ (List.mem_cons_self ..) hsym
    exact ⟨List.suffix_cons .., List.forall_mem_singleton.2 hname, hd hdeclare⟩
  | more hsym hdeclare _ _ ih =>
    have hname := hs _ (List.mem_cons_self ..) hsym
    obtain ⟨hr, hmore, hoffers⟩ := ih (hs.suffix (suffix_cons (List.suffix_cons ..)))
    exact ⟨suffix_cons (suffix_cons hr), List.forall_mem_cons.2 ⟨hname, hmore⟩, fun hR => hoffers (hd hdeclare hR)⟩

theorem ConstantForm.obeys {d : String × Value} (h : ConstantForm s d r) (hs : R.Spells s) : r <:+ s ∧ R.name d.1 := by
  cases h with
  | literal hname =>
    exact ⟨suffix_cons (suffix_cons (List.suffix_cons ..)), hs _ (List.mem_cons_self ..) hname⟩
  | negated hname =>
    exact ⟨suffix_cons (suffix_cons (suffix_cons (List.suffix_cons ..))), hs _ (List.mem_cons_self ..) hname⟩

theorem ConstantsForm.obeys {names names' : Scopes} {found : List (String × Value)}
    (h : ConstantsForm names s found names' r) (hs : R.Spells s) :
    r <:+ s ∧ (∀ d ∈ found, R.name d.1) ∧ (R.Offers names → R.Offers names') := by
  induction h with
  | one hfirst =>
    obtain ⟨hr, hname⟩ := hfirst.obeys hs
    exact ⟨hr, List.forall_mem_singleton.2 hname, fun hR => hR.declare rfl⟩
  | more hfirst _ _ ih =>
    obtain ⟨hr, hname⟩ := hfirst.obeys hs
    have hsuffix := (List.suffix_cons _ _).trans hr
    obtain ⟨hr', hmore, hoffers⟩ := ih (hs.suffix hsuffix)
    exact ⟨hr'.trans hsuffix, List.forall_mem_cons.2 ⟨hname, hmore⟩, fun hR => hoffers (hR.declare rfl)⟩

mutual

theorem parameterNames_obey : (s : List Symbol) → ∀ {before : List String} {p : Passed (List String) s.length},
    parameterNames env before s = .ok p → R.Spells s → R.Parameters before →
    p.rest <:+ s ∧ R.Parameters p.value
  | [], _, _, h, _, _ => by rw [parameterNames] at h; cases h
  | sym :: rest, before, p, h, hs, hb => by
    rw [parameterNames] at h
    split at h
    · rename_i ht
      split at h
      · cases h
      · rename_i hnew
        obtain ⟨_, _, h⟩ := bind_eq_ok.1 h
        obtain ⟨more, hmore, h⟩ := bind_eq_ok.1 h
        cases h
        have hnodup : (before ++ [sym.text]).Nodup := by
          refine List.nodup_append.2 ⟨hb.2, List.pairwise_singleton _ _, ?_⟩
          rintro x hx y hy rfl
          rw [List.mem_singleton.1 hy] at hx
          exact hnew (List.contains_iff_mem.2 hx)
        have hbefore : R.Parameters (before ++ [sym.text]) := by
          refine ⟨fun n hn => ?_, hnodup⟩
          rcases List.mem_append.1 hn with hn | hn
          · exact hb.1 n hn
          · rw [List.mem_singleton.1 hn]
            exact hs sym (List.mem_cons_self ..) ht
        obtain ⟨hr, hrest⟩ := moreParameters_obey rest hmore (hs.suffix (List.suffix_cons ..)) hbefore
        exact ⟨suffix_cons hr, hrest⟩
    · cases h

theorem moreParameters_obey : (s : List Symbol) → ∀ {before : List String} {p : Passed (List String) s.length},
    moreParameters env before s = .ok p → R.Spells s → R.Parameters before →
    p.rest <:+ s ∧ R.Parameters p.value
  | [], _, _, h, _, hb => by
    rw [moreParameters] at h
    cases h
    exact ⟨List.suffix_refl _, hb⟩
  | sym :: rest, before, p, h, hs, hb => by
    rw [moreParameters] at h
    split at h
    · obtain ⟨_, _, h⟩ := bind_eq_ok.1 h
      obtain ⟨more, hmore, h⟩ := bind_eq_ok.1 h
      cases h
      obtain ⟨hr, hrest⟩ := parameterNames_obey rest hmore (hs.suffix (List.suffix_cons ..)) hb
      exact ⟨suffix_cons hr, hrest⟩
    · cases h
      exact ⟨List.suffix_refl _, hb⟩

end

theorem parameterList_obeys {p : Passed (List String) s.length} (h : parameterList env s = .ok p)
    (hs : R.Spells s) : p.rest <:+ s ∧ R.Parameters p.value := by
  have hnone : R.Parameters [] := ⟨nofun, List.Pairwise.nil⟩
  unfold parameterList at h
  split at h
  · cases h
    exact ⟨List.suffix_refl _, hnone⟩
  · rename_i sym rest
    split at h
    · obtain ⟨_, _, h⟩ := bind_eq_ok.1 h
      obtain ⟨⟨found, r₁, l₁⟩, h₁, h⟩ := bind_eq_ok.1 h
      obtain ⟨closed, h₂, h⟩ := bind_eq_ok.1 h
      cases h
      obtain ⟨hclosed, _, _⟩ := require_suffix h₂
      have hfound : r₁ <:+ rest ∧ R.Parameters found := by
        split at h₁
        · cases h₁
          exact ⟨List.suffix_refl _, hnone⟩
        · exact parameterNames_obey rest h₁ (hs.suffix (List.suffix_cons ..)) hnone
      exact ⟨suffix_cons (hclosed.trans hfound.1), hfound.2⟩
    · cases h
      exact ⟨List.suffix_refl _, hnone⟩

end Parts

end Grammar

end MacroBasic
