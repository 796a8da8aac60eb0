/-
The grammar of expressions is not ambiguous: marks spell at most one phrase. A phrase of a level is an
operand of the next tighter level with suffixes, each an operator of the level and, but for the factorial
sign, another operand. Two spellings that agree have the same first operand, since what follows it in
either cannot go on at the tighter level, and so the same suffixes one by one.
-/
import MacroBasic.Proofs.Grammar.Completeness

namespace MacroBasic.Grammar

/-- The marks ahead do not begin with one that binds as tightly as `k`. -/
def Ends (k : Nat) (ms : List Mark) : Prop := ∀ m ∈ ms.head?, ∀ t ∈ m.tightness?, t < k

theorem Ends.mono {k j : Nat} {ms : List Mark} (h : Ends k ms) (hj : k ≤ j) : Ends j ms := by
  intro m hm t ht
  exact Nat.lt_of_lt_of_le (h m hm t ht) hj

theorem ends_nil (k : Nat) : Ends k [] := by
  intro m hm
  cases hm

theorem ends_cons {k : Nat} {m : Mark} {ms : List Mark} (h : ∀ t, m.tightness? = some t → t < k) :
    Ends k (m :: ms) := by
  intro m' hm t ht
  cases hm
  exact h t ht

theorem ends_closeParen (k : Nat) (ms : List Mark) : Ends k (.closeParen :: ms) := ends_cons nofun

theorem ends_comma (k : Nat) (ms : List Mark) : Ends k (.comma :: ms) := ends_cons nofun

/-! ## Suffixes -/

/-- What follows the first operand of a level. -/
inductive Suffix where
  | factorial
  | operand (op : BinaryOperator) (r : Phrase)

namespace Suffix

def render : Suffix → List Mark
  | .factorial => [.factorial]
  | .operand op r => .operator op :: r.render

/-- A suffix of the given level. -/
def Fits (k : Nat) : Suffix → Prop
  | .factorial => k = 6
  | .operand op r => tightness op = k ∧ r.WellFormed ∧ k < r.tightness

/-- The phrase that a suffix makes of what stands before it. -/
def attach (l : Phrase) : Suffix → Phrase
  | .factorial => .factorial l
  | .operand op r => .binary op l r

/-- The operand in a suffix. -/
def operand? : Suffix → Option Phrase
  | .factorial => none
  | .operand _ r => some r

end Suffix

def renderSuffixes : List Suffix → List Mark
  | [] => []
  | x :: rest => x.render ++ renderSuffixes rest

theorem renderSuffixes_append (l l' : List Suffix) :
    renderSuffixes (l ++ l') = renderSuffixes l ++ renderSuffixes l' := by
  induction l with
  | nil => rfl
  | cons x l ih => rw [List.cons_append, renderSuffixes, renderSuffixes, ih, List.append_assoc]

/-- The phrase of an operand and suffixes of a level: one node for a chain of `AND`, else grouped from the
left. -/
def assemble (k : Nat) (first : Phrase) (l : List Suffix) : Phrase :=
  if k = 1 then
    if l.isEmpty then first else .conjunction first (l.filterMap Suffix.operand?)
  else l.foldl Suffix.attach first

theorem renderEach_suffixes (ps : List Phrase) :
    renderEach (.operator .and) ps = renderSuffixes (ps.map (.operand .and)) := by
  induction ps with
  | nil => rfl
  | cons p ps ih => rw [renderEach, ih]; rfl

theorem filterMap_operand? (ps : List Phrase) :
    (ps.map (Suffix.operand .and)).filterMap Suffix.operand? = ps := by
  induction ps with
  | nil => rfl
  | cons p ps ih => simp [Suffix.operand?, ih]

theorem fits_of_wellFormedAll {ps : List Phrase} (h : WellFormedAll 2 ps) :
    ∀ x ∈ ps.map (Suffix.operand .and), x.Fits 1 := by
  induction ps with
  | nil => intro x hx; cases hx
  | cons p ps ih =>
    obtain ⟨hp, hpk, hps⟩ := h
    intro x hx
    rcases List.mem_cons.1 hx with rfl | hx
    · exact ⟨rfl, hp, hpk⟩
    · exact ih hps x hx

/-- A phrase is an operand of the next tighter level with suffixes. -/
structure Spine (k : Nat) (p first : Phrase) (l : List Suffix) : Prop where
  eq : p = assemble k first l
  render : p.render = first.render ++ renderSuffixes l
  wellFormed : first.WellFormed
  tighter : k < first.tightness
  fits : ∀ x ∈ l, x.Fits k

theorem Spine.snoc {k : Nat} {p first : Phrase} {l : List Suffix} {x : Suffix} (h : Spine k p first l)
    (hk : k ≠ 1) (hx : x.Fits k) : Spine k (x.attach p) first (l ++ [x]) where
  eq := by
    rw [h.eq, assemble, assemble, if_neg hk, if_neg hk, List.foldl_append]
    rfl
  render := by
    have hr : (x.attach p).render = p.render ++ x.render := by cases x <;> rfl
    rw [hr, h.render, renderSuffixes_append, List.append_assoc]
    simp [renderSuffixes]
  wellFormed := h.wellFormed
  tighter := h.tighter
  fits := by
    intro y hy
    rcases List.mem_append.1 hy with hy | hy
    · exact h.fits y hy
    · rw [List.mem_singleton.1 hy]; exact hx

theorem Spine.single {k : Nat} {p : Phrase} (hw : p.WellFormed) (hk : k < p.tightness) : Spine k p p [] where
  eq := by unfold assemble; split <;> rfl
  render := (List.append_nil _).symm
  wellFormed := hw
  tighter := hk
  fits := by intro x hx; cases hx

theorem exists_spine {k : Nat} (hk : k ≤ 6) : (p : Phrase) → p.WellFormed → k ≤ p.tightness →
    ∃ first l, Spine k p first l
  | .binary op l r, hw, ht => by
    by_cases hlt : k < (Phrase.binary op l r).tightness
    · exact ⟨_, [], .single hw hlt⟩
    · have hop : tightness op = k := Nat.le_antisymm (Nat.le_of_not_lt hlt) ht
      obtain ⟨hand, hl, hlk, hr, hrk⟩ := hw
      have h1 : k ≠ 1 := by rintro rfl; exact hand (by cases op <;> first | rfl | cases hop)
      obtain ⟨first, xs, hs⟩ := exists_spine hk l hl (by omega)
      exact ⟨first, _, hs.snoc (x := .operand op r) h1 ⟨hop, hr, by omega⟩⟩
  | .factorial e, hw, ht => by
    by_cases hlt : k < (Phrase.factorial e).tightness
    · exact ⟨_, [], .single hw hlt⟩
    · have h6 : k = 6 := Nat.le_antisymm ht (Nat.le_of_not_lt hlt)
      obtain ⟨first, xs, hs⟩ := exists_spine hk e hw.1 (by rw [h6]; exact hw.2)
      exact ⟨first, _, hs.snoc (x := .factorial) (by omega) h6⟩
  | .conjunction first rest, hw, ht => by
    by_cases hlt : k < (Phrase.conjunction first rest).tightness
    · exact ⟨_, [], .single hw hlt⟩
    · have h1 : k = 1 := Nat.le_antisymm ht (Nat.le_of_not_lt hlt)
      subst h1
      obtain ⟨hf, hfk, hne, hrest⟩ := hw
      refine ⟨first, rest.map (.operand .and), ?_, ?_, hf, hfk, fits_of_wellFormedAll hrest⟩
      · cases rest with
        | nil => exact absurd rfl hne
        | cons q qs => rw [assemble, if_pos rfl, filterMap_operand?]; rfl
      · rw [Phrase.render, renderEach_suffixes]
  | .number _, hw, _ | .text _, hw, _ | .word _, hw, _ | .name _, hw, _ | .apply _ _, hw, _ | .group _, hw, _
  | .signed _ _, hw, _ | .function _ _, hw, _ | .choice _ _ _, hw, _ | .dialog _ _, hw, _ =>
    ⟨_, [], .single hw (Nat.lt_succ_of_le hk)⟩

/-! ## Levels -/

/-- Marks that agree spell the same phrase of level `k` first, if what follows it cannot go on with it;
the phrase has at most `n` marks. -/
def UniqueAt (n k : Nat) : Prop :=
  ∀ p q : Phrase, ∀ r r' : List Mark, p.render.length ≤ n → p.WellFormed → q.WellFormed →
    k ≤ p.tightness → k ≤ q.tightness → Ends k r → Ends k r' → p.render ++ r = q.render ++ r' → p = q ∧ r = r'

theorem Suffix.mark_tightness {k : Nat} {x : Suffix} (h : x.Fits k) :
    ∃ m ms, x.render = m :: ms ∧ m.tightness? = some k := by
  cases x with
  | factorial => exact ⟨.factorial, [], rfl, congrArg some (Eq.symm h)⟩
  | operand op r => exact ⟨.operator op, r.render, rfl, congrArg some h.1⟩

/-- Suffixes of a level are not mistaken for what ends it. -/
theorem ends_suffix_false {k : Nat} {x : Suffix} {ms : List Mark} (h : x.Fits k) :
    ¬ Ends k (x.render ++ ms) := by
  obtain ⟨m, ms', hr, hm⟩ := Suffix.mark_tightness h
  intro he
  rw [hr] at he
  exact Nat.lt_irrefl k (he m rfl k hm)

theorem ends_suffixes {k : Nat} {l : List Suffix} {r : List Mark} (hl : ∀ x ∈ l, x.Fits k) (hr : Ends k r) :
    Ends (k + 1) (renderSuffixes l ++ r) := by
  cases l with
  | nil => exact hr.mono (Nat.le_succ k)
  | cons x l =>
    obtain ⟨m, ms, hx, hm⟩ := Suffix.mark_tightness (hl x (List.mem_cons_self ..))
    rw [renderSuffixes, hx]
    exact ends_cons fun t ht => by rw [hm] at ht; cases ht; exact Nat.lt_succ_self k

theorem suffixes_unique {n k : Nat} (tighter : UniqueAt n (k + 1)) {l l' : List Suffix} {r r' : List Mark}
    (hn : (renderSuffixes l).length ≤ n) (hl : ∀ x ∈ l, x.Fits k) (hl' : ∀ x ∈ l', x.Fits k) (hr : Ends k r)
    (hr' : Ends k r') (h : renderSuffixes l ++ r = renderSuffixes l' ++ r') : l = l' ∧ r = r' := by
  -- on the suffixes: the first two are of one kind, since they begin with the same mark
  induction l generalizing l' with
  | nil =>
    cases l' with
    | nil => exact ⟨rfl, h⟩
    | cons y l' =>
      -- what stands behind all suffixes does not begin with another one
      have hr₀ : r = y.render ++ (renderSuffixes l' ++ r') := by
        rw [← List.append_assoc]; exact h
      rw [hr₀] at hr
      exact absurd hr (ends_suffix_false (hl' y (List.mem_cons_self ..)))
  | cons x l ih =>
    have hx := hl x (List.mem_cons_self ..)
    have hrest : ∀ y ∈ l, y.Fits k := fun y hy => hl y (List.mem_cons_of_mem _ hy)
    cases l' with
    | nil =>
      have hr₀ : x.render ++ (renderSuffixes l ++ r) = r' := by
        rw [← List.append_assoc]; exact h
      rw [← hr₀] at hr'
      exact absurd hr' (ends_suffix_false hx)
    | cons y l' =>
      have hy := hl' y (List.mem_cons_self ..)
      have hrest' : ∀ y ∈ l', y.Fits k := fun y hy => hl' y (List.mem_cons_of_mem _ hy)
      rw [renderSuffixes, List.length_append] at hn
      rw [renderSuffixes, renderSuffixes, List.append_assoc, List.append_assoc] at h
      have hxy : x = y ∧ renderSuffixes l ++ r = renderSuffixes l' ++ r' := by
        cases x with
        | factorial =>
          cases y with
          | factorial => exact ⟨rfl, List.tail_eq_of_cons_eq h⟩
          | operand op q => cases h
        | operand op p =>
          cases y with
          | factorial => cases h
          | operand op' q =>
            obtain ⟨hm, hrender⟩ := List.cons.inj h
            cases hm
            have hlen : p.render.length ≤ n := by
              simp only [Suffix.render, List.length_cons] at hn; omega
            obtain ⟨hpq, hmore⟩ := tighter p q _ _ hlen hx.2.1 hy.2.1 hx.2.2 hy.2.2 (ends_suffixes hrest hr)
              (ends_suffixes hrest' hr') hrender
            exact ⟨by rw [hpq], hmore⟩
      obtain ⟨rfl, hmore⟩ := hxy
      obtain ⟨rfl, rfl⟩ := ih (by omega) hrest hrest' hmore
      exact ⟨rfl, rfl⟩

/-- A level is not ambiguous if the next tighter one is not. -/
theorem UniqueAt.looser {n k : Nat} (hk : k ≤ 6) (tighter : UniqueAt n (k + 1)) : UniqueAt n k := by
  intro p q r r' hn hp hq hpk hqk hr hr' h
  obtain ⟨first, l, hs⟩ := exists_spine hk p hp hpk
  obtain ⟨first', l', hs'⟩ := exists_spine hk q hq hqk
  rw [hs.render, List.length_append] at hn
  rw [hs.render, hs'.render, List.append_assoc, List.append_assoc] at h
  obtain ⟨hfirst, h⟩ := tighter first first' _ _ (by omega) hs.wellFormed hs'.wellFormed hs.tighter hs'.tighter
    (ends_suffixes hs.fits hr) (ends_suffixes hs'.fits hr') h
  obtain ⟨rfl, rfl⟩ := suffixes_unique tighter (by omega) hs.fits hs'.fits hr hr' h
  exact ⟨by rw [hs.eq, hs'.eq, hfirst], rfl⟩

/-! ## Phrases in parentheses -/

theorem startsExpression_closeParen {p : Phrase} {r ms : List Mark} (hp : p.WellFormed)
    (h : p.render ++ r = .closeParen :: ms) : False := by
  obtain ⟨m, ms', hr, hm⟩ := p.render_starts hp
  rw [hr] at h
  rw [(List.cons.inj h).1] at hm
  cases hm

theorem startsExpression_comma {p : Phrase} {r ms : List Mark} (hp : p.WellFormed)
    (h : p.render ++ r = .comma :: ms) : False := by
  obtain ⟨m, ms', hr, hm⟩ := p.render_starts hp
  rw [hr] at h
  rw [(List.cons.inj h).1] at hm
  cases hm

section Lists

variable {n : Nat} (ih : UniqueAt n 0) {r r' : List Mark}

include ih

theorem closed_unique {p q : Phrase} (hn : p.render.length ≤ n) (hp : p.WellFormed) (hq : q.WellFormed)
    (h : p.render ++ .closeParen :: r = q.render ++ .closeParen :: r') : p = q ∧ r = r' := by
  obtain ⟨hpq, hr⟩ := ih p q _ _ hn hp hq (Nat.zero_le _) (Nat.zero_le _) (ends_closeParen 0 r)
    (ends_closeParen 0 r') h
  exact ⟨hpq, (List.cons.inj hr).2⟩

omit ih in
theorem ends_each (ps : List Phrase) (r : List Mark) : Ends 0 (renderEach .comma ps ++ .closeParen :: r) := by
  cases ps with
  | nil => exact ends_closeParen 0 r
  | cons p ps => exact ends_comma 0 _

theorem each_unique {ps qs : List Phrase} (hn : (renderEach .comma ps).length ≤ n) (hp : WellFormedAll 0 ps)
    (hq : WellFormedAll 0 qs)
    (h : renderEach .comma ps ++ .closeParen :: r = renderEach .comma qs ++ .closeParen :: r') :
    ps = qs ∧ r = r' := by
  induction ps generalizing qs with
  | nil =>
    cases qs with
    | nil => exact ⟨rfl, (List.cons.inj h).2⟩
    | cons q qs => cases (List.cons.inj h).1
  | cons p ps ihp =>
    cases qs with
    | nil => cases (List.cons.inj h).1
    | cons q qs =>
      simp only [renderEach, List.length_cons, List.length_append] at hn
      have h' : p.render ++ (renderEach .comma ps ++ .closeParen :: r) =
          q.render ++ (renderEach .comma qs ++ .closeParen :: r') := by
        rw [← List.append_assoc, ← List.append_assoc]
        exact (List.cons.inj h).2
      obtain ⟨hpq, hr⟩ := ih p q _ _ (by omega) hp.1 hq.1 (Nat.zero_le _) (Nat.zero_le _)
        (ends_each ps r) (ends_each qs r') h'
      obtain ⟨hps, hr⟩ := ihp (by omega) hp.2.2 hq.2.2 hr
      exact ⟨by rw [hpq, hps], hr⟩

theorem list_unique {ps qs : List Phrase} (hn : (renderList ps).length ≤ n) (hp : WellFormedAll 0 ps)
    (hq : WellFormedAll 0 qs)
    (h : renderList ps ++ .closeParen :: r = renderList qs ++ .closeParen :: r') : ps = qs ∧ r = r' := by
  cases ps with
  | nil =>
    cases qs with
    | nil => exact ⟨rfl, (List.cons.inj h).2⟩
    | cons q qs =>
      rw [renderList, renderList, List.nil_append, List.append_assoc] at h
      exact (startsExpression_closeParen hq.1 h.symm).elim
  | cons p ps =>
    cases qs with
    | nil =>
      rw [renderList, renderList, List.nil_append, List.append_assoc] at h
      exact (startsExpression_closeParen hp.1 h).elim
    | cons q qs =>
      simp only [renderList, List.length_append] at hn
      rw [renderList, renderList, List.append_assoc, List.append_assoc] at h
      obtain ⟨hpq, hr⟩ := ih p q _ _ (by omega) hp.1 hq.1 (Nat.zero_le _) (Nat.zero_le _)
        (ends_each ps r) (ends_each qs r') h
      obtain ⟨hps, hr⟩ := each_unique ih (by omega) hp.2.2 hq.2.2 hr
      exact ⟨by rw [hpq, hps], hr⟩

omit ih in
/-- What follows a place for a parameter. -/
theorem moreGaps_head (gs : List Gap) (r : List Mark) :
    ∃ ms, renderMoreGaps gs ++ .closeParen :: r = .closeParen :: ms ∨
      renderMoreGaps gs ++ .closeParen :: r = .comma :: ms := by
  cases gs with
  | nil => exact ⟨r, .inl rfl⟩
  | cons g gs => exact ⟨_, .inr rfl⟩

omit ih in
theorem ends_moreGaps (gs : List Gap) (r : List Mark) : Ends 0 (renderMoreGaps gs ++ .closeParen :: r) := by
  cases gs with
  | nil => exact ends_closeParen 0 r
  | cons g gs => exact ends_comma 0 _

omit ih in
/-- A given parameter is not mistaken for one that is left out. -/
theorem given_ne_omitted {p : Phrase} {gs : List Gap} {ms : List Mark} (hp : p.WellFormed)
    (h : p.render ++ ms = renderMoreGaps gs ++ .closeParen :: r) : False := by
  obtain ⟨ms', he | he⟩ := moreGaps_head gs r
  · rw [he] at h
    exact startsExpression_closeParen hp h
  · rw [he] at h
    exact startsExpression_comma hp h

theorem gap_unique {g g' : Gap} {gs gs' : List Gap} (hn : g.render.length ≤ n) (hg : g.WellFormed)
    (hg' : g'.WellFormed)
    (h : g.render ++ (renderMoreGaps gs ++ .closeParen :: r) =
      g'.render ++ (renderMoreGaps gs' ++ .closeParen :: r')) :
    g = g' ∧ renderMoreGaps gs ++ .closeParen :: r = renderMoreGaps gs' ++ .closeParen :: r' := by
  cases g with
  | omitted =>
    cases g' with
    | omitted => exact ⟨rfl, h⟩
    | given q => exact (given_ne_omitted hg' h.symm).elim
  | given p =>
    cases g' with
    | omitted => exact (given_ne_omitted hg h).elim
    | given q =>
      obtain ⟨hpq, hr⟩ := ih p q _ _ hn hg hg' (Nat.zero_le _) (Nat.zero_le _) (ends_moreGaps gs r)
        (ends_moreGaps gs' r') h
      exact ⟨by rw [hpq], hr⟩

theorem moreGaps_unique {gs gs' : List Gap} (hn : (renderMoreGaps gs).length ≤ n) (hg : WellFormedGaps gs)
    (hg' : WellFormedGaps gs')
    (h : renderMoreGaps gs ++ .closeParen :: r = renderMoreGaps gs' ++ .closeParen :: r') :
    gs = gs' ∧ r = r' := by
  induction gs generalizing gs' with
  | nil =>
    cases gs' with
    | nil => exact ⟨rfl, (List.cons.inj h).2⟩
    | cons g' gs' => cases (List.cons.inj h).1
  | cons g gs ihg =>
    cases gs' with
    | nil => cases (List.cons.inj h).1
    | cons g' gs' =>
      simp only [renderMoreGaps, List.length_cons, List.length_append] at hn
      have h' : g.render ++ (renderMoreGaps gs ++ .closeParen :: r) =
          g'.render ++ (renderMoreGaps gs' ++ .closeParen :: r') := by
        rw [← List.append_assoc, ← List.append_assoc]
        exact (List.cons.inj h).2
      obtain ⟨hgg, hr⟩ := gap_unique ih (by omega) hg.1 hg'.1 h'
      obtain ⟨hgs, hr⟩ := ihg (by omega) hg.2 hg'.2 hr
      exact ⟨by rw [hgg, hgs], hr⟩

omit ih in
/-- No parameter at all is not mistaken for some, the first of which may be left out only before others. -/
theorem gaps_ne_nil {g : Gap} {gs : List Gap} (hg : g.WellFormed) (hlone : g :: gs ≠ [.omitted])
    (h : .closeParen :: r = renderGaps (g :: gs) ++ .closeParen :: r') : False := by
  rw [renderGaps, List.append_assoc] at h
  cases g with
  | given p => exact startsExpression_closeParen hg h.symm
  | omitted =>
    cases gs with
    | nil => exact hlone rfl
    | cons g gs => cases (List.cons.inj h).1

theorem gaps_unique {gs gs' : List Gap} (hn : (renderGaps gs).length ≤ n) (hg : WellFormedGaps gs)
    (hg' : WellFormedGaps gs') (hlone : gs ≠ [.omitted]) (hlone' : gs' ≠ [.omitted])
    (h : renderGaps gs ++ .closeParen :: r = renderGaps gs' ++ .closeParen :: r') : gs = gs' ∧ r = r' := by
  cases gs with
  | nil =>
    cases gs' with
    | nil => exact ⟨rfl, (List.cons.inj h).2⟩
    | cons g' gs' => exact (gaps_ne_nil hg'.1 hlone' h).elim
  | cons g gs =>
    cases gs' with
    | nil => exact (gaps_ne_nil hg.1 hlone h.symm).elim
    | cons g' gs' =>
      simp only [renderGaps, List.length_append] at hn
      rw [renderGaps, renderGaps, List.append_assoc, List.append_assoc] at h
      obtain ⟨hgg, hr⟩ := gap_unique ih (by omega) hg.1 hg'.1 h
      obtain ⟨hgs, hr⟩ := moreGaps_unique ih (by omega) hg.2 hg'.2 hr
      exact ⟨by rw [hgg, hgs], hr⟩

theorem choice_unique {c x y c' x' y' : Phrase}
    (hn : (c.render ++ .comma :: x.render ++ .comma :: y.render).length ≤ n)
    (hw : (Phrase.choice c x y).WellFormed) (hw' : (Phrase.choice c' x' y').WellFormed)
    (h : c.render ++ .comma :: (x.render ++ .comma :: (y.render ++ .closeParen :: r)) =
      c'.render ++ .comma :: (x'.render ++ .comma :: (y'.render ++ .closeParen :: r'))) :
    c = c' ∧ x = x' ∧ y = y' ∧ r = r' := by
  simp only [List.length_append, List.length_cons] at hn
  obtain ⟨hc, hx, hy⟩ := hw
  obtain ⟨hc', hx', hy'⟩ := hw'
  obtain ⟨hcc, h⟩ := ih c c' _ _ (by omega) hc hc' (Nat.zero_le _) (Nat.zero_le _) (ends_comma 0 _)
    (ends_comma 0 _) h
  obtain ⟨hxx, h⟩ := ih x x' _ _ (by omega) hx hx' (Nat.zero_le _) (Nat.zero_le _) (ends_comma 0 _)
    (ends_comma 0 _) (List.cons.inj h).2
  obtain ⟨hyy, h⟩ := closed_unique ih (by omega) hy hy' (List.cons.inj h).2
  exact ⟨hcc, hxx, hyy, h⟩

end Lists

/-! ## Operands -/

theorem tightness_lt (op : BinaryOperator) : tightness op < 6 := by cases op <;> decide

/-- An operand with its first mark and the marks behind it. -/
inductive Operand : Phrase → Mark → List Mark → Prop
  | number (v : Value) : Operand (.number v) (.number v) []
  | text (v : Value) : Operand (.text v) (.text v) []
  | name (n : String) : Operand (.name n) (.name n) []
  | apply (n : String) (arguments : List Phrase) :
    Operand (.apply n arguments) (.name n) (.openParen :: renderList arguments ++ [.closeParen])
  | group (e : Phrase) : Operand (.group e) (.plain .openParen) (e.render ++ [.closeParen])
  | signed {t : Token} {s : Sign} (e : Phrase) (h : t = s.token) : Operand (.signed s e) (.plain t) e.render
  | word {w : Word} {v : Value} (h : wordOpening w = .value v) : Operand (.word w) (.plain (.word w)) []
  | function {w : Word} {spelling : String} {op : UnaryOperator} (e : Phrase)
      (h : wordOpening w = .function spelling op) :
    Operand (.function w e) (.plain (.word w)) (.openParen :: e.render ++ [.closeParen])
  | choice {w : Word} (c x y : Phrase) (h : wordOpening w = .choice) :
    Operand (.choice c x y) (.plain (.word w))
      (.openParen :: c.render ++ .comma :: x.render ++ .comma :: y.render ++ [.closeParen])
  | dialog {w : Word} {d : Dialog} (gaps : List Gap) (h : wordOpening w = .dialog d) :
    Operand (.dialog d gaps) (.plain (.word w)) (.openParen :: renderGaps gaps ++ [.closeParen])

theorem exists_operand {p : Phrase} (hw : p.WellFormed) (hk : 7 ≤ p.tightness) :
    ∃ m ms, p.render = m :: ms ∧ Operand p m ms := by
  cases p with
  | number v => exact ⟨_, _, rfl, .number v⟩
  | text v => exact ⟨_, _, rfl, .text v⟩
  | name n => exact ⟨_, _, rfl, .name n⟩
  | apply n arguments => exact ⟨_, _, rfl, .apply n arguments⟩
  | group e => exact ⟨_, _, rfl, .group e⟩
  | signed s e => exact ⟨_, _, rfl, .signed e rfl⟩
  | word w =>
    obtain ⟨v, hv⟩ := Option.isSome_iff_exists.1 hw
    exact ⟨_, _, rfl, .word (wordOpening_of_value hv)⟩
  | function w e =>
    obtain ⟨op, hop⟩ := Option.isSome_iff_exists.1 hw.1
    exact ⟨_, _, rfl, .function e (wordOpening_of_function hop)⟩
  | choice c x y => exact ⟨_, _, rfl, .choice c x y rfl⟩
  | dialog d gaps => exact ⟨_, _, rfl, .dialog gaps (wordOpening_dialogWord d)⟩
  | factorial e => simp [Phrase.tightness] at hk
  | conjunction first rest => simp [Phrase.tightness] at hk
  | binary op l r =>
    have := tightness_lt op
    simp only [Phrase.tightness] at hk
    omega

/-- A sign is no parenthesis and no word, and its token tells which one it is. -/
theorem Sign.token_ne_openParen (s : Sign) : Token.openParen ≠ s.token := by cases s <;> nofun

theorem Sign.token_ne_word (s : Sign) (w : Word) : Token.word w ≠ s.token := by cases s <;> nofun

theorem Sign.token_inj {s s' : Sign} (h : s.token = s'.token) : s = s' := by
  cases s <;> cases s' <;> first | rfl | cases h

/-- A name is not mistaken for the call of a function with parentheses. -/
theorem not_ends_openParen (ms : List Mark) : ¬ Ends 7 (.openParen :: ms) := by
  intro h
  exact Nat.lt_irrefl 7 (h .openParen rfl 7 rfl)

theorem parens_append (ms r : List Mark) :
    (.openParen :: ms ++ [.closeParen]) ++ r = .openParen :: (ms ++ .closeParen :: r) := by simp

/-- Operands with one mark more than the phrases in them are not ambiguous. -/
theorem UniqueAt.operand {n : Nat} (ih : UniqueAt n 0) (ih₇ : UniqueAt n 7) : UniqueAt (n + 1) 7 := by
  intro p q r r' hn hp hq hpk hqk hr hr' h
  obtain ⟨m, ms, hpr, hop⟩ := exists_operand hp hpk
  obtain ⟨m', ms', hqr, hoq⟩ := exists_operand hq hqk
  rw [hpr, List.length_cons] at hn
  rw [hpr, hqr, List.cons_append, List.cons_append, List.cons.injEq] at h
  replace hn : ms.length ≤ n := Nat.le_of_succ_le_succ hn
  obtain ⟨hm, h⟩ := h
  subst hm
  -- the first mark tells the kind of an operand, except that a name may be all of it or open a call
  cases hop with
  | number v => cases hoq with | number => exact ⟨rfl, h⟩
  | text v => cases hoq with | text => exact ⟨rfl, h⟩
  | name x =>
    cases hoq with
    | name => exact ⟨rfl, h⟩
    | apply _ ps =>
      rw [parens_append, List.nil_append] at h
      rw [h] at hr
      exact absurd hr (not_ends_openParen _)
  | apply x ps =>
    cases hoq with
    | name =>
      rw [parens_append, List.nil_append] at h
      rw [← h] at hr'
      exact absurd hr' (not_ends_openParen _)
    | apply _ qs =>
      rw [parens_append, parens_append] at h
      simp only [List.length_append, List.length_cons] at hn
      obtain ⟨hps, hr⟩ := list_unique ih (by omega) hp hq (List.cons.inj h).2
      exact ⟨by rw [hps], hr⟩
  | group e =>
    cases hoq with
    | group e' =>
      rw [List.append_assoc, List.append_assoc] at h
      rw [List.length_append] at hn
      obtain ⟨he, hr⟩ := closed_unique (p := e) (q := e') ih (by omega) hp hq h
      exact ⟨by rw [he], hr⟩
    | @signed _ s _ hs => exact absurd hs s.token_ne_openParen
  | @signed _ s e hs =>
    subst hs
    generalize ht : s.token = t at hoq
    cases hoq with
    | group e' => exact absurd ht.symm s.token_ne_openParen
    | @signed _ s' e' hs' =>
      obtain ⟨he, hr⟩ := ih₇ e e' r r' hn hp.1 hq.1 hp.2 hq.2 hr hr' h
      exact ⟨by rw [he, Sign.token_inj (ht.trans hs')], hr⟩
    | word | function | choice | dialog => exact absurd ht.symm (s.token_ne_word _)
  | word hw =>
    cases hoq with
    | signed _ hs => exact absurd hs (Sign.token_ne_word _ _)
    | word => exact ⟨rfl, h⟩
    | function _ hw' | choice _ _ _ hw' | dialog _ hw' => rw [hw] at hw'; cases hw'
  | function e hw =>
    cases hoq with
    | signed _ hs => exact absurd hs (Sign.token_ne_word _ _)
    | word hw' | choice _ _ _ hw' | dialog _ hw' => rw [hw] at hw'; cases hw'
    | function e' =>
      rw [parens_append, parens_append] at h
      simp only [List.length_append, List.length_cons] at hn
      obtain ⟨he, hr⟩ := closed_unique ih (by omega) hp.2 hq.2 (List.cons.inj h).2
      exact ⟨by rw [he], hr⟩
  | choice c x y hw =>
    cases hoq with
    | signed _ hs => exact absurd hs (Sign.token_ne_word _ _)
    | word hw' | function _ hw' | dialog _ hw' => rw [hw] at hw'; cases hw'
    | choice c' x' y' =>
      have h : c.render ++ .comma :: (x.render ++ .comma :: (y.render ++ .closeParen :: r)) =
          c'.render ++ .comma :: (x'.render ++ .comma :: (y'.render ++ .closeParen :: r')) := by
        simpa using h
      obtain ⟨hc, hx, hy, hr⟩ := choice_unique ih (by simp at hn ⊢; omega) hp hq h
      exact ⟨by rw [hc, hx, hy], hr⟩
  | dialog gaps hw =>
    cases hoq with
    | signed _ hs => exact absurd hs (Sign.token_ne_word _ _)
    | word hw' | function _ hw' | choice _ _ _ hw' => rw [hw] at hw'; cases hw'
    | dialog gaps' hw' =>
      rw [hw] at hw'
      cases hw'
      rw [parens_append, parens_append] at h
      simp only [List.length_append, List.length_cons] at hn
      obtain ⟨hg, hr⟩ := gaps_unique ih (by omega) hp.2.2 hq.2.2 hp.2.1 hq.2.1 (List.cons.inj h).2
      exact ⟨by rw [hg], hr⟩

/-! ## All levels -/

theorem uniqueAt (n k : Nat) (hk : k ≤ 7) : UniqueAt n k := by
  induction n generalizing k with
  | zero =>
    intro p q r r' hn hp
    obtain ⟨m, ms, hr, _⟩ := p.render_starts hp
    rw [hr] at hn
    cases hn
  | succ n ih =>
    induction hd : 7 - k generalizing k with
    | zero =>
      have : k = 7 := by omega
      subst this
      exact (ih 0 (by decide)).operand (ih 7 (Nat.le_refl _))
    | succ d ihd => exact (ihd (k + 1) (by omega) (by omega)).looser (by omega)

/-- No two phrases are spelled alike. -/
theorem Phrase.eq_of_render {p q : Phrase} (hp : p.WellFormed) (hq : q.WellFormed) (h : p.render = q.render) :
    p = q :=
  (uniqueAt p.render.length 0 (by decide) p q [] [] (Nat.le_refl _) hp hq (Nat.zero_le _) (Nat.zero_le _)
    (ends_nil 0) (ends_nil 0) (by rw [h])).1

end MacroBasic.Grammar
