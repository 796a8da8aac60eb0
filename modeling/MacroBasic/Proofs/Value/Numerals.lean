/-
Which texts are numbers. A decimal number is a sign, if any, digits with at most one separator, and an exponent, if any.
Besides these the reader takes the words for infinity and for what is not a number, but only behind a sign. Every other
text is refused, and a calculation with it fails.
-/
import MacroBasic.Value.Coercion
import Mathlib.Data.List.Basic
import Mathlib.Data.List.TakeWhile

namespace MacroBasic

namespace Decimal

/-! ## Decimal numbers -/

/-- Only digits. -/
def AllDigits (ds : List Char) : Prop := ∀ d ∈ ds, d.isDigit = true

instance (ds : List Char) : Decidable (AllDigits ds) := List.decidableBAll _ ds

inductive IsSign : List Char → Prop
  | none : IsSign []
  | minus : IsSign ['-']
  | plus : IsSign ['+']

/-- At least one digit, and at most one separator in front of, among or behind the digits. -/
inductive IsMantissa (separator : Char) : List Char → Prop
  | whole {ds : List Char} : AllDigits ds → ds ≠ [] → IsMantissa separator ds
  | split {ds es : List Char} : AllDigits ds → AllDigits es → ds ++ es ≠ [] → IsMantissa separator (ds ++ separator :: es)

inductive IsExponent : List Char → Prop
  | none : IsExponent []
  | some {mark : Char} {sign ds : List Char} : mark = 'e' ∨ mark = 'E' → IsSign sign → AllDigits ds → ds ≠ [] →
    IsExponent (mark :: (sign ++ ds))

/-- A number without its sign. -/
def IsMagnitude (separator : Char) (w : List Char) : Prop :=
  ∃ mantissa exponent, w = mantissa ++ exponent ∧ IsMantissa separator mantissa ∧ IsExponent exponent

/-- A number with the given separator. -/
def IsNumber (separator : Char) (w : List Char) : Prop :=
  ∃ sign magnitude, w = sign ++ magnitude ∧ IsSign sign ∧ IsMagnitude separator magnitude

/-- A decimal number: the separator is a point, or a comma where there is no point. -/
def IsDecimal (w : List Char) : Prop := IsNumber '.' w ∨ IsNumber ',' w ∧ '.' ∉ w

/-- A word for infinity or for what is not a number, in letters of any case. -/
def IsWord (w : List Char) : Prop := w.map Char.toLower ∈ ["inf".toList, "infinity".toList, "nan".toList]

instance : DecidablePred IsWord := fun _ => inferInstanceAs (Decidable (_ ∈ _))

/-- A word for infinity or for what is not a number, perhaps behind a sign. -/
def IsWorded (w : List Char) : Prop := ∃ sign word, w = sign ++ word ∧ IsSign sign ∧ IsWord word

/-- A word for infinity or for what is not a number behind a sign. -/
def IsSignedWord (w : List Char) : Prop := ∃ sign word, w = sign ++ word ∧ (sign = ['-'] ∨ sign = ['+']) ∧ IsWord word

variable {w sign ds es rest : List Char} {c separator : Char}

/-! ## The characters of numbers and words -/

theorem not_mem_of_digits (h : AllDigits ds) (hc : c.isDigit = false) : c ∉ ds := fun hmem => by
  rw [h c hmem] at hc
  cases hc

/-- Digits go on up to a character that is none. -/
theorem span_digits (h : AllDigits ds) (hrest : ∀ x ∈ rest.head?, x.isDigit = false) :
    (ds ++ rest).takeWhile Char.isDigit = ds ∧ (ds ++ rest).dropWhile Char.isDigit = rest := by
  rw [List.takeWhile_append_of_pos h, List.dropWhile_append_of_pos h]
  cases rest with
  | nil => simp
  | cons x rest => simp [hrest x rfl]

/-- A number without its sign begins with a digit or with its separator. -/
theorem IsMagnitude.head (h : IsMagnitude separator w) :
    ∃ c rest, w = c :: rest ∧ (c.isDigit = true ∨ c = separator) := by
  obtain ⟨m, e, rfl, hm, _⟩ := h
  cases hm with
  | whole hds hne =>
    obtain ⟨d, ds, rfl⟩ := List.exists_cons_of_ne_nil hne
    exact ⟨d, ds ++ e, rfl, .inl (hds d (List.mem_cons_self ..))⟩
  | @split ds es hds =>
    cases ds with
    | nil => exact ⟨separator, es ++ e, rfl, .inr rfl⟩
    | cons d ds => exact ⟨d, ds ++ separator :: es ++ e, by simp, .inl (hds d (List.mem_cons_self ..))⟩

theorem IsMagnitude.opens (h : IsMagnitude separator w) (hseparator : opensNumber separator = true) :
    ∃ c rest, w = c :: rest ∧ opensNumber c = true := by
  obtain ⟨c, rest, rfl, hc | rfl⟩ := h.head
  · exact ⟨c, rest, rfl, by simp [opensNumber, hc]⟩
  · exact ⟨c, rest, rfl, hseparator⟩

theorem IsExponent.head (h : IsExponent w) : ∀ c ∈ w.head?, c.isDigit = false ∧ c ≠ '.' := by
  cases h with
  | none => nofun
  | some hmark =>
    rintro c ⟨rfl⟩
    rcases hmark with rfl | rfl <;> decide

/-- No word has a character that a number may begin with. -/
theorem IsWord.opensNumber (h : IsWord w) (hc : c ∈ w) : opensNumber c = false := by
  have hall : ∀ n < 0x40, Decimal.opensNumber (Char.ofNat n) = true → (Char.ofNat n).toLower.isAlpha = false := by
    decide +kernel
  refine Bool.eq_false_iff.2 fun hopens => ?_
  have hn : c.toNat < 0x40 := by
    simp only [Decimal.opensNumber, Bool.or_eq_true, beq_iff_eq] at hopens
    rcases hopens with (((hdigit | rfl) | rfl) | rfl) | rfl
    · simp [Char.isDigit, UInt32.le_iff_toNat_le] at hdigit
      omega
    all_goals decide
  have hlower := hall c.toNat hn
  rw [Char.ofNat_toNat] at hlower
  have hwords : ∀ v ∈ ["inf".toList, "infinity".toList, "nan".toList], v.all Char.isAlpha = true := by decide
  have halpha := List.all_eq_true.1 (hwords _ h) _ (List.mem_map_of_mem hc)
  rw [hlower hopens] at halpha
  cases halpha

theorem IsMagnitude.ne_sign (h : IsMagnitude '.' w) : ∀ c ∈ w.head?, c ≠ '-' ∧ c ≠ '+' := by
  obtain ⟨d, rest, rfl, hd⟩ := h.head
  rintro c ⟨rfl⟩
  constructor <;> rintro rfl <;> exact absurd hd (by decide)

theorem IsWord.ne_sign (h : IsWord w) : ∀ c ∈ w.head?, c ≠ '-' ∧ c ≠ '+' := by
  intro c hc
  have hopens := h.opensNumber (List.mem_of_head? hc)
  constructor <;> rintro rfl <;> exact absurd hopens (by decide)

theorem IsWord.head (h : IsWord w) : ∃ c rest, w = c :: rest := by
  cases w with
  | nil => exact absurd h (by decide)
  | cons c rest => exact ⟨c, rest, rfl⟩

/-! ## Reading numerals -/

theorem takeSign_append (hsign : IsSign sign) (hrest : ∀ c ∈ rest.head?, c ≠ '-' ∧ c ≠ '+') :
    (takeSign (sign ++ rest)).2 = rest := by
  cases hsign with
  | none =>
    rw [List.nil_append]
    unfold takeSign
    split
    · exact absurd rfl (hrest '-' rfl).1
    · exact absurd rfl (hrest '+' rfl).2
    · rfl
  | minus | plus => rfl

theorem exists_takeSign (w : List Char) : ∃ sign, IsSign sign ∧ w = sign ++ (takeSign w).2 := by
  unfold takeSign
  split
  · exact ⟨_, .minus, rfl⟩
  · exact ⟨_, .plus, rfl⟩
  · exact ⟨_, .none, rfl⟩

theorem digits_head (h : AllDigits ds) : ∀ c ∈ ds.head?, c ≠ '-' ∧ c ≠ '+' := by
  intro c hc
  have hc := h c (List.mem_of_head? hc)
  constructor <;> rintro rfl <;> exact absurd hc (by decide)

theorem readExponent_isSome : (readExponent w).isSome = true ↔ IsExponent w := by
  constructor
  · intro h
    cases w with
    | nil => exact .none
    | cons c rest =>
      obtain ⟨sign, hsign, hrest⟩ := exists_takeSign rest
      unfold readExponent at h
      dsimp only at h
      split at h
      · rename_i hc
        simp only [Bool.and_eq_true, Bool.or_eq_true, beq_iff_eq, Bool.not_eq_true', List.isEmpty_eq_false_iff,
          List.all_eq_true] at hc
        rw [hrest]
        exact .some hc.1.1 hsign hc.2 hc.1.2
      · cases h
  · rintro (_ | ⟨hmark, hsign, hds, hne⟩)
    · rfl
    · rename_i mark sign ds
      have hdigits := takeSign_append hsign (digits_head hds)
      unfold readExponent
      dsimp only
      rw [hdigits, if_pos]
      · rfl
      · simpa [hne] using ⟨hmark, hds⟩

theorem takeFraction_point (hes : AllDigits es) (hrest : ∀ c ∈ rest.head?, c.isDigit = false) :
    takeFraction ('.' :: (es ++ rest)) = (es, rest) := by
  obtain ⟨htake, hdrop⟩ := span_digits hes hrest
  rw [takeFraction, htake, hdrop]

theorem takeFraction_other (hrest : ∀ c ∈ rest.head?, c ≠ '.') : takeFraction rest = ([], rest) := by
  unfold takeFraction
  split
  · exact absurd rfl (hrest '.' rfl)
  · rfl

theorem exists_takeFraction (rest : List Char) :
    (takeFraction rest = ([], rest)) ∨
      ∃ es more, AllDigits es ∧ rest = '.' :: (es ++ more) ∧ takeFraction rest = (es, more) := by
  unfold takeFraction
  split
  · rename_i rest
    refine .inr ⟨_, _, fun _ => List.mem_takeWhile_imp, ?_, rfl⟩
    rw [List.takeWhile_append_dropWhile]
  · exact .inl rfl

/-- What is read as the magnitude of a numeral. -/
theorem readMagnitude_isSome (negative : Bool) : (readMagnitude negative w).isSome = true ↔ IsMagnitude '.' w := by
  unfold readMagnitude
  dsimp only
  constructor
  · intro h
    split at h
    · cases h
    · rename_i hne
      rw [Option.isSome_map, readExponent_isSome] at h
      have hwhole : AllDigits (w.takeWhile Char.isDigit) := fun _ => List.mem_takeWhile_imp
      have hw := List.takeWhile_append_dropWhile (p := Char.isDigit) (l := w)
      generalize w.takeWhile Char.isDigit = ds, w.dropWhile Char.isDigit = rest at h hne hwhole hw
      subst hw
      rcases exists_takeFraction rest with hfraction | ⟨es, more, hes, rfl, hfraction⟩ <;>
        rw [hfraction] at h hne
      · exact ⟨ds, rest, rfl, .whole hwhole (by simpa using hne), h⟩
      · exact ⟨ds ++ '.' :: es, more, by simp, .split hwhole hes (by simpa using hne), h⟩
  · rintro ⟨m, e, rfl, hm, he⟩
    have hdigit := fun c hc => (he.head c hc).1
    have hpoint := fun c hc => (he.head c hc).2
    cases hm with
    | whole hds hne =>
      obtain ⟨htake, hdrop⟩ := span_digits hds hdigit
      rw [htake, hdrop, takeFraction_other hpoint, if_neg (by simpa using hne), Option.isSome_map]
      exact readExponent_isSome.2 he
    | @split ds es hds hes hne =>
      rw [List.append_assoc, List.cons_append]
      obtain ⟨htake, hdrop⟩ := span_digits hds (show ∀ x ∈ ('.' :: (es ++ e)).head?, x.isDigit = false by simp)
      rw [htake, hdrop, takeFraction_point hes hdigit, if_neg (by simpa using hne), Option.isSome_map]
      exact readExponent_isSome.2 he

theorem readWord_isSome (negative : Bool) : (readWord negative w).isSome = true ↔ IsWord w := by
  have htext : ∀ t : String, Text.toSmallLatin (String.ofList w) = t ↔ w.map Char.toLower = t.toList := fun t => by
    rw [Text.toSmallLatin, ← String.toList_inj, String.toList_map, String.toList_ofList]
  unfold readWord IsWord
  simp only [htext, List.mem_cons, List.not_mem_nil, or_false, decide_eq_true_eq, Bool.or_eq_true]
  split
  · rename_i hinfinity
    exact iff_of_true rfl (hinfinity.imp_right .inl)
  · rename_i hinfinity
    rw [not_or] at hinfinity
    split
    · rename_i hnan
      exact iff_of_true rfl (.inr (.inr hnan))
    · rename_i hnan
      exact iff_of_false nofun (by simp only [hinfinity, hnan, or_self, not_false_eq_true])

/-- What is read as a numeral with a point. -/
theorem readNumeral_isSome_iff : (readNumeral w).isSome = true ↔ IsNumber '.' w ∨ IsWorded w := by
  have hread : (readNumeral w).isSome = true ↔ IsMagnitude '.' (takeSign w).2 ∨ IsWord (takeSign w).2 := by
    unfold readNumeral
    rw [← readMagnitude_isSome (takeSign w).1, ← readWord_isSome (takeSign w).1]
    cases hmagnitude : readMagnitude (takeSign w).1 (takeSign w).2 <;> simp [hmagnitude]
  rw [hread]
  constructor
  · obtain ⟨sign, hsign, hw⟩ := exists_takeSign w
    exact Or.imp (⟨sign, _, hw, hsign, ·⟩) (⟨sign, _, hw, hsign, ·⟩)
  · rintro (⟨sign, rest, rfl, hsign, h⟩ | ⟨sign, rest, rfl, hsign, h⟩)
    · rw [takeSign_append hsign h.ne_sign]
      exact .inl h
    · rw [takeSign_append hsign h.ne_sign]
      exact .inr h

/-! ## A comma for the point -/

theorem pointForComma_append (h : ',' ∉ w) (rest : List Char) : pointForComma (w ++ ',' :: rest) = w ++ '.' :: rest := by
  induction w with
  | nil => rfl
  | cons c w ih =>
    rw [List.mem_cons, not_or] at h
    rw [List.cons_append, pointForComma, ih h.2]
    · rfl
    · exact fun hc => h.1 hc.symm

theorem pointForComma_eq (h : ',' ∉ w) : pointForComma w = w := by
  induction w with
  | nil => rfl
  | cons c w ih =>
    rw [List.mem_cons, not_or] at h
    rw [pointForComma, ih h.2]
    exact fun hc => h.1 hc.symm

/-- Neither a point nor a comma is among the characters. -/
def Unseparated (w : List Char) : Prop := '.' ∉ w ∧ ',' ∉ w

theorem Unseparated.append (hw : Unseparated w) (hrest : Unseparated rest) : Unseparated (w ++ rest) := by
  simp only [Unseparated, List.mem_append, not_or] at *
  exact ⟨⟨hw.1, hrest.1⟩, hw.2, hrest.2⟩

theorem AllDigits.unseparated (h : AllDigits ds) : Unseparated ds :=
  ⟨not_mem_of_digits h (by decide), not_mem_of_digits h (by decide)⟩

theorem IsSign.unseparated (h : IsSign sign) : Unseparated sign := by
  cases h <;> constructor <;> decide

theorem IsExponent.unseparated (h : IsExponent w) : Unseparated w := by
  cases h with
  | none => exact ⟨nofun, nofun⟩
  | some hmark hsign hds _ =>
    have hrest := hsign.unseparated.append hds.unseparated
    simp only [Unseparated, List.mem_cons, not_or]
    rcases hmark with rfl | rfl <;> exact ⟨⟨by decide, hrest.1⟩, by decide, hrest.2⟩

theorem IsWorded.unseparated (h : IsWorded w) : Unseparated w := by
  obtain ⟨sign, word, rfl, hsign, hword⟩ := h
  refine hsign.unseparated.append ⟨fun hc => ?_, fun hc => ?_⟩ <;> exact absurd (hword.opensNumber hc) (by decide)

/-- A number has no separator, or one for which every other may stand. -/
theorem IsNumber.cases (h : IsNumber separator w) :
    Unseparated w ∧ (∀ other, IsNumber other w) ∨
      ∃ before after, w = before ++ separator :: after ∧ Unseparated before ∧ Unseparated after ∧
        ∀ other, IsNumber other (before ++ other :: after) := by
  obtain ⟨sign, _, rfl, hsign, m, e, rfl, hm, he⟩ := h
  cases hm with
  | whole hds hne =>
    exact .inl ⟨hsign.unseparated.append (hds.unseparated.append he.unseparated),
      fun _ => ⟨sign, m ++ e, rfl, hsign, m, e, rfl, .whole hds hne, he⟩⟩
  | @split ds es hds hes hne =>
    refine .inr ⟨sign ++ ds, es ++ e, by simp, hsign.unseparated.append hds.unseparated,
      hes.unseparated.append he.unseparated, fun other => ?_⟩
    exact ⟨sign, ds ++ other :: es ++ e, by simp, hsign, _, e, rfl, .split hds hes hne, he⟩

/-- A comma stands for the point where there is no point. -/
theorem isNumber_pointForComma (hpoint : '.' ∉ w) : IsNumber '.' (pointForComma w) ↔ IsNumber ',' w := by
  constructor
  · intro h
    by_cases hcomma : ',' ∈ w
    · obtain ⟨a, b, rfl, ha⟩ := List.eq_append_cons_of_mem hcomma
      rw [pointForComma_append ha] at h
      rcases h.cases with ⟨hfree, _⟩ | ⟨a', b', heq, _, _, hother⟩
      · exact absurd (by simp) hfree.1
      · have hfree : '.' ∉ a ∧ '.' ∉ b := by simpa using hpoint
        obtain ⟨rfl, _, rfl⟩ := (List.append_cons_inj_of_notMem hfree.1 hfree.2).1 heq
        exact hother ','
    · rw [pointForComma_eq hcomma] at h
      rcases h.cases with ⟨_, hother⟩ | ⟨a, b, rfl, _⟩
      · exact hother ','
      · exact absurd (by simp) hpoint
  · intro h
    rcases h.cases with ⟨hfree, hother⟩ | ⟨a, b, rfl, ha, _, hother⟩
    · rw [pointForComma_eq hfree.2]
      exact hother '.'
    · rw [pointForComma_append ha.2]
      exact hother '.'

theorem isWorded_pointForComma (hpoint : '.' ∉ w) : IsWorded (pointForComma w) ↔ IsWorded w := by
  by_cases hcomma : ',' ∈ w
  · obtain ⟨a, b, rfl, ha⟩ := List.eq_append_cons_of_mem hcomma
    rw [pointForComma_append ha]
    exact iff_of_false (fun h => h.unseparated.1 (by simp)) fun h => h.unseparated.2 hcomma
  · rw [pointForComma_eq hcomma]

/-! ## Texts of numbers -/

/-- Of the words, only those behind a sign begin like a number. -/
theorem isWorded_and_opens : w.head?.any opensNumber = true ∧ IsWorded w ↔ IsSignedWord w := by
  constructor
  · rintro ⟨hopens, sign, word, rfl, hsign, hword⟩
    cases hsign with
    | none =>
      obtain ⟨c, rest, rfl⟩ := hword.head
      have hc := hword.opensNumber (List.mem_cons_self ..)
      simp [hc] at hopens
    | minus => exact ⟨_, word, rfl, .inl rfl, hword⟩
    | plus => exact ⟨_, word, rfl, .inr rfl, hword⟩
  · rintro ⟨sign, word, rfl, rfl | rfl, hword⟩
    · exact ⟨rfl, _, word, rfl, .minus, hword⟩
    · exact ⟨rfl, _, word, rfl, .plus, hword⟩

theorem IsNumber.opens (h : IsNumber separator w) (hseparator : opensNumber separator = true) :
    w.head?.any opensNumber = true := by
  obtain ⟨sign, magnitude, rfl, hsign, hmagnitude⟩ := h
  cases hsign with
  | none =>
    obtain ⟨c, rest, rfl, hc⟩ := hmagnitude.opens hseparator
    exact hc
  | minus | plus => rfl

theorem IsDecimal.opens (h : IsDecimal w) : w.head?.any opensNumber = true := by
  rcases h with h | ⟨h, _⟩ <;> exact h.opens (by decide)

/-- No word behind a sign is a decimal number. -/
theorem IsSignedWord.not_isDecimal (h : IsSignedWord w) : ¬ IsDecimal w := by
  have hnumber : ∀ separator, opensNumber separator = true → separator ≠ '-' ∧ separator ≠ '+' →
      ¬ IsNumber separator w := by
    rintro separator hopens hne ⟨sign, magnitude, hw, hsign, hmagnitude⟩
    obtain ⟨sign', word, rfl, hsign', hword⟩ := h
    obtain ⟨c, rest, rfl, hc⟩ := hmagnitude.head
    have hc : opensNumber c = true ∧ c ≠ '-' ∧ c ≠ '+' := by
      rcases hc with hc | rfl
      · refine ⟨by simp [opensNumber, hc], ?_, ?_⟩ <;> rintro rfl <;> exact absurd hc (by decide)
      · exact ⟨hopens, hne⟩
    -- a sign in front of the magnitude is that in front of the word
    have hmem : c ∈ word := by
      cases hsign with
      | none =>
        rcases hsign' with rfl | rfl
        · exact absurd (List.cons.inj hw).1.symm hc.2.1
        · exact absurd (List.cons.inj hw).1.symm hc.2.2
      | minus | plus => rcases hsign' with rfl | rfl <;> simp_all
    rw [hword.opensNumber hmem] at hc
    exact absurd hc.1 (by decide)
  rintro (h | ⟨h, _⟩) <;> exact hnumber _ (by decide) (by decide) h

/-- The texts that are read as numbers are the decimal numbers, and the words for infinity and for what is not a number
behind a sign. -/
theorem parseNumber_isSome (s : String) :
    (parseNumber s).isSome = true ↔ IsDecimal (Text.trim s).toList ∨ IsSignedWord (Text.trim s).toList := by
  unfold parseNumber
  dsimp only
  generalize (Text.trim s).toList = w
  have hopens : IsDecimal w ∨ IsSignedWord w ↔ w.head?.any opensNumber = true ∧ (IsDecimal w ∨ IsWorded w) := by
    rw [← isWorded_and_opens]
    constructor
    · rintro (h | h)
      · exact ⟨h.opens, .inl h⟩
      · exact ⟨h.1, .inr h.2⟩
    · rintro ⟨hopens, h⟩
      exact h.imp_right (⟨hopens, ·⟩)
  rw [hopens]
  cases w.head?.any opensNumber with
  | false => simp
  | true =>
    by_cases hpoint : '.' ∈ w
    · have hdecimal : IsDecimal w ↔ IsNumber '.' w := or_iff_left fun h => h.2 hpoint
      simp [hpoint, readNumeral_isSome_iff, hdecimal]
    · have hdecimal : IsDecimal w ↔ IsNumber ',' w := by
        refine ⟨fun h => h.elim (fun h => ?_) And.left, fun h => .inr ⟨h, hpoint⟩⟩
        rcases h.cases with ⟨_, hother⟩ | ⟨a, b, rfl, _⟩
        · exact hother ','
        · exact absurd (by simp) hpoint
      simp [hpoint, readNumeral_isSome_iff, isNumber_pointForComma hpoint, isWorded_pointForComma hpoint, hdecimal]

/-- A number that is infinite or none at all. -/
def IsUnbounded (x : Float) : Prop := (∃ negative, x = infinity negative) ∨ x = 0.0 / 0.0

theorem IsWord.not_isMagnitude (h : IsWord w) : ¬ IsMagnitude '.' w := by
  rintro hmagnitude
  obtain ⟨c, rest, rfl, hc⟩ := hmagnitude.opens (by decide)
  rw [h.opensNumber (List.mem_cons_self ..)] at hc
  cases hc

theorem readWord_unbounded {negative : Bool} {x : Float} (h : readWord negative w = some x) : IsUnbounded x := by
  unfold readWord at h
  dsimp only at h
  split at h
  · cases h
    exact .inl ⟨_, rfl⟩
  · split at h
    · cases h
      exact .inr rfl
    · cases h

/-- A word behind a sign is read as a number that is infinite or none at all. -/
theorem parseNumber_of_isSignedWord {s : String} (h : IsSignedWord (Text.trim s).toList) {x : Float}
    (hx : parseNumber s = some x) : IsUnbounded x := by
  obtain ⟨hopens, hworded⟩ := isWorded_and_opens.2 h
  unfold parseNumber at hx
  dsimp only at hx
  rw [hopens, pointForComma_eq hworded.unseparated.2, ite_self] at hx
  obtain ⟨sign, word, hw, hsign, hword⟩ := hworded
  have hrest : (takeSign (Text.trim s).toList).2 = word := hw ▸ takeSign_append hsign hword.ne_sign
  have hnone := Option.not_isSome_iff_eq_none.1
    (mt (readMagnitude_isSome (takeSign (Text.trim s).toList).1).1 hword.not_isMagnitude)
  unfold readNumeral at hx
  simp only [hrest, hnone] at hx
  exact readWord_unbounded hx

end Decimal

/-! ## Texts in calculations -/

open Decimal

namespace Value

theorem toNumber_of_parseNumber {s : String} {x : Float} (h : parseNumber s = some x) :
    (text s).toNumber = .ok x := by
  rw [toNumber, h]

/-- A decimal number is read as a number, and so is a word for infinity or for what is not a number if a sign stands in
front of it. A calculation with any other text fails. -/
theorem toNumber_text (s : String) :
    (IsDecimal (Text.trim s).toList → ∃ x, parseNumber s = some x ∧ (text s).toNumber = .ok x) ∧
      (IsSignedWord (Text.trim s).toList →
        ∃ x, parseNumber s = some x ∧ (text s).toNumber = .ok x ∧ IsUnbounded x) ∧
      (¬ IsDecimal (Text.trim s).toList → ¬ IsSignedWord (Text.trim s).toList →
        parseNumber s = none ∧ ∃ f, (text s).toNumber = .error f ∧ f.code = .math) := by
  refine ⟨fun h => ?_, fun h => ?_, fun hdecimal hword => ?_⟩
  · obtain ⟨x, hx⟩ := Option.isSome_iff_exists.1 ((parseNumber_isSome s).2 (.inl h))
    exact ⟨x, hx, toNumber_of_parseNumber hx⟩
  · obtain ⟨x, hx⟩ := Option.isSome_iff_exists.1 ((parseNumber_isSome s).2 (.inr h))
    exact ⟨x, hx, toNumber_of_parseNumber hx, parseNumber_of_isSignedWord h hx⟩
  · have hnone : parseNumber s = none :=
      Option.not_isSome_iff_eq_none.1 (mt (parseNumber_isSome s).1 (not_or.2 ⟨hdecimal, hword⟩))
    refine ⟨hnone, ?_⟩
    rw [toNumber, hnone]
    exact ⟨_, rfl, rfl⟩

/-- A number with a comma and an exponent, a word behind a sign, and the same word without one. -/
theorem toNumber_text_words :
    (∃ x, parseNumber " -1,5e+3" = some x ∧ (text " -1,5e+3").toNumber = .ok x) ∧
      (∃ x, parseNumber "+NaN" = some x ∧ (text "+NaN").toNumber = .ok x ∧ IsUnbounded x) ∧
      parseNumber "NaN" = none ∧ ∃ f, (text "NaN").toNumber = .error f ∧ f.code = .math := by
  have hmantissa : IsMantissa ',' (['1'] ++ ',' :: ['5']) := .split (by decide) (by decide) (by decide)
  have hexponent : IsExponent ('e' :: (['+'] ++ ['3'])) := .some (.inl rfl) .plus (by decide) (by decide)
  have hopens : ("NaN".toList.head?.any opensNumber) = false := by decide
  refine ⟨(toNumber_text _).1 (.inr ⟨⟨['-'], "1,5e+3".toList, by decide, .minus, _, _, by decide, hmantissa, hexponent⟩,
    by decide⟩), (toNumber_text _).2.1 ⟨_, "NaN".toList, by decide, .inr rfl, by decide⟩,
    (toNumber_text _).2.2 (fun h => ?_) fun h => ?_⟩
  · exact absurd (hopens.symm.trans h.opens) (by decide)
  · exact absurd (hopens.symm.trans (isWorded_and_opens.2 h).1) (by decide)

/-- The word for infinity is read as a number behind a sign, although that is no decimal number. -/
theorem toNumber_text_infinity : ¬ ∀ s : String, (parseNumber s).isSome = true ↔ IsDecimal (Text.trim s).toList := by
  intro h
  have hword : IsSignedWord (Text.trim "-inf").toList := ⟨['-'], "inf".toList, by decide, .inl rfl, by decide⟩
  exact hword.not_isDecimal ((h "-inf").1 ((parseNumber_isSome "-inf").2 (.inr hword)))

end Value

end MacroBasic
