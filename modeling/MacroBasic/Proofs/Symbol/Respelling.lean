/-
Keywords written in other letters. Two texts that differ at most in the case of the letters of their keywords are
scanned in step: symbol by symbol they give the same classes, values and places, and where the text of a symbol differs
it is a keyword. A fault of scanning is the same in both.
-/
import MacroBasic.Proofs.Grammar.Asking
import Mathlib.Data.List.TakeWhile

namespace MacroBasic

open Text

/-! ## Texts that differ in the case of keywords -/

/-- The same character, or a letter from A to Z in its two cases. -/
def Text.SameLetter (a b : Char) : Prop := a.toUpper = b.toUpper

instance (a b : Char) : Decidable (SameLetter a b) := inferInstanceAs (Decidable (_ = _))

namespace Scanner

/-- What a character of a text belongs to. -/
inductive Region where
  | code
  | string
  | comment

/-- What the text behind a character belongs to. A string that is not closed ends with its line, as comments do. -/
def Region.behind (c : Char) : Region → Region
  | .code => if c = quote then .string else if c = commentMark then .comment else .code
  | .string => if c = quote || isBreak c then .code else .string
  | .comment => if isBreak c then .code else .comment

/-- The characters of a name or of a keyword. -/
structure IsWord (w : List Char) : Prop where
  opens : w.head?.any opensName = true
  continues : ∀ x ∈ w, continuesName x = true

theorem IsWord.ne_nil {w : List Char} (h : IsWord w) : w ≠ [] := by
  rintro rfl
  exact absurd h.opens (by simp)

/-- Two texts that differ at most in the case of the letters from A to Z in their keywords. A keyword stands outside of
strings and comments and has no character of a name behind it. -/
inductive Respelled : Region → List Char → List Char → Prop
  | nil {r : Region} : Respelled r [] []
  | same {r : Region} {c : Char} {s t : List Char} (hc : r = .code → opensName c = false)
      (h : Respelled (r.behind c) s t) : Respelled r (c :: s) (c :: t)
  | word {w w' s t : List Char} (hw : IsWord w) (hend : ∀ x ∈ s.head?, continuesName x = false)
      (hspelled : w' = w ∨ (Token.ofKeyword? (String.ofList w)).isSome = true ∧ List.Forall₂ SameLetter w w')
      (h : Respelled .code s t) : Respelled .code (w ++ s) (w' ++ t)

end Scanner

/-! ## Letters in two cases -/

theorem toNat_toUpper (c : Char) :
    c.toUpper.toNat = if 97 ≤ c.toNat ∧ c.toNat ≤ 122 then c.toNat - 32 else c.toNat := by
  have hlow : 'a'.val ≤ c.val ↔ 97 ≤ c.toNat := by rw [UInt32.le_iff_toNat_le]; rfl
  have hhigh : c.val ≤ 'z'.val ↔ c.toNat ≤ 122 := by rw [UInt32.le_iff_toNat_le]; rfl
  unfold Char.toUpper
  by_cases h : 97 ≤ c.toNat ∧ c.toNat ≤ 122
  · rw [dif_pos (by rw [hlow, hhigh]; exact h), if_pos h]
    show (c.val + ('A'.val - 'a'.val)).toNat = c.toNat - 32
    have hval : c.val.toNat = c.toNat := rfl
    have hshift : ('A'.val - 'a'.val).toNat = 2 ^ 32 - 32 := by decide
    rw [UInt32.toNat_add, hshift]
    omega
  · rw [dif_neg (by rw [hlow, hhigh]; exact h), if_neg h]

theorem isAlpha_iff (c : Char) :
    c.isAlpha = true ↔ 65 ≤ c.toNat ∧ c.toNat ≤ 90 ∨ 97 ≤ c.toNat ∧ c.toNat ≤ 122 := by
  show (decide (c.val ≥ 'A'.val ∧ c.val ≤ 'Z'.val) || (decide (c.val ≥ 'a'.val) && decide (c.val ≤ 'z'.val))) = true ↔ _
  simp [UInt32.le_iff_toNat_le]

theorem Text.SameLetter.isAlpha {a b : Char} (h : SameLetter a b) (hne : a ≠ b) : a.isAlpha = true ∧ b.isAlpha = true := by
  have hn : a.toUpper.toNat = b.toUpper.toNat := congrArg Char.toNat h
  rw [toNat_toUpper, toNat_toUpper] at hn
  have hne : a.toNat ≠ b.toNat := fun hsame => hne (Char.toNat_inj.1 hsame)
  rw [isAlpha_iff, isAlpha_iff]
  split at hn <;> split at hn <;> omega

namespace Scanner

/-- Each letter from A to Z may begin a name, and its capital is the one of its two cases. -/
theorem capitals_of_isAlpha {c : Char} (h : c.isAlpha = true) : opensName c = true ∧ capitals c = [c.toUpper] := by
  have hall : ∀ n < 128, (Char.ofNat n).isAlpha = true →
      opensName (Char.ofNat n) = true ∧ capitals (Char.ofNat n) = [(Char.ofNat n).toUpper] := by decide +kernel
  have hn : c.toNat < 128 := by
    have := (isAlpha_iff c).1 h
    omega
  have hc := hall c.toNat hn
  rw [Char.ofNat_toNat] at hc
  exact hc h

theorem continuesName_of_opensName {c : Char} (h : opensName c = true) : continuesName c = true := by
  unfold opensName at h
  unfold continuesName
  simp only [Bool.or_eq_true] at h ⊢
  tauto

theorem ne_of_opensName {x y : Char} (hx : opensName x = true) (hy : opensName y = false) : x ≠ y := by
  rintro rfl
  rw [hx] at hy
  cases hy

/-- A text differs in nothing from itself. -/
theorem Respelled.refl : (r : Region) → (s : List Char) → Respelled r s s
  | _, [] => .nil
  | .string, c :: s => .same nofun (.refl _ s)
  | .comment, c :: s => .same nofun (.refl _ s)
  | .code, c :: s =>
    if hc : opensName c = true then by
      -- the word that begins here is all that continues it, and what it leaves is shorter
      have hrest : Respelled .code (s.dropWhile continuesName) (s.dropWhile continuesName) := .refl _ _
      have hword : IsWord (c :: s.takeWhile continuesName) :=
        ⟨by simp [hc], fun x hx => (List.mem_cons.1 hx).elim (· ▸ continuesName_of_opensName hc)
          fun hx => List.mem_takeWhile_imp hx⟩
      have hend : ∀ x ∈ (s.dropWhile continuesName).head?, continuesName x = false := fun x hx => by
        simpa [Option.mem_def.1 hx] using List.head?_dropWhile_not continuesName s
      have h := Respelled.word hword hend (.inl rfl) hrest
      rwa [List.cons_append, List.takeWhile_append_dropWhile] at h
    else .same (fun _ => by simpa using hc) (.refl _ s)
termination_by _ s => s.length
decreasing_by all_goals
  have := (List.dropWhile_suffix continuesName (l := s)).length_le
  simp only [List.length_cons]
  omega

/-- No control character is part of a name. -/
theorem isControl_of_continuesName {c : Char} (h : continuesName c = true) : isControl c = false := by
  have hall : ∀ n < 0xa0, isControl (Char.ofNat n) = true → continuesName (Char.ofNat n) = false := by decide +kernel
  refine Bool.eq_false_iff.2 fun hcontrol => ?_
  have hn : c.toNat < 0xa0 := by
    simp only [isControl, Bool.or_eq_true, Bool.and_eq_true, decide_eq_true_eq] at hcontrol
    omega
  have hc := hall c.toNat hn
  rw [Char.ofNat_toNat] at hc
  rw [hc hcontrol] at h
  cases h

theorem next_of_continuesName {c : Cursor} {x : Char} {s : List Char} (hrest : c.rest = x :: s)
    (hx : continuesName x = true) : c.next = .ok (some (x, c.pass s)) :=
  Cursor.next_of_not_isControl hrest (isControl_of_continuesName hx)

section Letters

variable {a b : Char} {w w' : List Char}

theorem opensName_of_sameLetter (h : SameLetter a b) (ha : opensName a = true) : opensName b = true := by
  by_cases hne : a = b
  · exact hne ▸ ha
  · exact (capitals_of_isAlpha (h.isAlpha hne).2).1

theorem continuesName_of_sameLetter (h : SameLetter a b) (ha : continuesName a = true) : continuesName b = true := by
  by_cases hne : a = b
  · exact hne ▸ ha
  · exact continuesName_of_opensName (capitals_of_isAlpha (h.isAlpha hne).2).1

theorem capitals_of_sameLetter (h : SameLetter a b) : capitals a = capitals b := by
  by_cases hne : a = b
  · rw [hne]
  · obtain ⟨ha, hb⟩ := h.isAlpha hne
    rw [(capitals_of_isAlpha ha).2, (capitals_of_isAlpha hb).2, h]

/-- Whether a text is a keyword, and which one, does not hang on the case of its letters. -/
theorem ofKeyword?_of_sameLetters (h : List.Forall₂ SameLetter w w') :
    Token.ofKeyword? (String.ofList w) = Token.ofKeyword? (String.ofList w') := by
  have hcapitals : w.flatMap capitals = w'.flatMap capitals := by
    induction h with
    | nil => rfl
    | cons hab _ ih => rw [List.flatMap_cons, List.flatMap_cons, capitals_of_sameLetter hab, ih]
  unfold Token.ofKeyword? toCapitals
  rw [String.toList_ofList, String.toList_ofList, hcapitals]

end Letters

/-! ## Cursors -/

/-- Two cursors at one place, in texts that differ at most in the case of keywords. -/
structure InStep (r : Region) (c d : Cursor) : Prop where
  rest : Respelled r c.rest d.rest
  place : d = { c with rest := d.rest }

/-- Two cursors at one place, in front of what is left of a name or keyword in two spellings. -/
structure InWord (run run' : List Char) (c d : Cursor) : Prop where
  continues : ∀ x ∈ run, continuesName x = true
  letters : List.Forall₂ SameLetter run run'
  rest : ∃ s t, c.rest = run ++ s ∧ d = { c with rest := run' ++ t } ∧ (∀ x ∈ s.head?, continuesName x = false) ∧
    Respelled .code s t

/-- What reading one character comes to in two texts that differ at most in the case of keywords. -/
inductive Reading : Region → Except Fault (Option (Char × Cursor)) → Except Fault (Option (Char × Cursor)) → Prop
  | none {r : Region} : Reading r (.ok none) (.ok none)
  | error {r : Region} (f : Fault) : Reading r (.error f) (.error f)
  | same {r : Region} {x : Char} {c d : Cursor} (hx : r = .code → opensName x = false)
      (hbreak : isBreak x = true → x = '\n') (h : InStep (r.behind x) c d) :
    Reading r (.ok (some (x, c))) (.ok (some (x, d)))
  | word {x x' : Char} {run run' : List Char} {c d : Cursor} (hx : opensName x = true) (hx' : opensName x' = true)
      (hspelled : x' :: run' = x :: run ∨ (Token.ofKeyword? (String.ofList (x :: run))).isSome = true)
      (hletter : SameLetter x x') (h : InWord run run' c d) : Reading .code (.ok (some (x, c))) (.ok (some (x', d)))

variable {r : Region} {c d : Cursor}

theorem sameLetters_of_spelled {w w' : List Char} {p : Prop} (h : w' = w ∨ p ∧ List.Forall₂ SameLetter w w') :
    List.Forall₂ SameLetter w w' := by
  rcases h with rfl | ⟨_, h⟩
  · exact List.forall₂_same.2 fun _ _ => rfl
  · exact h

/-- A line break of two characters is one in both texts. -/
theorem Respelled.afterBreak {s t : List Char} (h : Respelled .code s t) (first : Char) :
    Respelled .code (Cursor.afterBreak first s).1 (Cursor.afterBreak first t).1 ∧
      (Cursor.afterBreak first s).2 = (Cursor.afterBreak first t).2 := by
  generalize hr : Region.code = r at h
  cases h with
  | nil => exact ⟨.nil, rfl⟩
  | @same _ x s t hx h =>
    subst hr
    unfold Cursor.afterBreak
    dsimp only
    by_cases hbreak : (isBreak x && x != first) = true
    · rw [if_pos hbreak, if_pos hbreak]
      have hne : x ≠ quote ∧ x ≠ commentMark := by
        rw [Bool.and_eq_true] at hbreak
        rcases isBreak_iff.1 hbreak.1 with rfl | rfl <;> decide
      rw [Region.behind, if_neg hne.1, if_neg hne.2] at h
      exact ⟨h, rfl⟩
    · rw [if_neg hbreak, if_neg hbreak]
      exact ⟨.same hx h, rfl⟩
  | @word w w' s t hw hend hspelled h =>
    obtain ⟨x, run, rfl⟩ := List.exists_cons_of_ne_nil hw.ne_nil
    have hletters := sameLetters_of_spelled hspelled
    have hx := hw.continues x (List.mem_cons_self ..)
    obtain ⟨x', run', hxx', _, rfl⟩ := List.forall₂_cons_left_iff.1 hletters
    have hx' := continuesName_of_sameLetter hxx' hx
    have hbreak := (Cursor.plain_of_not_isControl (isControl_of_continuesName hx)).1
    have hbreak' := (Cursor.plain_of_not_isControl (isControl_of_continuesName hx')).1
    simp only [Cursor.afterBreak, List.cons_append, hbreak, hbreak', Bool.false_and, Bool.false_eq_true, if_false]
    exact ⟨.word hw hend hspelled h, trivial⟩

theorem InStep.passBreak {s t : List Char} {a : Char} (hst : Respelled .code s t) (rest : List Char) :
    InStep .code (c.passBreak a s) (Cursor.passBreak { c with rest := rest } a t) := by
  obtain ⟨hrest, hcount⟩ := hst.afterBreak a
  refine ⟨hrest, ?_⟩
  simp only [Cursor.passBreak, Cursor.here, hcount]

/-- A character that both texts have. -/
theorem reading_same {a : Char} {s t : List Char} (ha : r = .code → opensName a = false)
    (hst : Respelled (r.behind a) s t) (hrest : c.rest = a :: s) :
    Reading r c.next (Cursor.next { c with rest := a :: t }) := by
  cases hbreak : isBreak a with
  | true =>
    have hline : '\n' ≠ quote ∧ '\n' ≠ commentMark ∧ opensName '\n' = false ∧ isBreak '\n' = true := by decide
    have hbehind : r.behind a = .code ∧ r.behind '\n' = .code := by
      have hne : a ≠ quote ∧ a ≠ commentMark := by
        rcases isBreak_iff.1 hbreak with rfl | rfl <;> decide
      cases r <;> simp [Region.behind, hne.1, hne.2, hbreak, hline]
    rw [hbehind.1] at hst
    rw [Cursor.next_break hrest hbreak, Cursor.next_break rfl hbreak]
    refine .same (fun _ => hline.2.2.1) (fun _ => rfl) ?_
    rw [hbehind.2]
    exact .passBreak hst _
  | false =>
    rw [Cursor.next_cons hrest hbreak, Cursor.next_cons rfl hbreak]
    split
    · exact .error _
    · by_cases htab : a = '\t'
      · subst htab
        exact .same (fun _ => by decide) (by decide) ⟨by cases r <;> exact hst, rfl⟩
      · rw [shown, if_neg htab]
        exact .same ha (by simp [hbreak]) ⟨hst, rfl⟩

/-- The next character is read alike in both texts, unless it begins a keyword. -/
theorem InStep.next (h : InStep r c d) : Reading r c.next d.next := by
  obtain ⟨hrest, hplace⟩ := h
  rw [hplace]
  generalize hs : c.rest = s, d.rest = t at hrest
  cases hrest with
  | nil =>
    rw [Cursor.next_nil hs, Cursor.next_nil rfl]
    exact .none
  | same ha hst => exact reading_same ha hst hs
  | @word w w' s t hw hend hspelled hst =>
    obtain ⟨x, run, rfl⟩ := List.exists_cons_of_ne_nil hw.ne_nil
    have hletters := sameLetters_of_spelled hspelled
    obtain ⟨x', run', hxx', hrun, rfl⟩ := List.forall₂_cons_left_iff.1 hletters
    have hopens : opensName x = true := by simpa using hw.opens
    have hopens' := opensName_of_sameLetter hxx' hopens
    rw [next_of_continuesName hs (continuesName_of_opensName hopens),
      next_of_continuesName rfl (continuesName_of_opensName hopens')]
    refine .word hopens hopens' (hspelled.imp id And.left) hxx' ⟨?_, hrun, s, t, rfl, rfl, hend, hst⟩
    exact fun y hy => hw.continues y (List.mem_cons_of_mem _ hy)

/-- A comment is passed over to the end of its line. -/
theorem InStep.skipLine (h : InStep .comment c d) : InStep .code c.skipLine d.skipLine := by
  have key : ∀ (s : List Char) {t : List Char} {c d : Cursor}, c.rest = s → Respelled .comment s t →
      d = { c with rest := t } → InStep .code (Cursor.skipLine.go c s) (Cursor.skipLine.go d t) := by
    intro s
    induction s with
    | nil =>
      intro t c d hc hst hd
      cases hst
      subst hd
      have hnil : Respelled .code c.rest [] := by rw [hc]; exact .nil
      exact ⟨hnil, rfl⟩
    | cons a s ih =>
      intro t c d hc hst hd
      -- no keyword begins inside of a comment
      cases hst with
      | @same _ _ _ t _ hst =>
        rw [Cursor.skipLine.go, Cursor.skipLine.go]
        cases hbreak : isBreak a with
        | true =>
          have hne : opensName a = false ∧ a ≠ quote ∧ a ≠ commentMark := by
            rcases isBreak_iff.1 hbreak with rfl | rfl <;> decide
          rw [Region.behind, if_pos hbreak] at hst
          rw [if_pos rfl, if_pos rfl]
          subst hd
          refine ⟨hc ▸ .same (fun _ => hne.1) ?_, rfl⟩
          rwa [Region.behind, if_neg hne.2.1, if_neg hne.2.2]
        | false =>
          rw [Region.behind, if_neg (by simp [hbreak])] at hst
          exact ih rfl hst (by rw [hd]; rfl)
  exact key c.rest rfl h.rest h.place

/-! ## Runs of characters -/

/-- What two scans come to that read alike: results in relation with the cursors in step, or one fault. -/
inductive Kept {α : Type} (R : α → α → Prop) : Scan α → Scan α → Prop
  | ok {a b : α} {c d : Cursor} : R a b → InStep .code c d → Kept R (.ok a c) (.ok b d)
  | error (f : Fault) {c d : Cursor} : Kept R (.error f c) (.error f d)

/-- Characters that stand for themselves outside of strings and comments. -/
def IsMark (p : Char → Bool) : Prop := ∀ x, p x = true → opensName x = false ∧ x ≠ quote ∧ x ≠ commentMark

theorem isMark_isDigit : IsMark Char.isDigit := by
  intro x hx
  refine ⟨opensName_of_isDigit hx, ?_, ?_⟩ <;> rintro rfl <;> exact absurd hx (by decide)

theorem isMark_beq {x : Char} (h : opensName x = false ∧ x ≠ quote ∧ x ≠ commentMark) : IsMark (· == x) :=
  fun _ hy => eq_of_beq hy ▸ h

theorem isMark_continuesRelation (ch : Char) : IsMark (continuesRelation ch) := by
  intro x hx
  simp only [continuesRelation, Bool.or_eq_true, Bool.and_eq_true, beq_iff_eq] at hx
  rcases hx with rfl | ⟨_, rfl⟩ <;> decide

section Runs

variable {p : Char → Bool}

theorem IsMark.behind (hp : IsMark p) {x : Char} (hx : p x = true) : Region.behind x .code = .code := by
  rw [Region.behind, if_neg (hp x hx).2.1, if_neg (hp x hx).2.2]

theorem IsMark.opens (hp : IsMark p) {x : Char} (hx : opensName x = true) : p x = false :=
  Bool.eq_false_iff.2 fun h => by simp [(hp x h).1] at hx

theorem takeWhile_inStep (hp : IsMark p) {c d : Cursor} (h : InStep .code c d) :
    Kept Eq (takeWhile p c) (takeWhile p d) := by
  rw [takeWhile_eq p c, takeWhile_eq p d]
  have hnext := h.next
  generalize hc : c.next = x, d.next = y at hnext
  cases hnext with
  | none => exact .ok rfl h
  | error f => exact .error f
  | word hx hx' =>
    simp only [hp.opens hx, hp.opens hx', Bool.false_eq_true, if_false]
    exact .ok rfl h
  | @same _ x after after' _ _ ha =>
    have := Cursor.next_length hc
    dsimp only
    split
    · rename_i hx
      rw [hp.behind hx] at ha
      have ih := takeWhile_inStep hp ha
      generalize takeWhile p after = u, takeWhile p after' = v at ih
      cases ih with
      | ok hrun hb => exact .ok (congrArg (x :: ·) hrun) hb
      | error f => exact .error f
    · exact .ok rfl h
termination_by c.rest.length

theorem takeIf_inStep (hp : IsMark p) (h : InStep .code c d) : Kept Eq (takeIf p c) (takeIf p d) := by
  unfold takeIf
  have hnext := h.next
  generalize c.next = x, d.next = y at hnext
  cases hnext with
  | none => exact .ok rfl h
  | error f => exact .error f
  | word hx hx' =>
    simp only [hp.opens hx, hp.opens hx', Bool.false_eq_true, if_false]
    exact .ok rfl h
  | same _ _ ha =>
    dsimp only
    split
    · rename_i hx
      rw [hp.behind hx] at ha
      exact .ok rfl ha
    · exact .ok rfl h

end Runs

theorem number_inStep (h : InStep .code c d) : Kept Eq (number c) (number d) := by
  unfold number
  have hw := takeWhile_inStep isMark_isDigit h
  generalize takeWhile Char.isDigit c = x, takeWhile Char.isDigit d = y at hw
  cases hw with
  | error f => exact .error f
  | @ok whole _ c d hwhole h =>
    subst hwhole
    dsimp only
    have hp := takeIf_inStep (isMark_beq (x := '.') (by decide)) h
    generalize takeIf (· == '.') c = x, takeIf (· == '.') d = y at hp
    cases hp with
    | error f => exact .error f
    | @ok point _ c d hpoint h =>
      subst hpoint
      cases point with
      | none => exact .ok rfl h
      | some point =>
        dsimp only
        have hf := takeWhile_inStep isMark_isDigit h
        generalize takeWhile Char.isDigit c = x, takeWhile Char.isDigit d = y at hf
        cases hf with
        | error f => exact .error f
        | ok hfraction h => exact .ok (by rw [hfraction]) h

/-- The texts of strings are the same. -/
theorem string_inStep {c d : Cursor} (h : InStep .string c d) : Kept Eq (string c) (string d) := by
  rw [string_eq c, string_eq d]
  have hnext := h.next
  have hlast : d.last = c.last := by rw [h.place]
  generalize hc : c.next = x, d.next = y at hnext
  cases hnext with
  | none =>
    dsimp only
    rw [hlast]
    exact .error _
  | error f => exact .error f
  | @same _ x after after' _ hbreak ha =>
    have := Cursor.next_length hc
    dsimp only
    split
    · rw [ha.place]
      exact .error _
    · rename_i hline
      split
      · rename_i hquote
        rw [Region.behind, if_pos (by simp [hquote])] at ha
        have hsecond := ha.next
        generalize hc' : after.next = u, after'.next = v at hsecond
        cases hsecond with
        | none => exact .ok rfl ha
        | error f => exact .error f
        -- the string is closed, and a name or keyword follows at once
        | word hx hx' =>
          dsimp only
          rw [if_neg (ne_of_opensName hx (by decide)), if_neg (ne_of_opensName hx' (by decide))]
          exact .ok rfl ha
        | @same _ second behind behind' _ _ hb =>
          have := Cursor.next_length hc'
          dsimp only
          split
          · rename_i hsecond
            rw [Region.behind, if_pos hsecond] at hb
            have ih := string_inStep hb
            generalize string behind = u, string behind' = v at ih
            cases ih with
            | ok hrun hb => exact .ok (congrArg (quote :: ·) hrun) hb
            | error f => exact .error f
          · exact .ok rfl ha
      · rename_i hquote
        rw [Region.behind, if_neg (by simpa [hquote] using fun h => hline (hbreak h))] at ha
        have ih := string_inStep ha
        generalize string after = u, string after' = v at ih
        cases ih with
        | ok hrun hb => exact .ok (congrArg (x :: ·) hrun) hb
        | error f => exact .error f
termination_by c.rest.length

/-- What follows a name or keyword does not go on with it in either text. -/
theorem Respelled.ends {s t : List Char} (h : Respelled .code s t) (hs : ∀ x ∈ s.head?, continuesName x = false) :
    ∀ x ∈ t.head?, continuesName x = false := by
  generalize hr : Region.code = r at h
  cases h with
  | nil => exact hs
  | same => simpa using hs
  | @word w w' s t hw hend hspelled h =>
    obtain ⟨x, run, rfl⟩ := List.exists_cons_of_ne_nil hw.ne_nil
    exact absurd (hw.continues x (List.mem_cons_self ..)) (by simp [hs x rfl])

/-- A name or keyword ends in front of a character that does not go on with it, or of one that cannot be read. -/
theorem takeWhile_of_ends (h : ∀ x ∈ c.rest.head?, continuesName x = false) :
    takeWhile continuesName c = match c.next with
      | .error f => .error f c
      | .ok _ => .ok [] c := by
  have hspace : continuesName ' ' = false ∧ continuesName '\n' = false := by decide
  rw [takeWhile_eq]
  rcases hrest : c.rest with _ | ⟨a, s⟩
  · rw [Cursor.next_nil hrest]
  · have ha : continuesName a = false := h a (by rw [hrest]; rfl)
    cases hbreak : isBreak a with
    | true =>
      rw [Cursor.next_break hrest hbreak]
      simp [hspace.2]
    | false =>
      have hshown : continuesName (shown a) = false := by
        unfold shown
        split
        · exact hspace.1
        · exact ha
      rw [Cursor.next_cons hrest hbreak]
      cases isControl (shown a) <;> simp [hshown]

/-- What is left of a name or keyword is taken as a whole in both texts. -/
theorem takeWhile_inWord {run run' : List Char} {c d : Cursor} (h : InWord run run' c d) :
    Kept (fun u v => u = run ∧ v = run') (takeWhile continuesName c) (takeWhile continuesName d) := by
  obtain ⟨hcontinues, hletters, s, t, hc, hd, hend, hst⟩ := h
  induction hletters generalizing c d with
  -- nothing is left of the word, and what follows does not go on with it
  | nil =>
    rw [takeWhile_of_ends (by rwa [hc]), takeWhile_of_ends (by rw [hd]; exact hst.ends hend)]
    have hcode : InStep .code c d := ⟨by rw [hc, hd]; exact hst, by rw [hd]⟩
    have hnext := hcode.next
    generalize c.next = x, d.next = y at hnext
    cases hnext with
    | none => exact .ok ⟨rfl, rfl⟩ hcode
    | error f => exact .error f
    | same => exact .ok ⟨rfl, rfl⟩ hcode
    | word => exact .ok ⟨rfl, rfl⟩ hcode
  | @cons x x' run run' hxx' _ ih =>
    have hx := hcontinues x (List.mem_cons_self ..)
    have hx' := continuesName_of_sameLetter hxx' hx
    rw [takeWhile_eq continuesName c, takeWhile_eq continuesName d, next_of_continuesName hc hx,
      next_of_continuesName (s := run' ++ t) (by rw [hd]; rfl) hx']
    simp only [hx, hx', if_true]
    have htail := ih (c := c.pass (run ++ s)) (d := d.pass (run' ++ t))
      (fun y hy => hcontinues y (List.mem_cons_of_mem _ hy)) rfl (by rw [hd]; rfl)
    generalize takeWhile continuesName (c.pass (run ++ s)) = u, takeWhile continuesName (d.pass (run' ++ t)) = v at htail
    cases htail with
    | ok hrun hb => exact .ok ⟨by rw [hrun.1], by rw [hrun.2]⟩ hb
    | error f => exact .error f

/-! ## Symbols -/

/-- Symbols that differ at most in the spelling of a keyword. -/
structure SameWord (s t : Symbol) : Prop where
  token : s.token = t.token
  text : s.text = t.text ∨ ∃ k ∈ Token.keywords, k.2 = s.token
  position : s.position = t.position
  value : s.value = t.value

theorem SameWord.refl (s : Symbol) : SameWord s s := ⟨rfl, .inl rfl, rfl, rfl⟩

/-- The symbol that a character gives which both texts have. -/
theorem symbol_inStep {ch : Char} (hch : opensName ch = false) (h : InStep (Region.behind ch .code) c d) :
    Kept SameWord (symbol ch c) (symbol ch d) := by
  have hlast : d.last = c.last := by rw [h.place]
  have hcode : ch ≠ quote → ch ≠ commentMark → InStep .code c d := fun hq hm => by
    rwa [Region.behind, if_neg hq, if_neg hm] at h
  -- the cases are those of the scanner: a sign, a relation, an operator with `=`, a text and a number
  unfold symbol
  simp only [hlast]
  split
  · rename_i token hsingle
    have hne : ch ≠ quote ∧ ch ≠ commentMark := by constructor <;> rintro rfl <;> cases hsingle
    exact .ok (.refl _) (hcode hne.1 hne.2)
  · split
    · rename_i hrelation
      have hne : ch ≠ quote ∧ ch ≠ commentMark := by
        constructor <;> rintro rfl <;> exact absurd hrelation (by decide)
      have hs := takeIf_inStep (isMark_continuesRelation ch) (hcode hne.1 hne.2)
      generalize takeIf (continuesRelation ch) c = x, takeIf (continuesRelation ch) d = y at hs
      cases hs with
      | error f => exact .error f
      | ok hsecond hb => subst hsecond; exact .ok (.refl _) hb
    · split
      · rename_i op hjoinable
        have hne : ch ≠ quote ∧ ch ≠ commentMark := by constructor <;> rintro rfl <;> cases hjoinable
        have hs := takeIf_inStep (isMark_beq (x := '=') (by decide)) (hcode hne.1 hne.2)
        generalize takeIf (· == '=') c = x, takeIf (· == '=') d = y at hs
        cases hs with
        | error f => exact .error f
        | @ok second _ _ _ hsecond hb =>
          subst hsecond
          cases second <;> exact .ok (.refl _) hb
      · split
        · rename_i hquote
          rw [Region.behind, if_pos hquote] at h
          have hs := string_inStep h
          generalize string c = x, string d = y at hs
          cases hs with
          | error f => exact .error f
          | ok hrun hb => subst hrun; exact .ok (.refl _) hb
        · split
          · rename_i hquote hdigit
            have hs := number_inStep (hcode hquote (by rintro rfl; exact absurd hdigit (by decide)))
            generalize number c = x, number d = y at hs
            cases hs with
            | error f => exact .error f
            | ok hrun hb =>
              subst hrun
              dsimp only
              split
              · exact .ok (.refl _) hb
              · exact .error _
          · rw [if_neg (by simp [hch]), if_neg (by simp [hch])]
            exact .error _

/-- A character that begins a name begins nothing else. -/
theorem symbol_of_opensName {ch : Char} (h : opensName ch = true) (c : Cursor) :
    symbol ch c = match takeWhile continuesName c with
      | .error f c => .error f c
      | .ok run after =>
        .ok { token := (Token.ofKeyword? (String.ofList (ch :: run))).getD .name, text := String.ofList (ch :: run)
              position := c.last } after := by
  have hsingle : single? ch = none := by
    unfold single?
    split <;> first | rfl | exact absurd h (by decide)
  have hjoinable : joinable? ch = none := by
    unfold joinable?
    split <;> first | rfl | exact absurd h (by decide)
  have hdigit : ch.isDigit = false := Bool.eq_false_iff.2 fun hdigit => by simp [opensName_of_isDigit hdigit] at h
  have hrelation : ¬ (decide (ch = '<') || decide (ch = '>')) = true := by
    simp [ne_of_opensName h (show opensName '<' = false by decide),
      ne_of_opensName h (show opensName '>' = false by decide)]
  unfold symbol
  dsimp only
  rw [hsingle]
  dsimp only
  rw [if_neg hrelation, hjoinable]
  dsimp only
  rw [if_neg (ne_of_opensName h (by decide)), hdigit, if_neg Bool.false_ne_true]
  refine (if_pos h).trans ?_
  cases takeWhile continuesName c <;> rfl

/-- A name or keyword in two spellings gives one symbol, but for the text of a keyword. -/
theorem symbol_inWord {x x' : Char} {run run' : List Char} (hx : opensName x = true) (hx' : opensName x' = true)
    (hspelled : x' :: run' = x :: run ∨ (Token.ofKeyword? (String.ofList (x :: run))).isSome = true)
    (hletter : SameLetter x x') (h : InWord run run' c d) : Kept SameWord (symbol x c) (symbol x' d) := by
  have hlast : d.last = c.last := by
    obtain ⟨s, t, _, hd, _⟩ := h.rest
    rw [hd]
  have hword := ofKeyword?_of_sameLetters (.cons hletter h.letters)
  have hrun := takeWhile_inWord h
  rw [symbol_of_opensName hx, symbol_of_opensName hx', hlast]
  generalize takeWhile continuesName c = u, takeWhile continuesName d = v at hrun
  cases hrun with
  | error f => exact .error f
  | ok hrun hb =>
    obtain ⟨rfl, rfl⟩ := hrun
    refine .ok ⟨by simp only [hword], ?_, rfl, rfl⟩ hb
    refine hspelled.imp (fun hsame => by simp only [hsame]) fun hkeyword => ?_
    obtain ⟨token, htoken⟩ := Option.isSome_iff_exists.1 hkeyword
    simp only [htoken, Option.getD_some]
    obtain ⟨before, after, hkeywords, _⟩ := List.lookup_eq_some_iff.1 htoken
    exact ⟨(toCapitals _, token), hkeywords ▸ List.mem_append_right _ (List.mem_cons_self ..), rfl⟩

/-- What is met behind spaces and comments in two texts that differ at most in the case of keywords. -/
inductive Met : Scan (Option Char) → Scan (Option Char) → Prop
  | none {c d : Cursor} (h : InStep .code c d) : Met (.ok none c) (.ok none d)
  | error (f : Fault) {c d : Cursor} : Met (.error f c) (.error f d)
  | some {x x' : Char} {c d : Cursor} (h : Reading .code (.ok (some (x, c))) (.ok (some (x', d)))) :
    Met (.ok (some x) c) (.ok (some x') d)

theorem skipBlanks_inStep {c d : Cursor} (h : InStep .code c d) : Met (skipBlanks c) (skipBlanks d) := by
  rw [skipBlanks_eq c, skipBlanks_eq d]
  have hnext := h.next
  generalize hc : c.next = x, d.next = y at hnext
  cases hnext with
  | none => exact .none h
  | error f => exact .error f
  | word hx hx' hspelled hletter hword =>
    have hfree : opensName commentMark = false ∧ opensName ' ' = false := by decide
    dsimp only
    rw [if_neg (ne_of_opensName hx hfree.1), if_neg (ne_of_opensName hx hfree.2), if_neg (ne_of_opensName hx' hfree.1),
      if_neg (ne_of_opensName hx' hfree.2)]
    exact .some (.word hx hx' hspelled hletter hword)
  | @same _ x after after' hx hbreak ha =>
    have hlen := Cursor.next_length hc
    have hline := Cursor.skipLine_length after
    dsimp only
    split
    · rename_i hmark
      subst hmark
      exact skipBlanks_inStep (InStep.skipLine ha)
    · split
      · rename_i hspace
        subst hspace
        exact skipBlanks_inStep ha
      · exact .some (.same hx hbreak ha)
termination_by c.rest.length

/-- The symbols that begin with the characters met are the same but for the spelling of a keyword. -/
theorem symbol_met {x x' : Char} (h : Met (.ok (some x) c) (.ok (some x') d)) :
    Kept SameWord (symbol x c) (symbol x' d) := by
  cases h with
  | some h =>
    cases h with
    | same hx _ ha => exact symbol_inStep (hx rfl) ha
    | word hx hx' hspelled hletter hword => exact symbol_inWord hx hx' hspelled hletter hword

theorem endOfSource_inStep {r : Region} (h : InStep r c d) : endOfSource c = endOfSource d := by
  rw [h.place]
  rfl

end Scanner

end MacroBasic
