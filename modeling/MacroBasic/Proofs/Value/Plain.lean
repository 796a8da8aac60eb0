/-
Plain values: the numbers, texts and booleans that scripts work with. Operators give plain values whatever they are
given. A value that is not plain can be read as nothing else, and the text of the fault that says so is the end of no
text of a fault that an operator has on plain values.
-/
import MacroBasic.Proofs.Value.Calculation

namespace MacroBasic

namespace Value

/-- A number, a text or a boolean. -/
def Plain : Value → Prop
  | .number _ | .text _ | .boolean _ => True
  | .uninitialized | .address _ => False

instance : DecidablePred Plain
  | .number _ | .text _ | .boolean _ => .isTrue trivial
  | .uninitialized | .address _ => .isFalse id

/-- The text of a fault of reading a value that is not plain as something else, or of comparing it. -/
def Misreads (message : String) : Prop :=
  ∃ v : Value, ¬ v.Plain ∧
    (v.toNumber = .error (mathFault message) ∨ v.toInteger = .error (mathFault message) ∨
      v.toBoolean = .error (mathFault message) ∨ v.toText = .error (mathFault message) ∨
      ∃ test w, ordered test v w = .error (mathFault message) ∨ ordered test w v = .error (mathFault message))

/-! ## Texts of faults -/

def plainKinds : List String := ["number", "text", "boolean"]

def strayKinds : List String := ["uninitialized", "address"]

def conversions : List String := [" value to a number", " value to a boolean", " value to text"]

/-- The characters of the texts of the faults of values that are not plain. -/
def misreadings : List (List Char) :=
  (strayKinds.flatMap fun k => conversions.map fun c => "Cannot convert ".toList ++ k.toList ++ c.toList) ++
    strayKinds.flatMap fun k => (plainKinds ++ strayKinds).flatMap fun k' =>
      ["Cannot compare ".toList ++ k.toList ++ " with ".toList ++ k'.toList,
       "Cannot compare ".toList ++ k'.toList ++ " with ".toList ++ k.toList]

section Stray

variable {v l r : Value} {m : String}

theorem kindName_mem (v : Value) : v.kindName ∈ plainKinds ++ strayKinds := by
  cases v <;> simp [kindName, plainKinds, strayKinds]

theorem kindName_of_plain (h : v.Plain) : v.kindName ∈ plainKinds := by
  cases v with
  | number | text | boolean => simp [kindName, plainKinds]
  | uninitialized | address => cases h

theorem kindName_of_stray (h : ¬ v.Plain) : v.kindName ∈ strayKinds := by
  cases v with
  | number | text | boolean => exact absurd trivial h
  | uninitialized | address => simp [kindName, strayKinds]

theorem convert_mem (h : ¬ v.Plain) {c : String} (hc : c ∈ conversions) :
    ("Cannot convert " ++ v.kindName ++ c).toList ∈ misreadings := by
  rw [String.toList_append, String.toList_append]
  exact List.mem_append_left _ (List.mem_flatMap.2 ⟨_, kindName_of_stray h, List.mem_map_of_mem hc⟩)

theorem compare_mem (h : ¬ l.Plain ∨ ¬ r.Plain) :
    ("Cannot compare " ++ l.kindName ++ " with " ++ r.kindName).toList ∈ misreadings := by
  rw [String.toList_append, String.toList_append, String.toList_append]
  refine List.mem_append_right _ (List.mem_flatMap.2 ?_)
  rcases h with h | h
  · exact ⟨_, kindName_of_stray h, List.mem_flatMap.2 ⟨_, r.kindName_mem, by simp⟩⟩
  · exact ⟨_, kindName_of_stray h, List.mem_flatMap.2 ⟨_, l.kindName_mem, by simp⟩⟩

theorem message_eq_of_error {α : Type} {m m' : String}
    (h : (.error (mathFault m) : Except Fault α) = .error (mathFault m')) : m = m' :=
  congrArg Fault.message (Except.error.inj h)

theorem ordered_of_stray {test : Ordering → Bool} (h : ¬ l.Plain ∨ ¬ r.Plain) :
    ordered test l r = .error (mathFault ("Cannot compare " ++ l.kindName ++ " with " ++ r.kindName)) := by
  rcases h with h | h
  · cases l with
    | number | text | boolean => exact absurd trivial h
    | uninitialized | address => rfl
  · cases r with
    | number | text | boolean => exact absurd trivial h
    | uninitialized | address =>
      unfold ordered
      cases l with
      | number | boolean | uninitialized | address => rfl
      | text s => cases hs : (Value.text s).toNumber <;> rfl

/-- No value that is not plain can be read as a number, an integer, a truth or a text. -/
theorem reads_of_stray (h : ¬ v.Plain) :
    v.toNumber = .error (mathFault ("Cannot convert " ++ v.kindName ++ " value to a number")) ∧
    v.toInteger = .error (mathFault ("Cannot convert " ++ v.kindName ++ " value to a number")) ∧
    v.toBoolean = .error (mathFault ("Cannot convert " ++ v.kindName ++ " value to a boolean")) ∧
    v.toText = .error (mathFault ("Cannot convert " ++ v.kindName ++ " value to text")) := by
  cases v with
  | number | text | boolean => exact absurd trivial h
  | uninitialized | address => exact ⟨rfl, rfl, rfl, rfl⟩

theorem mem_misreadings (h : Misreads m) : m.toList ∈ misreadings := by
  obtain ⟨v, hv, h⟩ := h
  obtain ⟨hnumber, hinteger, hboolean, htext⟩ := reads_of_stray hv
  rcases h with h | h | h | h | ⟨test, w, h | h⟩
  · rw [hnumber] at h
    rw [← message_eq_of_error h]
    exact convert_mem hv (by simp [conversions])
  · rw [hinteger] at h
    rw [← message_eq_of_error h]
    exact convert_mem hv (by simp [conversions])
  · rw [hboolean] at h
    rw [← message_eq_of_error h]
    exact convert_mem hv (by simp [conversions])
  · rw [htext] at h
    rw [← message_eq_of_error h]
    exact convert_mem hv (by simp [conversions])
  · rw [ordered_of_stray (.inl hv)] at h
    rw [← message_eq_of_error h]
    exact compare_mem (.inl hv)
  · rw [ordered_of_stray (.inr hv)] at h
    rw [← message_eq_of_error h]
    exact compare_mem (.inr hv)

end Stray

/-- The end of a text that tells it from every text of a fault of a value that is not plain. -/
def Telling (t : List Char) : Prop := ∀ w ∈ misreadings, ¬ t <:+ w ∧ ¬ w <:+ t

/-- A text with an end that tells it from the texts of the faults of values that are not plain. -/
def Told (message : String) : Prop := ∃ t, t <:+ message.toList ∧ Telling t

theorem Told.not_suffix {m : String} (h : Told m) (before : String) {w : String} (hw : Misreads w) :
    ¬ w.toList <:+ (before ++ m).toList := by
  obtain ⟨t, ht, htells⟩ := h
  intro hsuffix
  rw [String.toList_append] at hsuffix
  obtain ⟨hno, hno'⟩ := htells w.toList (mem_misreadings hw)
  rcases List.suffix_or_suffix_of_suffix hsuffix (ht.trans (List.suffix_append ..)) with h | h
  · exact hno' h
  · exact hno h

theorem told_of_end (before after : String) {m : String} (hm : m = before ++ after) (h : Telling after.toList) : Told m := by
  refine ⟨after.toList, ?_, h⟩
  rw [hm, String.toList_append]
  exact List.suffix_append ..

theorem told_of_self {m : String} (h : Telling m.toList) : Told m := ⟨m.toList, List.suffix_refl _, h⟩

instance (t : List Char) : Decidable (Telling t) :=
  inferInstanceAs (Decidable (∀ w ∈ misreadings, ¬ t <:+ w ∧ ¬ w <:+ t))

/-- What tells the fault of a calculation with plain values: the end of its text, or all of it. -/
def tellingEnds : List String :=
  ["' to a number", " is not an integer", "' to a boolean", "Division by zero", "Overflow"]

theorem telling_of_mem {t : String} (h : t ∈ tellingEnds) : Telling t.toList := by
  have htells : ∀ t ∈ tellingEnds, Telling t.toList := by decide +kernel
  exact htells t h

theorem mem_positional {d : Decimal.Digits} {c : Char} (h : c ∈ d.positional) : c.isDigit ∨ c = '.' := by
  have hdigits {c : Char} (hc : c ∈ Decimal.digitsOf d.coefficient) : c.isDigit ∨ c = '.' :=
    .inl (Nat.isDigit_of_mem_toDigits (by decide) (by decide) hc)
  unfold Decimal.Digits.positional at h
  simp only at h
  split at h
  · rcases List.mem_append.1 h with h | h
    · exact hdigits h
    · rw [List.eq_of_mem_replicate h]
      exact .inl rfl
  · split at h
    · rcases List.mem_append.1 h with h | h
      · exact hdigits (List.mem_of_mem_take h)
      · rcases List.mem_cons.1 h with rfl | h
        · exact .inr rfl
        · exact hdigits (List.mem_of_mem_drop h)
    · rcases List.mem_append.1 h with h | h
      · rcases List.mem_cons.1 h with rfl | h
        · exact .inl rfl
        · rcases List.mem_cons.1 h with rfl | h
          · exact .inr rfl
          · rw [List.eq_of_mem_replicate h]
            exact .inl rfl
      · exact hdigits h

/-- No number is written with a capital C. -/
theorem not_mem_plain (x : Float) : 'C' ∉ (Decimal.plain x).toList := by
  unfold Decimal.plain Decimal.render
  split
  · decide
  · decide
  · decide
  · rename_i negative b _
    rw [String.toList_ofList, List.mem_append, not_or]
    constructor
    · cases negative <;> simp
    · intro h
      rcases mem_positional h with h | h
      · exact absurd h (by decide)
      · exact absurd h (by decide)

/-- The fault of a factorial is told by the comma in front of the number. -/
theorem told_factorial (x : Float) : Told ("Factorial needs a non-negative integer, not " ++ Decimal.plain x) := by
  have hletters : ∀ w ∈ misreadings, ',' ∉ w ∧ 'C' ∈ w := by decide +kernel
  refine told_of_end "Factorial needs a non-negative integer" (", not " ++ Decimal.plain x)
    (by rw [← String.append_assoc]; rfl) ?_
  intro w hw
  obtain ⟨hcomma, hcapital⟩ := hletters w hw
  rw [String.toList_append]
  constructor
  · intro h
    exact hcomma (h.subset (List.mem_append_left _ (by decide)))
  · intro h
    rcases List.mem_append.1 (h.subset hcapital) with h | h
    · exact absurd h (by decide)
    · exact not_mem_plain x h

/-! ## Calculations with plain values -/

/-- A calculation gives a good result, or it has a fault whose text is told from those of values that are not plain. -/
def Serves {α : Type} (good : α → Prop) : Except Fault α → Prop
  | .ok a => good a
  | .error f => ∃ m, f = mathFault m ∧ Told m

theorem Serves.bind {α β : Type} {good : α → Prop} {good' : β → Prop} {x : Except Fault α} {k : α → Except Fault β}
    (hx : Serves good x) (hk : ∀ a, good a → Serves good' (k a)) : Serves good' (x >>= k) := by
  cases x with
  | ok a => exact hk a hx
  | error f => exact hx

/-- A number or a text that an operator works with can be any. -/
abbrev Any {α : Type} (_ : α) : Prop := True

section Serves

variable {v l r : Value}

theorem toNumber_serves (h : v.Plain) : Serves Any v.toNumber := by
  cases v with
  | number | boolean => trivial
  | uninitialized | address => cases h
  | text s =>
    unfold toNumber
    simp only
    split
    · trivial
    · exact ⟨_, rfl, told_of_end ("Cannot convert '" ++ s) "' to a number" rfl
          (telling_of_mem (by simp [tellingEnds]))⟩

theorem toInteger_serves (h : v.Plain) : Serves Any v.toInteger := by
  refine (toNumber_serves h).bind fun x _ => ?_
  split
  · trivial
  · exact ⟨_, rfl, told_of_end (Decimal.plain x) " is not an integer" rfl
      (telling_of_mem (by simp [tellingEnds]))⟩

theorem toBoolean_serves (h : v.Plain) : Serves Any v.toBoolean := by
  cases v with
  | number | boolean => trivial
  | uninitialized | address => cases h
  | text s =>
    unfold toBoolean
    simp only
    split
    · trivial
    · split
      · trivial
      · split
        · trivial
        · exact ⟨_, rfl, told_of_end ("Cannot convert '" ++ s) "' to a boolean" rfl
          (telling_of_mem (by simp [tellingEnds]))⟩

theorem toText_serves (h : v.Plain) : Serves Any v.toText := by
  cases v with
  | number | boolean | text => trivial
  | uninitialized | address => cases h

theorem numeric_serves {g : Float → Float → Except Fault Float} (hg : ∀ x y, Serves Any (g x y)) (hl : l.Plain)
    (hr : r.Plain) : Serves Plain (numeric g l r) :=
  (toNumber_serves hl).bind fun x _ => (toNumber_serves hr).bind fun y _ => (hg x y).bind fun _ _ => trivial

theorem connect_serves (logical : Bool → Bool → Bool) (bitwise : Int64 → Int64 → Int64) (hl : l.Plain)
    (hr : r.Plain) : Serves Plain (connect logical bitwise l r) := by
  unfold connect
  split
  · trivial
  · exact (toInteger_serves hl).bind fun x _ => (toInteger_serves hr).bind fun y _ => trivial

theorem same_serves (hl : l.Plain) (hr : r.Plain) : Serves Any (same l r) := by
  unfold same
  split
  · trivial
  · trivial
  · exact (toText_serves hl).bind fun s _ => (toText_serves hr).bind fun t _ => trivial

theorem ordered_serves (test : Ordering → Bool) (hl : l.Plain) (hr : r.Plain) :
    Serves Plain (ordered test l r) := by
  have htells : ∀ k ∈ plainKinds, ∀ k' ∈ plainKinds,
      Telling ("Cannot compare ".toList ++ k.toList ++ " with ".toList ++ k'.toList) := by decide +kernel
  unfold ordered
  split
  · trivial
  · split
    · trivial
    · refine ⟨_, rfl, told_of_self ?_⟩
      show Telling ("Cannot compare " ++ l.kindName ++ " with " ++ r.kindName).toList
      rw [String.toList_append, String.toList_append, String.toList_append]
      exact htells _ (kindName_of_plain hl) _ (kindName_of_plain hr)

theorem divisionByZero_serves : Serves Any (.error divisionByZero : Except Fault Float) :=
  ⟨_, rfl, told_of_self (telling_of_mem (by simp [tellingEnds]))⟩

theorem divideInt_serves (hl : l.Plain) (hr : r.Plain) : Serves Plain (divideInt l r) := by
  refine (toInteger_serves hl).bind fun x _ => (toInteger_serves hr).bind fun y _ => ?_
  by_cases hzero : y = 0
  · rw [if_pos hzero]
    exact ⟨_, rfl, told_of_self (telling_of_mem (by simp [tellingEnds]))⟩
  · rw [if_neg hzero]
    by_cases hover : x = Int64.minValue ∧ y = -1
    · rw [if_pos hover]
      exact ⟨_, rfl, told_of_self (telling_of_mem (by simp [tellingEnds]))⟩
    · rw [if_neg hover]
      trivial

theorem factorial_serves (x : Float) : Serves Any (factorial x) := by
  unfold factorial
  split
  · exact ⟨_, rfl, told_factorial x⟩
  · trivial

end Serves

end Value

open Value in
/-- Operators of one operand give plain values. -/
theorem UnaryOperator.apply_serves (op : UnaryOperator) {v : Value} (h : v.Plain) : Serves Plain (op.apply v) := by
  cases op with
  | not => exact (toBoolean_serves h).bind fun b _ => trivial
  | factorial => exact (toNumber_serves h).bind fun x _ => (factorial_serves x).bind fun y _ => trivial
  | negate | sin | cos | tan | atan => exact (toNumber_serves h).bind fun x _ => trivial

open Value in
/-- Operators of two operands give plain values. -/
theorem BinaryOperator.apply_serves (op : BinaryOperator) {l r : Value} (hl : l.Plain) (hr : r.Plain) :
    Serves Plain (op.apply l r) := by
  cases op with
  | add | subtract | multiply | power => exact numeric_serves (fun _ _ => trivial) hl hr
  | divide | modulus =>
    refine numeric_serves (fun x y => ?_) hl hr
    split
    · exact divisionByZero_serves
    · trivial
  | divideInt => exact divideInt_serves hl hr
  | concat => exact (toText_serves hl).bind fun s _ => (toText_serves hr).bind fun t _ => trivial
  | or | and => exact connect_serves _ _ hl hr
  | equal | notEqual => exact (same_serves hl hr).bind fun b _ => trivial
  | less | lessEqual | greater | greaterEqual => exact ordered_serves _ hl hr

end MacroBasic
