/-
Parses that give the same tree. Where two texts have the same symbols, up to an end symbol, and the names that
can be seen from outside are of the same kinds, the parser gives the same tree or raises the same fault. If the
rules of the second parse allow more, it still gives every tree that the first one gives.
-/
import MacroBasic.Proofs.Grammar.LikeScripts

namespace MacroBasic

/-! ## Trees with unchanged places -/

mutual

@[simp] theorem Stmt.placed_id : (s : Stmt) → s.placed id = s
  | .routine _ _ _ body => by rw [Stmt.placed, Block.placed_id body]
  | .branch _ yes => by rw [Stmt.placed, Block.placed_id yes]
  | .branchElse _ yes no => by rw [Stmt.placed, Block.placed_id yes, Block.placed_id no]
  | .countLoop _ _ _ _ body => by rw [Stmt.placed, Block.placed_id body]
  | .guardLoop _ body _ => by rw [Stmt.placed, Block.placed_id body]
  | .share _ | .declare _ | .constants _ | .exitLoop _ _ | .exitRoutine | .print _ | .notify _ | .dialog _ _
  | .assign _ _ _ | .call _ _ => rfl

@[simp] theorem Block.placed_id : (b : Block) → b.placed id = b
  | .nil => rfl
  | .cons _ first rest => by rw [Block.placed, Stmt.placed_id first, Block.placed_id rest]; rfl

end

namespace Grammar.Likeness

/-- Symbols and faults that are the same, and names that stand for bindings of which the parser asks the same. A
lenient one lets the second parse go on where the first one fails. -/
def identical (lenient : Prop) : Likeness where
  symbol := Eq
  binding := Binding.Resembles
  fault := Eq
  place := id
  lenient := lenient
  symbol_eof _ := rfl
  token h := congrArg Symbol.token h
  value h _ := congrArg Symbol.value h
  name h _ := congrArg Symbol.text h
  position h := congrArg Symbol.position h
  outline h := h
  declared b _ := .refl b
  raised h _ _ _ _ hmn := by rw [h, hmn (congrArg Symbol.text h)]
  unaddressed h _ _ _ _ := by rw [h]

theorem identical_keepsBreaks (lenient : Prop) : (identical lenient).KeepsBreaks := fun h => congrArg Symbol.isNewline h

/-- The symbols of a text may take their own places. -/
theorem Symbols.refl {L : Likeness} (hL : ∀ s, L.symbol s s) {u : Except Fault Symbol} (h : L.Endings u u)
    (s : List Symbol) : L.Symbols u u s s := by
  induction s with
  | nil => exact .nil h
  | cons a s ih => exact .cons (hL a) ih

theorem identical_endings (lenient : Prop) (u : Except Fault Symbol) : (identical lenient).Endings u u := by
  cases u with
  | ok s => exact .ok rfl
  | error f => exact .error rfl

theorem identical_left (lenient : Prop) (env : Context) (s : List Symbol) : (identical lenient).Left env env s s :=
  .refl (fun _ => rfl) (identical_endings lenient env.ending) s

theorem identical_texts (lenient : Prop) (x : MacroBasic.Symbols) : (identical lenient).Texts x x :=
  .refl (fun _ => rfl) (identical_endings lenient x.ending) x.ahead

theorem identical_surrounds (lenient : Prop) (env : Context) : (identical lenient).Surrounds env env :=
  ⟨List.forall₂_same.2 fun _ _ => .refl fun _ _ => rfl, .inl rfl, .inl rfl⟩

/-- Trees that are the same up to their places, where places stay as they are. -/
abbrev SameTree (lenient : Prop) (b b' : Block) : Prop :=
  b.placed (identical lenient).place = b'.placed (identical lenient).place

theorem SameTree.eq {lenient : Prop} {b b' : Block} (h : SameTree lenient b b') : b = b' := by
  rw [← Block.placed_id b, ← Block.placed_id b']
  exact h

/-- Two texts that the parser cannot tell apart give the same tree or the same fault, where the shared names are of
the same kinds. -/
theorem script_eq {x y : MacroBasic.Symbols} (h : (identical False).Texts x y) (explicit external : Bool)
    {shared shared' : Scope} (hshared : (identical False).Frames shared.unbound shared'.unbound) :
    script x explicit external shared = script y explicit external shared' := by
  have halike := script_alike h (identical_keepsBreaks False) hshared (.inl rfl : explicit = explicit ∨ _)
    (.inl rfl : external = external ∨ _) rfl
  generalize script x explicit external shared = u, script y explicit external shared' = v at halike
  cases halike with
  | ok hb => rw [SameTree.eq hb]
  | error hf => rw [show _ = _ from hf]
  | refused h => exact h.elim

/-- Rules that allow more do not change the tree of a script that parses. -/
theorem script_relaxed {x : MacroBasic.Symbols} {explicit explicit' external external' : Bool} {shared : Scope}
    {b : Block} (h : script x explicit external shared = .ok b) (hexplicit : explicit = explicit' ∨ explicit' = false)
    (hexternal : external = external' ∨ external' = true) : script x explicit' external' shared = .ok b := by
  have halike := script_alike (identical_texts True x) (identical_keepsBreaks True)
    (.refl fun _ _ => rfl : Frames _ shared.unbound shared.unbound)
    (hexplicit.imp_right (⟨trivial, ·⟩)) (hexternal.imp_right (⟨trivial, ·⟩)) rfl
  rw [h] at halike
  generalize script x explicit' external' shared = v at halike
  cases halike with
  | ok hb => rw [SameTree.eq hb]

end Grammar.Likeness

end MacroBasic
