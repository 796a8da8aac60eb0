/-
The addresses in compiled code. Whatever source is compiled, every branch leads onward within the code or closes
a loop, every call leads to the body of a routine of the script, and the body of a routine can be entered only by
a call and left only by a return.
-/
import MacroBasic.Proofs.Grammar.Branches
import MacroBasic.Proofs.Program.Plain
import MacroBasic.Proofs.Program.Stability

namespace MacroBasic

open Machine

/-- The addresses in some code, given the bodies of its routines and its loops. -/
structure WellBranched (bodies : List Span) (circuits : List Circuit) (code : List Instruction) : Prop where
  /-- No address is left open, and none is beyond the end. -/
  within : ∀ (a : Nat) i (t : Nat), code[a]? = some i → i.aim? = some t ∨ i = .call t → 0 < t ∧ t ≤ code.length
  /-- Only the branch that closes a loop goes back. -/
  onward : ∀ (a : Nat) i (t : Nat), code[a]? = some i → i.aim? = some t →
    a < t ∨ ∃ c ∈ circuits, a = c.close ∧ t = c.again
  called : ∀ (a t : Nat), code[a]? = some (.call t) → ∃ b ∈ bodies, b.first = t
  /-- No branch leads into the body of a routine or out of it. -/
  closed : ∀ (a : Nat) i (t : Nat), code[a]? = some i → i.aim? = some t → ∀ b ∈ bodies, b.Contains a ↔ b.Contains t
  looped : ∀ c ∈ circuits, c.first < c.again ∧ c.again ≤ c.close ∧ c.close < c.stop ∧ c.stop ≤ code.length
  framed : ∀ b ∈ bodies, 0 < b.first ∧ b.first < b.stop ∧ b.stop ≤ code.length ∧
    code[b.first - 1]? = some (.jump b.stop) ∧ code[b.stop - 1]? = some .ret

namespace Block

variable {b : Block}

theorem mem_bodies {s : Span} : s ∈ b.bodies ↔ ∃ y ∈ b.parts 0, y.2.body? y.1 = some s := List.mem_filterMap

theorem mem_circuits {c : Circuit} : c ∈ b.circuits ↔ ∃ y ∈ b.parts 0, y.2.circuit? y.1 = some c := List.mem_filterMap

theorem lodged (b : Block) : Lodged (b.parts 0) b.size (b.parts 0) 0 (0 + b.size) :=
  ⟨List.Subset.refl _, by omega, fun _ hy => .inl hy⟩

theorem looped {c : Circuit} (h : c ∈ b.circuits) :
    c.first < c.again ∧ c.again ≤ c.close ∧ c.close < c.stop ∧ c.stop ≤ b.size := by
  obtain ⟨y, hy, hc⟩ := mem_circuits.1 h
  have hpart := b.parts_within hy
  obtain ⟨_, hagain, hclose, hstop, hend⟩ := Stmt.circuit_within hc
  exact ⟨hagain, hclose, hstop, by omega⟩

theorem framed {s : Span} (h : s ∈ b.bodies) :
    0 < s.first ∧ s.first < s.stop ∧ s.stop ≤ b.size ∧
      (instructionsOf (b.lines 0))[s.first - 1]? = some (.jump s.stop) ∧
      (instructionsOf (b.lines 0))[s.stop - 1]? = some .ret := by
  obtain ⟨y, hy, hs⟩ := mem_bodies.1 h
  have hpart := b.parts_within hy
  obtain ⟨_, _, hend⟩ := Stmt.body_within hs
  have hcode : CodeAt (b.lines 0).toArray 0 (instructionsOf (b.lines 0)) := by
    intro i x hx
    have := getElem?_instructionsOf (b.lines 0).toArray i
    rw [Nat.zero_add]
    exact this.symm.trans hx
  obtain ⟨q, hcode⟩ := b.codeAt_parts hcode hy
  obtain ⟨hpos, hlt, hjump, hret⟩ := Stmt.codeAt_body hcode hs
  rw [← getElem?_instructionsOf] at hjump hret
  exact ⟨hpos, hlt, by omega, hjump, hret⟩

/-- The addresses in the code of a script that keeps the rules. -/
theorem wellBranched {R : Rules} (hR : R.routine = (· ∈ b.routines 0)) (ho : b.Obeys R [] false) (hp : b.Proper R) :
    WellBranched b.bodies b.circuits (instructionsOf (b.lines 0)) := by
  have hlength : (instructionsOf (b.lines 0)).length = b.size := by simp
  have haimed {a : Nat} {i : Instruction} (hi : (instructionsOf (b.lines 0))[a]? = some i) :
      Aimed R (b.parts 0) b.size a i := by
    have := b.aimed ho hp b.lodged a i hi
    rwa [Nat.zero_add] at this
  have hcalled {a t : Nat} (hi : (instructionsOf (b.lines 0))[a]? = some (.call t)) : ∃ s ∈ b.bodies, s.first = t := by
    obtain ⟨r, hr, rfl⟩ := (haimed hi).called t rfl
    rw [hR] at hr
    obtain ⟨y, hy, s, hs, hfirst⟩ := b.body_of_routine hr
    exact ⟨s, mem_bodies.2 ⟨y, hy, hs⟩, hfirst⟩
  -- a branch leads onward, or it closes a loop and leads back to where that begins again
  have honward {a t : Nat} {i : Instruction} (hi : (instructionsOf (b.lines 0))[a]? = some i) (ht : i.aim? = some t) :
      a < t ∨ ∃ c ∈ b.circuits, a = c.close ∧ t = c.again := by
    rcases (haimed hi).onward t ht with h | ⟨y, hy, c, hc, hclose, hagain⟩
    · exact .inl h
    · exact .inr ⟨c, mem_circuits.2 ⟨y, hy, hc⟩, hclose.symm, hagain.symm⟩
  constructor
  case within =>
    rintro a i t hi (ht | rfl)
    · rw [hlength]
      refine ⟨?_, (haimed hi).within t ht⟩
      rcases honward hi ht with h | ⟨c, hc, _, rfl⟩
      · exact Nat.zero_lt_of_lt h
      · exact Nat.zero_lt_of_lt (looped hc).1
    · obtain ⟨s, hs, rfl⟩ := hcalled hi
      obtain ⟨hpos, hlt, hstop, _⟩ := framed hs
      exact ⟨hpos, by rw [hlength]; exact Nat.le_of_lt (Nat.lt_of_lt_of_le hlt hstop)⟩
  case onward =>
    intro a i t hi ht
    exact honward hi ht
  case called =>
    intro a t hi
    exact hcalled hi
  case closed =>
    intro a i t hi ht s hs
    obtain ⟨y, hy, hbody⟩ := mem_bodies.1 hs
    exact (haimed hi).together t ht y hy s hbody
  case looped =>
    intro c hc
    rw [hlength]
    exact looped hc
  case framed =>
    intro s hs
    rw [hlength]
    exact framed hs

end Block

/-! ## Shared bindings -/

/-- Nothing that is done with programs shares a routine with an address. -/
theorem Scope.stable_unaddressed : Stable Unaddressed where
  empty := .empty
  allocate hb h := h.allocate hb
  assign? hassign h := h.assign? hassign
  unbound h := h.unbound
  clear _ := .empty
  worked hworked h := hworked.unaddressed h

/-- Whatever has been done with programs, what they share with the embedding program are values. -/
theorem History.unaddressed {deeds : List Deed} {programs : List Program} (h : History deeds programs) :
    ∀ p ∈ programs, p.external.Unaddressed := h.external_of_stable Scope.stable_unaddressed

/-! ## Compiling -/

namespace Program

theorem compile_eq_ok {p compiled : Program} {source : String} : p.compile source = (.ok (), compiled) ↔
    ∃ body, Grammar.script (.ofString source) p.options.explicit p.options.external p.external = .ok body ∧
      compiled = { p with lines := (body.lines 0).toArray, state := .idle, error := none } := by
  unfold compile compileLines
  cases hscript : Grammar.script (.ofString source) p.options.explicit p.options.external p.external with
  | error f =>
    constructor
    · rintro ⟨⟩
    · rintro ⟨_, ⟨⟩, _⟩
  | ok body =>
    constructor
    · rintro ⟨⟩
      exact ⟨body, rfl, rfl⟩
    · rintro ⟨_, ⟨⟩, rfl⟩
      rfl

/-- The code of every source that compiles is well formed, whatever has been done with the program before. The routine
bodies and the loops in it are those of the script that the source has been read as. -/
theorem compile_wellBranched {deeds : List Deed} {programs : List Program} (h : History deeds programs) {p : Program}
    (hp : p ∈ programs) (source : String) (compiled : Program) (hcompile : p.compile source = (.ok (), compiled)) :
    ∃ body, Grammar.script (.ofString source) p.options.explicit p.options.external p.external = .ok body ∧
      compiled.lines = (body.lines 0).toArray ∧
      WellBranched body.bodies body.circuits (instructionsOf compiled.lines.toList) := by
  obtain ⟨body, hscript, rfl⟩ := compile_eq_ok.1 hcompile
  refine ⟨body, hscript, rfl, ?_⟩
  refine Block.wellBranched (b := body) (R := ⟨(· ≠ returnName), (· ∈ body.routines 0)⟩) rfl ?_ ?_
  · apply Grammar.script_obeys hscript (h.unaddressed p hp)
    · exact fun _ hsym htoken => Scanner.scan_name hsym htoken
    · exact fun _ hr => hr
  · apply Grammar.script_proper hscript
    exact ⟨fun _ hsym htoken => Scanner.scan_name hsym htoken, fun _ hsym => Scanner.scan_value hsym⟩

/-- A function with a sub in it that leaves a loop early, called from the test of another loop. -/
theorem compile_wellBranched_nested :
    let p : Program := (Program.new { explicit := false }).importAdd "X" (.boolean true) .variable
    let source := "FUNCTION F(N)\nSUB S\nDO\nEXIT DO\nLOOP\nEND SUB\nS\nEND FUNCTION\nDO WHILE X AND F(X)\nLOOP"
    ∃ (deeds : List Deed) (compiled : Program) (body : Block), History deeds [p] ∧
      p.compile source = (.ok (), compiled) ∧ compiled.lines = (body.lines 0).toArray ∧
      body.bodies.length = 2 ∧ body.circuits.length = 2 ∧
      WellBranched body.bodies body.circuits (instructionsOf compiled.lines.toList) := by
  intro p source
  have hhistory : History [⟨0, .importAdd "X" (.boolean true) .variable, .new { explicit := false }, p⟩] [p] :=
    (History.start _).deed rfl rfl
  have hparts : (Grammar.script (.ofString source) p.options.explicit p.options.external p.external).toOption.map
      (fun body => (body.bodies.length, body.circuits.length)) = some (2, 2) := by decide +kernel
  cases hscript : Grammar.script (.ofString source) p.options.explicit p.options.external p.external with
  | error f =>
    rw [hscript] at hparts
    cases hparts
  | ok body =>
    rw [hscript] at hparts
    obtain ⟨hbodies, hcircuits⟩ := Prod.mk.inj (Option.some.inj hparts)
    have hcompile := compile_eq_ok.2 ⟨body, hscript, rfl⟩
    obtain ⟨body', hscript', hlines, hwell⟩ :=
      compile_wellBranched hhistory (List.mem_singleton.2 rfl) source _ hcompile
    obtain rfl : body = body' := Except.ok.inj (hscript.symm.trans hscript')
    exact ⟨_, _, body, hhistory, hcompile, hlines, hbodies, hcircuits, hwell⟩

end Program

end MacroBasic
