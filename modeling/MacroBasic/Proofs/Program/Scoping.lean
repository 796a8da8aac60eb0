/-
Where names are found. The parser finds every name that a script uses in the scope of one of the realms around it.
When a run comes there, the scopes of these realms are among those of the run, and what the name stands for is
looked up in the latest scope of the realm where the parser has found it, unless a scope of a later activation binds
the same name as one of its own.
-/
import MacroBasic.Proofs.Grammar.Views
import MacroBasic.Proofs.Program.Calls

namespace MacroBasic

open Machine Relation

/-! ## The views of a script -/

/-- The view before a script that shares the given bindings: its own scope inside of theirs. -/
def Block.outset (body : Block) (shared : Scope) : View where
  names := .onBottom shared.unbound
  realm := ⟨.script, body.locals⟩
  around := [⟨.surroundings, shared.names.map Binding.name⟩]

/-- The views of the instructions of a whole script, with that of its end. -/
def Block.viewAt (body : Block) (shared : Scope) (a : Address) : Option View :=
  (body.views 0 (body.outset shared) ++ [body.outset shared])[a]?

/-- The home of the scope in which the parser finds a name at an address. -/
def Block.home? (body : Block) (shared : Scope) (a : Address) (x : String) : Option Home :=
  ((body.viewAt shared a).bind (·.resolve? x)).map Realm.home

/-- An instruction of a script reads a name, or it gives it a value and is not part of a call that does so with a
parameter. -/
def Block.Refers (body : Block) (a : Address) (x : String) : Instruction → Prop
  | .pushVariable y => y = x
  | .assign y => y = x ∧ ∀ c ∈ body.sites 0, ¬(c.ready ≤ a ∧ a < c.calling)
  | _ => False

instance (body : Block) (a : Address) (x : String) : DecidablePred (body.Refers a x)
  | .pushVariable y => inferInstanceAs (Decidable (y = x))
  | .assign y => inferInstanceAs (Decidable (y = x ∧ ∀ c ∈ body.sites 0, ¬(c.ready ≤ a ∧ a < c.calling)))
  | .allocConst _ _ | .allocVar _ | .pushValue _ | .pop | .copy _ | .binary _ | .unary _ | .print | .notify _
  | .dialog _ | .jump _ | .jumpTrue _ | .jumpFalse _ | .jumpPop | .pushScope | .popScope | .call _ | .ret =>
    inferInstanceAs (Decidable False)

section Views

variable {body : Block} {shared : Scope} {v : View} {u : Realm} {x : String}

theorem listsAt_viewAt (body : Block) (shared : Scope) :
    ListsAt (body.viewAt shared) 0 (body.views 0 (body.outset shared) ++ [body.outset shared]) := by
  intro i w hw
  rw [Nat.zero_add]
  exact hw

theorem realmsAt_viewAt_end (body : Block) (shared : Scope) :
    realmsAt (body.viewAt shared) (0 + body.size) = some (body.outset shared).realms :=
  realmsAt_of_view ((listsAt_viewAt body shared).right (by rw [body.length_views])).first

theorem realmsAt_viewAt_start (body : Block) (shared : Scope) :
    realmsAt (body.viewAt shared) 0 = some (body.outset shared).realms :=
  body.realmsAt_start (listsAt_viewAt body shared).left (realmsAt_viewAt_end body shared)

theorem mem_realms_of_resolve? (h : v.resolve? x = some u) : u ∈ v.realms := by
  obtain ⟨⟨f, w⟩, hp, rfl⟩ := Option.map_eq_some_iff.1 h
  exact (List.of_mem_zip (List.mem_of_find?_eq_some hp)).2

/-- Shared bindings are of no routines, so that the parser sees none before a script. -/
theorem aligned_outset (T : Address → Option (List Realm)) (body : Block)
    (h : ∀ b ∈ shared.names, b.address = none) :
    Aligned T (body.outset shared).names.frames (body.outset shared).realms := by
  refine .cons nofun (.cons (fun b hb entry hentry => ?_) .nil)
  obtain ⟨b', hb', rfl⟩ := List.mem_map.1 hb
  rw [h b' hb'] at hentry
  cases hentry

end Views

namespace Program

section Scoping

variable {options : Options} {bindings : List (String × Value × Kind)} {source : String} {body : Block}

/-- The code of a compiled script keeps to its views. -/
theorem seated_of_script (hexplicit : options.explicit = true)
    (h : Grammar.script (.ofString source) options.explicit options.external
      (sharing options bindings).external = .ok body) (a : Address) (line : Line)
    (hline : (body.lines 0).toArray[a]? = some line) :
    Seated (body.lines 0).toArray body.table (body.viewAt (sharing options bindings).external) (body.sites 0) a
      line.instruction := by
  have hx : (instructionsOf (body.lines 0))[a]? = some line.instruction := by
    rw [instructionsOf, List.getElem?_map, ← List.getElem?_toArray]
    exact congrArg (Option.map Line.instruction) hline
  rw [hexplicit] at h
  have hseated := body.seated (body.outset (sharing options bindings).external) [] (Grammar.script_resolved h)
    (aligned_outset _ body (address_sharing options bindings)) (fun _ hsite => by cases hsite) (List.Subset.refl _) (List.Subset.refl _)
    (codeAt_instructionsOf (body.lines 0)) (listsAt_table body).left (listsAt_viewAt body _).left
    (realmsAt_viewAt_end body _) a line.instruction hx
  rwa [Nat.zero_add] at hseated

/-- A run begins with the scope of the script inside of the shared one. -/
theorem situated_starting {lines : Array Line} (hL : Describes body.table lines) (shared external : Scope) {σ : Type}
    (host : Host (StateM σ)) (st : σ) :
    Situated lines body.table (realmsAt (body.viewAt shared)) (starting external host st).config := by
  have hstart := realmsAt_viewAt_start body shared
  refine ⟨_, _, hL.start, hstart, ?_⟩
  exact .script rfl rfl ⟨0, _, hstart, List.mem_cons_self⟩ rfl hidesOnly_empty

/-- What an instruction refers to is a name that the parser has found. -/
theorem resolved_of_refers {lines : Array Line} {L : Address → Option Layout} {V : Address → Option View} {a : Address}
    {i : Instruction} {x : String} (h : Seated lines L V (body.sites 0) a i) (hrefers : body.Refers a x i) :
    ∃ v u, V a = some v ∧ v.resolve? x = some u ∧ ((∃ x, i = .pushVariable x) ∨ Idle L a) := by
  cases i with
  | pushVariable y =>
    obtain ⟨v, u, hv, hu⟩ := h.reads y rfl
    exact ⟨v, u, hv, hrefers ▸ hu, .inl ⟨y, rfl⟩⟩
  | assign y =>
    obtain ⟨rfl, hsites⟩ := hrefers
    rcases h.given y rfl with ⟨c, hc, hat⟩ | ⟨hidle, v, u, hv, hu⟩
    · exact absurd hat (hsites c hc)
    · exact ⟨v, u, hv, hu, .inr hidle⟩
  | _ => exact hrefers.elim

end Scoping

/-- Where names have to be declared, each name that a compiled script reads or gives a value is one that the parser
has found, in the scope of a routine around it, of the script itself or of what the script shares. Whenever a run
comes there, that home has a scope, which for a routine is one of an activation. If the latest of its scopes binds the
name, looking the name up finds its binding there, unless newer scopes bind it, whose own realms have it among their
names; then it finds that of the first of these. -/
theorem run_resolves (options : Options) (bindings : List (String × Value × Kind)) (source : String)
    (compiled : Program) (hexplicit : options.explicit = true)
    (hcompile : (sharing options bindings).compile source = (.ok (), compiled)) :
    ∃ body, Grammar.script (.ofString source) options.explicit options.external
        (sharing options bindings).external = .ok body ∧
      ∀ a line x, compiled.lines[a]? = some line → body.Refers a x line.instruction →
        ∃ home, body.home? (sharing options bindings).external a x = some home ∧
          ∀ p, Prepared compiled p → ∀ {σ : Type} (host : Host (StateM σ)) (st : σ) (m : Moment σ),
            Reaches host p.options p.lines (starting p.external host st) (host.clock st).2 m.machine m.state m.calls →
            m.pc = a → ∃ newer f older, Latest p.lines home m.scopes.frames newer f older ∧
              (f.get? x ≠ none → Finds p.lines (realmsAt (body.viewAt (sharing options bindings).external)) x m.scopes
                newer f older) := by
  obtain ⟨body, hscript, rfl⟩ := script_of_compile hcompile
  have hL := describes_table hscript
  have hseated := seated_of_script hexplicit hscript
  refine ⟨body, hscript, fun a line x hline hrefers => ?_⟩
  obtain ⟨v, u, hv, hu, hi⟩ := resolved_of_refers (hseated a line hline) hrefers
  refine ⟨u.home, by rw [Block.home?, hv, Option.bind_some, hu]; rfl, fun p hp σ host st m hreaches hpc => ?_⟩
  have hlines : p.lines = (body.lines 0).toArray := hp.lines
  rw [hlines] at hreaches ⊢
  have hlaid : Laid body.table (starting p.external host st).config [] := ⟨_, hL.start, trivial, .script⟩
  have hsituated := hreaches.situated hL (fun b line hline => (hseated b line hline).placed) hlaid
    (situated_starting hL (sharing options bindings).external p.external host st)
  subst hpc
  obtain ⟨n, us, hus, hstanding⟩ := hsituated.standing hL hline hi
  have hrealms : us = v.realms := Option.some.inj (hus.symm.trans (realmsAt_of_view hv))
  obtain ⟨newer, f, older, hlatest, hhiding⟩ := hstanding.latest (hrealms ▸ mem_realms_of_resolve? hu)
  exact ⟨newer, f, older, hlatest, fun hf => hhiding.finds hlatest.split hf⟩

section Moments

variable {bindings : List (String × Value × Kind)} {source : String} {n : Nat}

/-- The script of a source that shares the given bindings, and the moment that so many steps of its run lead to. -/
def momentOf? (bindings : List (String × Value × Kind)) (source : String) (n : Nat) : Option (Block × Moment Unit) :=
  (Grammar.script (.ofString source) true true (sharing {} bindings).external).toOption.bind fun body =>
    ((Moment.mk (starting (sharing {} bindings).external (.indifferent (pure 0)) ()) () []).after?
      (.indifferent (pure 0)) {} (body.lines 0).toArray n).map (body, ·)

theorem reaches_of_momentOf? {body : Block} {m : Moment Unit} (h : momentOf? bindings source n = some (body, m)) :
    ∃ compiled, (sharing {} bindings).compile source = (.ok (), compiled) ∧ Prepared compiled compiled ∧
      Grammar.script (.ofString source) true true (sharing {} bindings).external = .ok body ∧
      compiled.lines = (body.lines 0).toArray ∧
      Reaches (.indifferent (pure 0)) compiled.options compiled.lines
        (starting compiled.external (.indifferent (pure 0)) ()) () m.machine m.state m.calls := by
  obtain ⟨body', hscript, h⟩ := Option.bind_eq_some_iff.1 h
  obtain ⟨m', hm, hpair⟩ := Option.map_eq_some_iff.1 h
  cases hpair
  have hscript : Grammar.script (.ofString source) true true (sharing {} bindings).external = .ok body := by
    cases hs : Grammar.script (.ofString source) true true (sharing {} bindings).external with
    | ok body' =>
      rw [hs] at hscript
      cases hscript
      rfl
    | error f =>
      rw [hs] at hscript
      cases hscript
  have hcompile : (sharing {} bindings).compile source = (.ok (), ofScript {} (sharing {} bindings).external body) :=
    compile_of_script hscript
  exact ⟨_, hcompile, prepared_of_compile hcompile, hscript, rfl, Reaches.steps .start (steps_of_after? hm)⟩

end Moments

/-- A parameter of a routine that calls itself, whose name all scopes bind: it is given a value in the second
activation. -/
theorem run_resolves_parameter :
    let source := "DIM N\nN = TRUE\nSUB T(N)\nIF N THEN\nT FALSE\nEND IF\nN = FALSE\nEND SUB\nT TRUE"
    let bindings : List (String × Value × Kind) := [("N", .boolean true, .variable)]
    let host : Host (StateM Unit) := .indifferent (pure 0)
    ∃ (compiled : Program) (body : Block) (m : Moment Unit) (line : Line),
      (sharing {} bindings).compile source = (.ok (), compiled) ∧ Prepared compiled compiled ∧
      Reaches host compiled.options compiled.lines (starting compiled.external host ()) () m.machine m.state m.calls ∧
      compiled.lines[m.pc]? = some line ∧ body.Refers m.pc "N" line.instruction ∧
      ∃ home newer f older, body.home? (sharing {} bindings).external m.pc "N" = some home ∧
        Latest compiled.lines home m.scopes.frames newer f older ∧
        Finds compiled.lines (realmsAt (body.viewAt (sharing {} bindings).external)) "N" m.scopes newer f older := by
  intro source bindings host
  have hrun : ((momentOf? bindings source 19).map fun (body, m) =>
      ((body.lines 0)[m.pc]?.any fun line => decide (body.Refers m.pc "N" line.instruction),
        m.scopes.frames.all fun f => f.contains "N")) = some (true, true) := by
    decide +kernel
  obtain ⟨⟨body, m⟩, hmoment, hrun⟩ := Option.map_eq_some_iff.1 hrun
  obtain ⟨hline, hall⟩ := Prod.mk.inj hrun
  obtain ⟨line, hline, hrefers⟩ := (Option.any_eq_true ..).1 hline
  obtain ⟨compiled, hcompile, hprepared, hscript, hlines, hreaches⟩ := reaches_of_momentOf? hmoment
  obtain ⟨body', hscript', hresolves⟩ := run_resolves {} bindings source compiled rfl hcompile
  have hbody : body' = body := Except.ok.inj (hscript'.symm.trans hscript)
  subst hbody
  have hat : compiled.lines[m.pc]? = some line := by rw [hlines, List.getElem?_toArray]; exact hline
  obtain ⟨home, hhome, hfinds⟩ := hresolves m.pc line "N" hat (of_decide_eq_true hrefers)
  obtain ⟨newer, f, older, hlatest, hf⟩ := hfinds compiled hprepared host () m hreaches rfl
  refine ⟨compiled, body', m, line, hcompile, hprepared, hreaches, hat, of_decide_eq_true hrefers, home, newer, f,
    older, hhome, hlatest, hf ?_⟩
  have hmem : f ∈ m.scopes.frames := by rw [hlatest.split]; exact List.mem_append_right _ List.mem_cons_self
  have hbinds := List.all_eq_true.1 hall f hmem
  intro hnone
  rw [Scope.contains, hnone] at hbinds
  cases hbinds

/-- A run is about to use a name, and `f` is the latest scope of the home where the parser has found it. -/
structure Uses (body : Block) (shared : Scope) (lines : Array Line) (m : Moment Unit) (x : String) (home : Home)
    (f : Scope) : Prop where
  refers : ∃ line, lines[m.pc]? = some line ∧ body.Refers m.pc x line.instruction
  resolved : body.home? shared m.pc x = some home
  latest : ∃ newer older, Latest lines home m.scopes.frames newer f older

/-- The text of the value that a binding has, if there is one. -/
def textOf (b : Option Binding) : Option String := b.map (·.value.display)

/-- What can be told about a name at a moment: whether it is used, where it is at home, its values in all scopes, and
the one that is found for it. -/
def glance (shared : Scope) (x : String) (body : Block) (m : Moment Unit) :
    Bool × Option Home × List (Option String) × Option String :=
  ((body.lines 0)[m.pc]?.any fun line => decide (body.Refers m.pc x line.instruction), body.home? shared m.pc x,
    m.scopes.frames.map fun f => textOf (f.get? x), textOf (m.scopes.get? x))

theorem uses_of_glance {shared : Scope} {x : String} {body : Block} {m : Moment Unit} {inner : List (Option String)}
    {own outer found : Option String} (h : glance shared x body m = (true, some .script, inner ++ [own, outer], found)) :
    ∃ f, Uses body shared (body.lines 0).toArray m x .script f ∧ textOf (f.get? x) = own ∧
      textOf (m.scopes.get? x) = found := by
  obtain ⟨hline, h⟩ := Prod.mk.inj h
  obtain ⟨hhome, h⟩ := Prod.mk.inj h
  obtain ⟨hframes, hfound⟩ := Prod.mk.inj h
  obtain ⟨line, hline, hrefers⟩ := (Option.any_eq_true ..).1 hline
  obtain ⟨newer, rest, hsplit, _, hrest⟩ := List.map_eq_append_iff.1 hframes
  obtain ⟨f, rest, rfl, hown, hrest⟩ := List.map_eq_cons_iff.1 hrest
  obtain ⟨outermost, rest, rfl, _, hrest⟩ := List.map_eq_cons_iff.1 hrest
  cases List.map_eq_nil_iff.1 hrest
  refine ⟨f, ⟨⟨line, ?_, of_decide_eq_true hrefers⟩, hhome, newer, [outermost], ?_⟩, hown, hfound⟩
  · rw [List.getElem?_toArray]
    exact hline
  · rw [hsplit]
    exact latest_script newer f outermost

/-- A name is not always looked up where the parser has found it. Both names here are at home in the script. When the
first one is read in a routine, it stands for a variable of the routine that has called this one, not for that of the
script. When the second one is read, its declaration has been skipped, and it stands for what the script shares. -/
theorem run_resolves_elsewhere :
    let source := "IF FALSE THEN\nDIM Y\nEND IF\nDIM X\nX = TRUE\nSUB S\nDEBUGPRINT X\nEND SUB\nSUB T\nDIM X\n" ++
      "X = FALSE\nS\nEND SUB\nT\nDEBUGPRINT Y"
    let bindings : List (String × Value × Kind) := [("Y", .boolean true, .variable)]
    let shared := (sharing {} bindings).external
    let host : Host (StateM Unit) := .indifferent (pure 0)
    ∃ (compiled : Program) (body : Block) (m m' : Moment Unit) (f f' : Scope),
      (sharing {} bindings).compile source = (.ok (), compiled) ∧ Prepared compiled compiled ∧
      Grammar.script (.ofString source) true true shared = .ok body ∧
      Reaches host compiled.options compiled.lines (starting compiled.external host ()) () m.machine m.state m.calls ∧
      Uses body shared compiled.lines m "X" .script f ∧
      textOf (f.get? "X") = some "True" ∧ textOf (m.scopes.get? "X") = some "False" ∧
      Reaches host compiled.options compiled.lines (starting compiled.external host ()) () m'.machine m'.state m'.calls ∧
      Uses body shared compiled.lines m' "Y" .script f' ∧
      f'.get? "Y" = none ∧ textOf (m'.scopes.get? "Y") = some "True" := by
  intro source bindings shared host
  have hX : (momentOf? bindings source 14).map (fun (body, m) => glance shared "X" body m) =
      some (true, some .script, [none, some "False"] ++ [some "True", none], some "False") := by
    decide +kernel
  have hY : (momentOf? bindings source 20).map (fun (body, m) => glance shared "Y" body m) =
      some (true, some .script, [] ++ [none, some "True"], some "True") := by
    decide +kernel
  obtain ⟨⟨body, m⟩, hm, hX⟩ := Option.map_eq_some_iff.1 hX
  obtain ⟨⟨body', m'⟩, hm', hY⟩ := Option.map_eq_some_iff.1 hY
  obtain ⟨f, huses, hown, hfound⟩ := uses_of_glance hX
  obtain ⟨f', huses', hown', hfound'⟩ := uses_of_glance hY
  obtain ⟨compiled, hcompile, hprepared, hscript, hlines, hreaches⟩ := reaches_of_momentOf? hm
  obtain ⟨compiled', hcompile', _, hscript', _, hreaches'⟩ := reaches_of_momentOf? hm'
  cases hscript.symm.trans hscript'
  cases hcompile.symm.trans hcompile'
  rw [← hlines] at huses huses'
  exact ⟨compiled, body, m, m', f, f', hcompile, hprepared, hscript, hreaches, huses, hown, hfound, hreaches', huses',
    Option.map_eq_none_iff.1 hown', hfound'⟩

end Program

end MacroBasic
