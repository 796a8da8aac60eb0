/-
Values in the runs of compiled programs. The addresses behind loops stand on the same stacks as the values of a
script, and those of calls stand among its names. Nevertheless a script works with plain values only, as long as the
embedding program shares no address and the host gives plain values: no address comes to a variable, to a shared
binding or to the host, and no calculation is about a value that is not plain.
-/
import MacroBasic.Proofs.Grammar.Pushes
import MacroBasic.Proofs.Program.Sharing

namespace MacroBasic

/-! ## Literals in a text -/

/-- No word of a text is a literal. -/
theorem Token.ofKeyword?_ne (text : String) :
    (ofKeyword? text).getD .name ≠ .number ∧ (ofKeyword? text).getD .name ≠ .string := by
  have hall : ∀ x ∈ keywords, x.2 ≠ .number ∧ x.2 ≠ .string := by decide
  cases hkeyword : ofKeyword? text with
  | none => simp
  | some token =>
    obtain ⟨before, after, hkeywords, _⟩ := List.lookup_eq_some_iff.1 hkeyword
    refine hall (Text.toCapitals text, token) ?_
    rw [hkeywords]
    simp

namespace Scanner

/-- The literals have plain values. -/
theorem symbol_value {ch : Char} {c d : Cursor} {s : Symbol} (h : symbol ch c = .ok s d)
    (ht : s.token = .number ∨ s.token = .string) : ∃ v, s.value = some v ∧ v.Plain := by
  unfold symbol at h
  simp only at h
  split at h
  · rename_i token hsingle
    cases h
    unfold single? at hsingle
    split at hsingle <;> cases hsingle <;> simp at ht
  · split at h
    · split at h <;> cases h
      simp at ht
    · split at h
      · split at h <;> cases h <;> simp at ht
      · split at h
        · split at h <;> cases h
          exact ⟨_, rfl, trivial⟩
        · split at h
          · split at h
            · cases h
            · split at h <;> cases h
              exact ⟨_, rfl, trivial⟩
          · split at h
            · split at h <;> cases h
              rename_i run _
              obtain ⟨hnumber, hstring⟩ := Token.ofKeyword?_ne (String.ofList (ch :: run))
              simp only [hnumber, hstring, or_self] at ht
            · cases h

theorem scan_value {c : Cursor} {s : Symbol} (hs : s ∈ (scan c).ahead) (ht : s.token = .number ∨ s.token = .string) :
    ∃ v, s.value = some v ∧ v.Plain := by
  fun_induction scan c with
  | case1 => cases hs
  | case2 => cases hs
  | case3 => cases hs
  | case4 c ch after hblanks first behind hsymbol _ _ more ih =>
    rcases List.mem_cons.1 hs with rfl | hs
    · exact symbol_value hsymbol ht
    · exact ih hs

end Scanner

/-! ## Shared bindings and hosts -/

/-- Where only plain values are given, no binding comes to hold an address. -/
theorem Scope.Kept.no_address {given : String → Value → Prop} {f f' : Scope} (h : f.Kept given f')
    (hf : ∀ b ∈ f.names, ∀ a, b.value ≠ .address a) (hgiven : ∀ name v, given name v → v.Plain) :
    ∀ b ∈ f'.names, ∀ a, b.value ≠ .address a := by
  obtain ⟨_, h⟩ := h
  generalize f.names = names, f'.names = names' at h hf
  induction h with
  | nil => simp
  | cons hb _ ih =>
    rw [List.forall_mem_cons] at hf ⊢
    refine ⟨?_, ih hf.2⟩
    intro a ha
    rcases hb with rfl | ⟨_, _, hvalue⟩
    · exact hf.1 a ha
    · have hplain := hgiven _ _ hvalue
      rw [ha] at hplain
      exact hplain

theorem Machine.GivesShared.plain {i : Instruction} {S : Scopes} {name : String} {v : Value}
    (h : GivesShared i S name v) (hoperands : ∀ w ∈ S.items.take i.worksWith, w.Plain) : v.Plain := by
  obtain ⟨rest, hitems⟩ := List.head?_eq_some_iff.1 h.value
  refine hoperands v ?_
  rw [h.assigns, hitems]
  exact List.mem_cons_self ..

theorem Host.GivesPlain.logged {σ : Type} {host : Host (StateM σ)} (h : host.GivesPlain) : host.logged.GivesPlain :=
  fun name s v hv => h name s.1 v hv

namespace Program

open Machine

section Script

variable {options : Options} {bindings : List (String × Value × Kind)} {source : String} {body : Block}

/-- The code of a compiled script brings no address to the place of a value. -/
theorem allClean_table (h : Grammar.script (.ofString source) options.explicit options.external
    (sharing options bindings).external = .ok body) : AllClean body.table (body.lines 0).toArray := by
  let R : Rules := ⟨(· ≠ returnName), (· ∈ body.routines 0)⟩
  have hproper : body.Proper R :=
    Grammar.script_proper h ⟨fun _ hsym htoken => Scanner.scan_name hsym htoken, fun _ hsym => Scanner.scan_value hsym⟩
  have hend : body.table (0 + body.size) = some (.shaped .script) :=
    ((listsAt_table body).right (by rw [body.length_layouts])).first
  intro a line hline
  have hx := getElem?_instructionsOf (body.lines 0).toArray a
  rw [hline] at hx
  have hclean := body.clean (fun _ hn => hn) hproper (listsAt_table body).left hend rfl a line.instruction hx
  rwa [Nat.zero_add] at hclean

/-- A run begins in order where no shared binding holds an address. -/
theorem orderly_starting (h : Grammar.script (.ofString source) options.explicit options.external
    (sharing options bindings).external = .ok body) {external : Scope}
    (hexternal : ∀ b ∈ external.names, ∀ a, b.value ≠ .address a) {σ : Type} (host : Host (StateM σ)) (st : σ) :
    Orderly body.table (starting external host st).config [] := by
  have hstart := (describes_table h).start
  refine ⟨⟨_, hstart, trivial, .script⟩, ⟨_, hstart, .layer .nil (.shared external)⟩, ?_⟩
  intro f hf b hb a ha
  rcases List.mem_cons.1 hf with rfl | hf
  · cases hb
  · rw [List.mem_singleton.1 hf] at hb
    exact absurd ha (hexternal b hb a)

end Script

/-- A run of a program with the instructions of a compiled one, the compiled program itself or a copy of it, works with
numbers, texts and booleans only, as long as no shared binding holds an address and the host gives no address and no
missing value. In every state that it reaches, the values are such that the next instruction takes to assign them, to
calculate or decide with them or to hand them to the host, and a name stands for an address only if it is the constant
in which a call records where to return to. However the run ends, no shared binding holds an address, and it does not
end with the fault of reading or comparing a value that is not plain; the values that the host is asked to take over
are plain. -/
theorem run_plain (options : Options) (bindings : List (String × Value × Kind)) (source : String) (compiled : Program)
    (hcompile : (sharing options bindings).compile source = (.ok (), compiled)) (p : Program)
    (hlines : p.lines = compiled.lines) (hstate : p.state = .idle) (herror : p.error = none)
    (hexternal : ∀ b ∈ p.external.names, ∀ a, b.value ≠ .address a) {σ : Type} (host : Host (StateM σ))
    (hhost : host.GivesPlain) (st : σ) :
    (∀ M st' calls, Reaches host p.options p.lines (starting p.external host st) (host.clock st).2 M st' calls →
      (∀ line, p.lines[M.pc]? = some line → line.instruction.worksWith ≤ M.scopes.items.length ∧
        ∀ v ∈ M.scopes.items.take line.instruction.worksWith, v.Plain) ∧
      ∀ f ∈ M.scopes.frames, ∀ b ∈ f.names, ∀ a, b.value = .address a → b.name = returnName ∧ b.kind = .constant) ∧
    (∀ fuel result after st', p.run host fuel st = (some (result, after), st') →
      (∀ b ∈ after.external.names, ∀ a, b.value ≠ .address a) ∧
      ∀ f, result = .error f → f.code = .math → ∀ w, Value.Misreads w → ¬ w.toList <:+ f.message.toList) ∧
    ∀ fuel ended st' log, p.run host.logged fuel (st, []) = (ended, st', log) →
      ∀ e ∈ log, ∀ name v, e.request = .assign name v → v.Plain := by
  obtain ⟨body, hscript, rfl⟩ := script_of_compile hcompile
  have hL := describes_table hscript
  have hclean := allClean_table hscript
  change p.lines = (body.lines 0).toArray at hlines
  rw [← hlines] at hL hclean
  have hstart := orderly_starting hscript hexternal host st
  have horderly {M : Machine} {st' : σ} {calls : List Address}
      (h : Reaches host p.options p.lines (starting p.external host st) (host.clock st).2 M st' calls) :
      Orderly body.table M.config calls := h.orderly hL hclean hhost hstart
  refine ⟨fun M st' calls h => ⟨fun line hline => (horderly h).works hL hline, (horderly h).apart⟩, ?_, ?_⟩
  · intro fuel result after st' hrun
    obtain ⟨o, hmachine, hfinish⟩ := outcome_of_run hstate herror hrun
    constructor
    · -- what a shared binding is given has been on top of the stack for an assignment
      have hkept := kept_of_script hscript hlines hmachine
      rw [hfinish] at hkept
      refine hkept.no_address hexternal ?_
      rintro name v ⟨M, _, calls, line, hreaches, hline, hgives⟩
      exact hgives.plain ((horderly hreaches).works hL hline).2
    · rintro f rfl hmath w hw
      cases o with
      | ok _ M => cases hfinish
      | error f' M =>
        cases hfinish
        obtain ⟨before, m, hmessage, htold⟩ := run_blameless hL hclean hhost hstart hmachine hmath
        rw [hmessage]
        exact htold.not_suffix before hw
  · intro fuel ended st' log hrun e he name v hrequest
    obtain ⟨o, hmachine, -⟩ := machine_of_run hstate herror hrun
    obtain ⟨events, hspeaks, hsaid⟩ := run_hands_plain hL hclean hhost.logged
      (orderly_starting hscript hexternal host.logged (st, [])) hmachine
    -- the log has been kept by the run from its beginning on
    have hlog : log = [] ++ events := hspeaks.logged
    rw [hlog] at he
    have hplain := hsaid e he
    rw [hrequest] at hplain
    exact hplain

/-- A function that is left from inside of a loop, called in a loop with a value that the host gives. The run ends when
it negates a text, which has nothing to do with addresses. -/
theorem run_plain_loops :
    let bindings := [("X", .text "a", .variable)]
    let source := "FUNCTION F(N)\nDO\nF = N & X\nEXIT FUNCTION\nLOOP\nEND FUNCTION\nDO\nX = F(Z)\nX = -X\nLOOP"
    let host : Host (StateM Unit) :=
      ⟨fun r => pure ⟨match r with | .retrieve _ => some (.text "b") | r => r.indifferent, false⟩, pure 0⟩
    ∃ compiled f after, (sharing { explicit := false } bindings).compile source = (.ok (), compiled) ∧
      (∀ b ∈ compiled.external.names, ∀ a, b.value ≠ .address a) ∧ host.GivesPlain ∧
      compiled.run host 60 () = (some (.error f, after), ()) ∧ f.code = .math ∧
      (∀ b ∈ after.external.names, ∀ a, b.value ≠ .address a) ∧
      ∀ w, Value.Misreads w → ¬ w.toList <:+ f.message.toList := by
  intro bindings source host
  have hok : ((sharing { explicit := false } bindings).compile source).1.isOk = true := by decide +kernel
  have hran : (((sharing { explicit := false } bindings).compile source).2.run host 60 ()).1.any (fun r =>
      match r.1 with | .ok _ => false | .error f => f.code = .math) = true := by decide +kernel
  have hhost : host.GivesPlain := by
    intro name st v hv
    cases hv
    trivial
  -- only that the run ends with this fault is computed; what it leaves and says is from the theorem
  obtain ⟨compiled, hcompile⟩ := compiled_of_isOk hok
  rw [hcompile] at hran
  obtain ⟨body, _, hcompiled⟩ := script_of_compile hcompile
  have hexternal : ∀ b ∈ compiled.external.names, ∀ a, b.value ≠ .address a := by
    rw [hcompiled]
    simp [ofScript, sharing, bindings, importAdd, Scope.allocate, new, Scope.empty, Scope.put]
  generalize hrun : compiled.run host 60 () = y at hran
  obtain ⟨ended, _⟩ := y
  rcases ended with _ | ⟨f | _, after⟩
  · cases hran
  · have hmath : f.code = .math := of_decide_eq_true hran
    obtain ⟨_, hended, _⟩ := run_plain { explicit := false } bindings source compiled hcompile compiled rfl
      (by rw [hcompiled]; rfl) (by rw [hcompiled]; rfl) hexternal host hhost ()
    obtain ⟨hafter, hfault⟩ := hended 60 _ after () hrun
    exact ⟨compiled, f, after, hcompile, hexternal, hhost, hrun, hmath, hafter, hfault f rfl hmath⟩
  · cases hran

end Program

end MacroBasic
