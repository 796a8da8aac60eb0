/-
What a line does to an interactive session. A name that the session knows is shared with the line, so that the line
finds it bound; a name that it does not know is offered to the console, which takes it into the session at once. When
the line has run, whatever has become of it, every name that was known has the value that it was given last, and behind
them come the names that were offered, in the order of their first offers. So no line ever undoes what an earlier one
has done.
-/
import MacroBasic.Proofs.Machine.Course
import MacroBasic.Terminal.Shell

namespace MacroBasic

open Machine

/-! ## Entries -/

namespace Session

variable {name : String} {v : Value} {l l' : List (String × Value)}

theorem put_of_not_mem (h : name ∉ l.map Prod.fst) : put name v l = l ++ [(name, v)] := by
  induction l with
  | nil => rfl
  | cons first rest ih =>
    rw [List.map_cons, List.mem_cons, not_or] at h
    unfold put
    rw [if_neg (Ne.symm h.1), ih h.2, List.cons_append]

theorem names_put (name : String) (v : Value) (l : List (String × Value)) : (put name v l).map Prod.fst =
    if name ∈ l.map Prod.fst then l.map Prod.fst else l.map Prod.fst ++ [name] := by
  by_cases h : name ∈ l.map Prod.fst
  · rw [if_pos h]
    induction l with
    | nil => cases h
    | cons first rest ih =>
      unfold put
      by_cases hfirst : first.1 = name
      · rw [if_pos hfirst, List.map_cons, List.map_cons, hfirst]
      · rw [if_neg hfirst, List.map_cons, List.map_cons]
        exact congrArg _ (ih ((List.mem_cons.1 h).resolve_left fun h => hfirst h.symm))
  · rw [if_neg h, put_of_not_mem h, List.map_append]
    rfl

theorem nodup_put (h : (l.map Prod.fst).Nodup) : ((put name v l).map Prod.fst).Nodup := by
  rw [names_put]
  split
  · exact h
  · rename_i hname
    exact List.Nodup.append h (List.nodup_singleton name) (List.disjoint_singleton.2 hname)

/-- A name that is not known is put behind all that are. -/
theorem put_append (h : name ∉ l.map Prod.fst) : put name v (l ++ l') = l ++ put name v l' := by
  induction l with
  | nil => rfl
  | cons first rest ih =>
    rw [List.map_cons, List.mem_cons, not_or] at h
    rw [List.cons_append]
    conv_lhs => unfold put
    rw [if_neg (Ne.symm h.1), ih h.2]
    rfl

theorem mem_put {x : String × Value} (hnodup : (l.map Prod.fst).Nodup) (h : x ∈ put name v l) :
    x = (name, v) ∨ x ∈ l ∧ x.1 ≠ name := by
  induction l with
  | nil => exact .inl (List.mem_singleton.1 h)
  | cons first rest ih =>
    rw [List.map_cons, List.nodup_cons] at hnodup
    unfold put at h
    by_cases hfirst : first.1 = name
    · rw [if_pos hfirst] at h
      refine (List.mem_cons.1 h).imp id fun hx => ⟨List.mem_cons_of_mem _ hx, ?_⟩
      rintro rfl
      exact hnodup.1 (hfirst ▸ List.mem_map_of_mem hx)
    · rw [if_neg hfirst] at h
      rcases List.mem_cons.1 h with rfl | hx
      · exact .inr ⟨List.mem_cons_self .., hfirst⟩
      · exact (ih hnodup.2 hx).imp id fun hx => ⟨List.mem_cons_of_mem _ hx.1, hx.2⟩

/-- Entries with some more, one after the other. -/
def putAll (offered l : List (String × Value)) : List (String × Value) := offered.foldl (fun l x => put x.1 x.2 l) l

theorem nodup_putAll {offered : List (String × Value)} (h : (l.map Prod.fst).Nodup) :
    ((putAll offered l).map Prod.fst).Nodup := by
  induction offered generalizing l with
  | nil => exact h
  | cons x offered ih => exact ih (nodup_put h)

theorem putAll_append {offered : List (String × Value)} (h : ∀ x ∈ offered, x.1 ∉ l.map Prod.fst) :
    putAll offered (l ++ l') = l ++ putAll offered l' := by
  induction offered generalizing l' with
  | nil => rfl
  | cons x offered ih =>
    obtain ⟨hx, hrest⟩ := List.forall_mem_cons.1 h
    show putAll offered (put x.1 x.2 (l ++ l')) = _
    rw [put_append hx]
    exact ih hrest

/-- New entries stand in the order of their first offers. -/
theorem names_putAll (offered : List (String × Value)) :
    (putAll offered []).map Prod.fst = (offered.map Prod.fst).eraseDups := by
  induction offered using List.reverseRecOn with
  | nil => rfl
  | append_singleton offered x ih =>
    have hput : putAll (offered ++ [x]) [] = put x.1 x.2 (putAll offered []) := List.foldl_concat ..
    rw [hput, names_put, ih, List.map_append, List.eraseDups_append]
    simp only [List.mem_eraseDups]
    by_cases hx : x.1 ∈ offered.map Prod.fst
    · have hgone : [x.1].removeAll (offered.map Prod.fst) = [] := by simpa [List.removeAll] using hx
      rw [if_pos hx, List.map_singleton, hgone, List.eraseDups_nil, List.append_nil]
    · have hstays : [x.1].removeAll (offered.map Prod.fst) = [x.1] := by simpa [List.removeAll] using hx
      rw [if_neg hx, List.map_singleton, hstays]
      rfl

/-- New entries have the values that were offered last. -/
theorem latest_of_mem_putAll {offered : List (String × Value)} :
    ∀ x ∈ putAll offered [], latest offered x.1 = some x.2 := by
  induction offered using List.reverseRecOn with
  | nil => nofun
  | append_singleton offered y ih =>
    intro x hx
    have hput : putAll (offered ++ [y]) [] = put y.1 y.2 (putAll offered []) := List.foldl_concat ..
    rw [hput] at hx
    rw [latest_append, latest_singleton]
    rcases mem_put (nodup_putAll (l := []) List.nodup_nil) hx with rfl | ⟨hx, hne⟩
    · rw [if_pos rfl]
      rfl
    · rw [if_neg hne]
      exact ih x hx

/-- The shared variable that a known name becomes. -/
def binding (x : String × Value) : Binding := { name := x.1, value := x.2 }

theorem names_binding (l : List (String × Value)) : (l.map binding).map Binding.name = l.map Prod.fst := List.map_map

end Session

/-! ## Sharing -/

namespace Program

open Session (binding names_binding)

theorem importSet_new {p : Program} {name : String} (h : name ∉ p.external.names.map Binding.name) (v : Value) :
    p.importSet name v = p.importAdd name v .variable ∧
      (p.importAdd name v .variable).external.names = p.external.names ++ [binding (name, v)] := by
  have hfree : p.external.get? name = none := by
    refine List.find?_eq_none.2 fun b hb hname => h ?_
    exact List.mem_map.2 ⟨b, hb, by simpa using hname⟩
  constructor
  · unfold importSet
    rw [Scope.assign?_eq_none hfree]
  · show Scope.put _ p.external.names = _
    generalize p.external.names = names at h
    induction names with
    | nil => rfl
    | cons first rest ih =>
      rw [List.map_cons, List.mem_cons, not_or] at h
      unfold Scope.put
      rw [if_neg (Ne.symm h.1), ih h.2]
      rfl

/-- Sharing new names makes variables of them. -/
theorem importAll_new (l : List (String × Value)) (p : Program) (hnodup : (l.map Prod.fst).Nodup)
    (hnew : ∀ x ∈ l, x.1 ∉ p.external.names.map Binding.name) :
    p.importAll l =
        (l.map fun x => (x.1, x.2, Kind.variable)).foldl (fun p (name, v, kind) => p.importAdd name v kind) p ∧
      (p.importAll l).external.names = p.external.names ++ l.map binding := by
  induction l generalizing p with
  | nil => exact ⟨rfl, (List.append_nil _).symm⟩
  | cons x l ih =>
    rw [List.map_cons, List.nodup_cons] at hnodup
    obtain ⟨hx, hl⟩ := List.forall_mem_cons.1 hnew
    obtain ⟨hset, hnames⟩ := importSet_new hx x.2
    have hstep : p.importAll (x :: l) = (p.importAdd x.1 x.2 .variable).importAll l := by
      rw [← hset]
      rfl
    obtain ⟨hfold, hall⟩ := ih (p.importAdd x.1 x.2 .variable) hnodup.2 (by
      intro y hy hmem
      rw [hnames, List.map_append, List.mem_append] at hmem
      rcases hmem with hmem | hmem
      · exact hl y hy hmem
      · have hname : y.1 = x.1 := List.mem_singleton.1 hmem
        exact hnodup.1 (hname ▸ List.mem_map_of_mem hy))
    rw [hstep]
    refine ⟨hfold, ?_⟩
    rw [hall, hnames, List.append_assoc]
    rfl

/-- Compiling leaves what is shared as it is. -/
theorem external_compile (p : Program) (source : String) : (p.compile source).2.external = p.external := by
  unfold compile
  split <;> rfl

end Program

namespace Session

/-- The names of a session with their values, as bindings to be shared. -/
def bindings (s : Session) : List (String × Value × Kind) := s.values.map fun x => (x.1, x.2, .variable)

theorem share_new {s : Session} (h : (s.values.map Prod.fst).Nodup) (options : Options) :
    s.share (.new options) = .sharing options s.bindings ∧
      (Program.sharing options s.bindings).external.names = s.values.map binding := by
  obtain ⟨hshare, hnames⟩ := Program.importAll_new s.values (.new options) h nofun
  refine ⟨hshare, ?_⟩
  rw [hshare] at hnames
  exact hnames

/-! ## Collecting -/

theorem find?_renewed {given known : List (String × Value)} (hnodup : (known.map Prod.fst).Nodup) :
    ∀ x ∈ known, ((known.map binding).map (Binding.renewed given)).find? (·.name == x.1) =
      some ((binding x).renewed given) := by
  induction known with
  | nil => nofun
  | cons y known ih =>
    rw [List.map_cons, List.nodup_cons] at hnodup
    intro x hx
    rw [List.map_cons, List.map_cons]
    rcases List.mem_cons.1 hx with rfl | hx
    · exact List.find?_cons_of_pos (beq_self_eq_true _)
    · have hne : ((binding y).renewed given).name ≠ x.1 := by
        intro hyx
        have hyx : y.1 = x.1 := hyx
        exact hnodup.1 (hyx ▸ List.mem_map_of_mem hx)
      rw [List.find?_cons_of_neg (by simpa using hne)]
      exact ih hnodup.2 x hx

/-- After a run that has renewed the known names and added others, the session takes over the values of the first and
keeps those of the others. -/
theorem collect_renewed {given known added : List (String × Value)} {p : Program}
    (hp : p.external.names = (known.map binding).map (Binding.renewed given)) (hnodup : (known.map Prod.fst).Nodup)
    (hadded : ∀ x ∈ added, x.1 ∉ known.map Prod.fst) :
    collect p ⟨known ++ added⟩ = ⟨known.map (fun x => (x.1, (latest given x.1).getD x.2)) ++ added⟩ := by
  unfold collect Program.importGet? Scope.get?
  rw [hp, Session.mk.injEq, List.map_append]
  congr 1
  · refine List.map_congr_left fun x hx => ?_
    simp only [find?_renewed hnodup x hx]
    rfl
  · refine (List.map_congr_left fun x hx => ?_).trans (List.map_id added)
    have hfree : ((known.map binding).map (Binding.renewed given)).find? (·.name == x.1) = none := by
      refine List.find?_eq_none.2 fun b hb hname => hadded x hx ?_
      rw [← names_binding, ← names_renewed given]
      exact List.mem_map.2 ⟨b, hb, by simpa using hname⟩
    simp only [hfree]
    rfl

end Session

namespace Terminal

/-! ## The console -/

section Console

variable {σ : Type} {d : Device (StateM σ)} {fuel : Nat}

/-- The session of a console changes when it is offered a name, and with no other request. -/
theorem session_answer (r : Request) (c : Console) (st : σ) : (Console.answer d fuel r c st).1.2.session =
    match r.offer? with
    | some x => c.session.map (·.assign x.1 x.2)
    | none => c.session := by
  obtain ⟨visible, asksForTime, session⟩ := c
  cases r with
  | print text => cases visible <;> rfl
  | notify n => cases n <;> cases visible <;> rfl
  | message kind text => rfl
  | msgBox prompt buttons title =>
    simp only [Console.answer, Console.openMsgBox, Console.printTitle]
    split <;> rfl
  | inputBox prompt title initial =>
    simp only [Console.answer, Console.printTitle]
    split <;> rfl
  | assign name v => cases session <;> rfl
  | retrieve name => rfl
  | timeout => cases asksForTime <;> rfl

/-- What a console is offered in a run is put into its session. -/
theorem session_of_speaks {events : List MacroBasic.Event} {c c' : Console × σ} {s : Session}
    (h : (Console.host d fuel).joined.Speaks c events c') (hs : c.1.session = some s) :
    c'.1.session = some ⟨Session.putAll (events.filterMap (·.request.offer?)) s.values⟩ := by
  induction h generalizing s with
  | silent => exact hs
  | @answers r c _ _ _ ih =>
    have hanswer : ((Console.host d fuel).joined.ask r c).2.1.session = _ := session_answer r c.1 c.2
    rw [hs] at hanswer
    rw [List.filterMap_cons]
    cases hoffer : r.offer? with
    | none =>
      rw [hoffer] at hanswer
      exact ih hanswer
    | some x =>
      rw [hoffer] at hanswer
      exact ih hanswer
  | tells _ ih => exact ih hs

end Console

/-! ## Lines -/

namespace Shell

section Lines

variable {σ : Type} (d : Device (StateM σ)) (fuel : Nat) (a : Arguments) (source : String)

/-- The state of the device when the run of a line begins: the listing has been printed if it is asked for. -/
def ready (p : Program) (st : σ) : σ := if a.has .listing then (d.out p.listing st).2 else st

/-- The run of a line comes to an end, if the line compiles. -/
def Ends (s : Session) (c : Console) (st : σ) : Prop :=
  ∀ p, (s.share (.new a.options)).compile source = (.ok (), p) →
    (p.run (Console.host d fuel) fuel c (ready d a p st)).1.1.isSome

/-- The turns of the run of a line. There are none if the line does not compile. -/
def turns (s : Session) (c : Console) (st : σ) : List Turn :=
  match (s.share (.new a.options)).compile source with
  | (.error _, _) => []
  | (.ok _, p) => p.course (Console.host d fuel).joined fuel (c, ready d a p st)

variable {d fuel a source} {s : Session} {c c₁ : Console} {st st₁ : σ} {p p' : Program}

theorem ends_of_isSome (h : (((s.share (.new a.options)).compile source).2.run (Console.host d fuel) fuel c
    (ready d a ((s.share (.new a.options)).compile source).2 st)).1.1.isSome) : Ends d fuel a source s c st := by
  intro p hp
  rw [hp] at h
  exact h

theorem stateT_bind {τ α β : Type} (x : StateT τ (StateM σ) α) (k : α → StateT τ (StateM σ) β) (t : τ) (st : σ) :
    (x >>= k) t st = k (x t st).1.1 (x t st).1.2 (x t st).2 := rfl

theorem execute_refused {listing : Bool} {f : Fault} (h : p.compile source = (.error f, p')) :
    (execute d fuel listing source p c st).1 = ((false, p'), c) := by
  unfold execute
  rw [h]
  rfl

theorem execute_ran {p₁ : Program} {result : Except Fault Unit} (hcompile : p.compile source = (.ok (), p₁))
    (hrun : p₁.run (Console.host d fuel) fuel c (ready d a p₁ st) = ((some (result, p'), c₁), st₁)) :
    (execute d fuel (a.has .listing) source p c st).1 = ((result.isOk, p'), c₁) := by
  unfold ready at hrun
  unfold execute
  rw [hcompile]
  cases hlisting : a.has .listing with
  | false =>
    rw [hlisting, if_neg Bool.false_ne_true] at hrun
    simp only [if_neg Bool.false_ne_true]
    rw [stateT_bind, hrun]
    cases result <;> rfl
  | true =>
    rw [hlisting, if_pos rfl] at hrun
    simp only [if_true]
    rw [stateT_bind, stateT_bind]
    have hrun : p₁.run (Console.host d fuel) fuel
      ((liftM (d.out p₁.listing) : StateT Console (StateM σ) Unit) c st).1.2
      ((liftM (d.out p₁.listing) : StateT Console (StateM σ) Unit) c st).2 = _ := hrun
    rw [hrun]
    cases result <;> rfl

/-- A line is run with what the session knows, and then the session collects what has become of it. -/
theorem session_runLine (hs : c.session = some s) {fine : Bool}
    (h : (execute d fuel (a.has .listing) source (s.share (.new a.options)) c st).1 = ((fine, p'), c₁)) :
    (runLine d fuel a source c st).1.2.session = c₁.session.map (·.collect p') := by
  obtain ⟨visible, asksForTime, session⟩ := c
  obtain rfl : session = some s := hs
  have hline : (runLine d fuel a source ⟨visible, asksForTime, some s⟩ st).1.2.session =
      let x := (execute d fuel (a.has .listing) source (s.share (.new a.options)) ⟨visible, asksForTime, some s⟩ st).1
      x.2.session.map (·.collect x.1.2) := rfl
  rw [hline]
  simp only [h]

/-- What a line that compiles makes of the names that are shared with it, and of the session meanwhile. -/
theorem session_ran (hs : c.session = some s) (hnodup : (s.values.map Prod.fst).Nodup)
    (hcompile : (s.share (.new a.options)).compile source = (.ok (), p)) {result : Except Fault Unit}
    (hrun : p.run (Console.host d fuel) fuel c (ready d a p st) = ((some (result, p'), c₁), st₁)) :
    (∀ x ∈ offers (turns d fuel a source s c st), x.1 ∉ s.values.map Prod.fst) ∧
      p'.external.names = (s.values.map Session.binding).map (Binding.renewed (gifts (turns d fuel a source s c st))) ∧
      c₁.session = some ⟨Session.putAll (offers (turns d fuel a source s c st)) s.values⟩ := by
  have hturns : turns d fuel a source s c st = p.course (Console.host d fuel).joined fuel (c, ready d a p st) := by
    unfold turns
    rw [hcompile]
  obtain ⟨hshare, hnames⟩ := Session.share_new hnodup a.options
  rw [hshare] at hcompile
  have hexternal : p.external.names = s.values.map Session.binding := by
    obtain ⟨body, _, rfl⟩ := Program.script_of_compile hcompile
    exact hnames
  have hjoined := Program.run_agrees (Console.host d fuel).agree_joined p fuel c (ready d a p st)
  rw [hrun] at hjoined
  obtain ⟨hspeaks, hrenewed, hoffers⟩ := Program.run_course hcompile
    (by rw [hexternal, Session.names_binding]; exact hnodup)
    (by
      rw [hexternal]
      intro b hb
      obtain ⟨x, _, rfl⟩ := List.mem_map.1 hb
      exact nofun)
    hjoined
  rw [hexternal, Session.names_binding] at hoffers
  rw [hexternal] at hrenewed
  rw [hturns]
  exact ⟨hoffers, hrenewed, session_of_speaks hspeaks hs⟩

/-- What a line does to a session whose names are different. -/
theorem session_line (hs : c.session = some s) (hnodup : (s.values.map Prod.fst).Nodup)
    (hends : Ends d fuel a source s c st) :
    (∀ x ∈ offers (turns d fuel a source s c st), x.1 ∉ s.values.map Prod.fst) ∧
      (runLine d fuel a source c st).1.2.session =
        some ⟨s.values.map (fun x => (x.1, (latest (gifts (turns d fuel a source s c st)) x.1).getD x.2)) ++
          Session.putAll (offers (turns d fuel a source s c st)) []⟩ := by
  generalize hcompile : (s.share (.new a.options)).compile source = x
  obtain ⟨r, p⟩ := x
  cases r with
  | error f =>
    -- nothing has run, so all the values are those that were shared
    have hturns : turns d fuel a source s c st = [] := by
      unfold turns
      rw [hcompile]
    have hexternal : p.external.names = (s.values.map Session.binding).map (Binding.renewed []) := by
      obtain ⟨hshare, hnames⟩ := Session.share_new hnodup a.options
      have hkept := Program.external_compile (s.share (.new a.options)) source
      rw [hcompile, hshare] at hkept
      rw [show p.external = _ from hkept, hnames]
      exact (List.map_id _).symm
    rw [hturns, session_runLine hs (execute_refused hcompile), hs]
    refine ⟨nofun, congrArg some ?_⟩
    have hcollect := Session.collect_renewed hexternal hnodup (List.forall_mem_nil _)
    rw [List.append_nil] at hcollect
    exact hcollect
  | ok _ =>
    obtain ⟨⟨result, p'⟩, hended⟩ := Option.isSome_iff_exists.1 (hends p hcompile)
    generalize hrun : p.run (Console.host d fuel) fuel c (ready d a p st) = y at hended
    obtain ⟨⟨_, c₁⟩, st₁⟩ := y
    cases hended
    obtain ⟨hoffers, hrenewed, hsession⟩ := session_ran hs hnodup hcompile hrun
    refine ⟨hoffers, ?_⟩
    rw [session_runLine hs (execute_ran hcompile hrun), hsession]
    refine congrArg some ?_
    -- what is offered has new names, so it comes behind the values that were there
    have hput : Session.putAll _ (s.values ++ []) = _ := Session.putAll_append hoffers
    rw [List.append_nil] at hput
    rw [hput]
    refine Session.collect_renewed hrenewed hnodup fun x hx => ?_
    have hname : x.1 ∈ ((offers (turns d fuel a source s c st)).map Prod.fst).eraseDups := by
      rw [← Session.names_putAll]
      exact List.mem_map_of_mem hx
    obtain ⟨y, hy, hyx⟩ := List.mem_map.1 (List.mem_eraseDups.1 hname)
    rw [← hyx]
    exact hoffers y hy

end Lines

end Shell

/-! ## Sittings -/

/-- The console in the course of an interactive session: as the session begins, and after each line whose run has come
to an end, whatever the device has done between the lines. -/
inductive Sitting {σ : Type} (d : Device (StateM σ)) (a : Arguments) : Console → Prop
  | start : Sitting d a
      { asksForTime := a.has .allowUi, session := some (a.imports.foldl (fun s (name, v) => s.assign name v) {}) }
  | line {c : Console} {s : Session} (fuel : Nat) (source : String) (st : σ) (h : Sitting d a c)
      (hs : c.session = some s) (hends : Shell.Ends d fuel a source s c st) :
    Sitting d a (Shell.runLine d fuel a source c st).1.2

/-- The names of a session are different. -/
theorem Sitting.nodup {σ : Type} {d : Device (StateM σ)} {a : Arguments} {c : Console} (h : Sitting d a c) :
    ∃ s, c.session = some s ∧ (s.values.map Prod.fst).Nodup := by
  induction h with
  | start =>
    refine ⟨_, rfl, ?_⟩
    have all (l : List (String × Value)) (s : Session) (hs : (s.values.map Prod.fst).Nodup) :
        ((l.foldl (fun (s : Session) x => s.assign x.1 x.2) s).values.map Prod.fst).Nodup := by
      induction l generalizing s with
      | nil => exact hs
      | cons x l ih => exact ih (s.assign x.1 x.2) (Session.nodup_put hs)
    exact all a.imports {} List.nodup_nil
  | @line c s fuel source st h hs hends ih =>
    obtain ⟨s', hs', hnodup⟩ := ih
    obtain rfl : s = s' := Option.some.inj (hs.symm.trans hs')
    obtain ⟨hoffers, hsession⟩ := Shell.session_line hs hnodup hends
    refine ⟨_, hsession, ?_⟩
    rw [List.map_append, List.map_map]
    refine List.Nodup.append hnodup (Session.nodup_putAll (l := []) List.nodup_nil) ?_
    intro name hname hadded
    rw [Session.names_putAll, List.mem_eraseDups] at hadded
    obtain ⟨x, hx, rfl⟩ := List.mem_map.1 hadded
    exact hoffers x hx hname

/-- No update of a session is lost. Whatever lines have been entered before, and whatever becomes of the next one,
whether it does not compile, completes, faults, is cancelled or runs out of time: the names that the session knows keep
their places, and each has the value of the last assignment of the run that found its shared binding, or its old value
if there is none. Behind them come exactly the names that the run has offered to the console, in the order of their
first offers and with the values of their last ones, and none of these was known before. -/
theorem Sitting.line_updates {σ : Type} (d : Device (StateM σ)) (a : Arguments) (c : Console) (h : Sitting d a c) :
    ∃ s, c.session = some s ∧ (s.values.map Prod.fst).Nodup ∧
      ∀ (fuel : Nat) (source : String) (st : σ), Shell.Ends d fuel a source s c st →
        let turns := Shell.turns d fuel a source s c st
        ∃ added,
          (Shell.runLine d fuel a source c st).1.2.session =
            some ⟨s.values.map (fun x => (x.1, (latest (gifts turns) x.1).getD x.2)) ++ added⟩ ∧
          added.map Prod.fst = ((offers turns).map Prod.fst).eraseDups ∧
          (∀ x ∈ added, latest (offers turns) x.1 = some x.2) ∧
          ∀ x ∈ offers turns, x.1 ∉ s.values.map Prod.fst := by
  obtain ⟨s, hs, hnodup⟩ := h.nodup
  refine ⟨s, hs, hnodup, fun fuel source st hends => ?_⟩
  obtain ⟨hoffers, hsession⟩ := Shell.session_line hs hnodup hends
  exact ⟨_, hsession, Session.names_putAll _, Session.latest_of_mem_putAll, hoffers⟩

/-- A line that makes a name known, and then one that gives a known name a value, offers another one twice, gives a
local variable of a sub a value that has the name of a known one, and faults. -/
theorem Sitting.line_updates_twice :
    let d := Scripted.device
    let a : Arguments := { flags := [.noExplicit], imports := [("X", .text "a")] }
    let start : Console := { asksForTime := false, session := some ⟨[("X", .text "a")]⟩ }
    let c := (Shell.runLine d 20 a "Y = X & X" start {}).1.2
    let source := "SUB P\nDIM X\nX = Y\nEND SUB\nX = Y\nW = X\nP\nW = Y\nX = -Y"
    ∃ s added, Sitting d a c ∧ c.session = some s ∧ s.values.map Prod.fst = ["X", "Y"] ∧
      Shell.Ends d 60 a source s c {} ∧
      (gifts (Shell.turns d 60 a source s c {})).map Prod.fst = ["X"] ∧
      (offers (Shell.turns d 60 a source s c {})).map Prod.fst = ["W", "W"] ∧
      (Shell.runLine d 60 a source c {}).1.2.session = some ⟨s.values.map (fun x =>
        (x.1, (latest (gifts (Shell.turns d 60 a source s c {})) x.1).getD x.2)) ++ added⟩ ∧
      added.map Prod.fst = ["W"] := by
  intro d a start c source
  have hfirst : Shell.Ends d 20 a "Y = X & X" ⟨[("X", .text "a")]⟩ start {} :=
    Shell.ends_of_isSome (by decide +kernel)
  have hsession : start.session = some ⟨[("X", .text "a")]⟩ := rfl
  have hstart : Sitting d a start := Sitting.start
  have hsitting := Sitting.line 20 "Y = X & X" ({} : Scripted) hstart hsession hfirst
  have hends : Shell.Ends d 60 a source (c.session.getD {}) c {} := Shell.ends_of_isSome (by decide +kernel)
  have hknown : (c.session.getD {}).values.map Prod.fst = ["X", "Y"] := by decide +kernel
  have hturns : (gifts (Shell.turns d 60 a source (c.session.getD {}) c {})).map Prod.fst = ["X"] ∧
      (offers (Shell.turns d 60 a source (c.session.getD {}) c {})).map Prod.fst = ["W", "W"] := by decide +kernel
  change Sitting d a c at hsitting
  clear_value c
  obtain ⟨s, hs, _, hline⟩ := Sitting.line_updates d a c hsitting
  rw [hs, Option.getD_some] at hends hknown hturns
  obtain ⟨hgifts, hoffers⟩ := hturns
  obtain ⟨added, hsession, hnames, _⟩ := hline 60 source {} hends
  refine ⟨s, added, hsitting, hs, hknown, hends, hgifts, hoffers, hsession, ?_⟩
  exact hnames.trans (congrArg List.eraseDups hoffers)

end Terminal

end MacroBasic
