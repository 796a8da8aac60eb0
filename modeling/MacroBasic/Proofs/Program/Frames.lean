/-
The frames of a program. Instructions may be put together by hand, with any targets and in any order, and any bindings
may be shared: a run with any host stays within the limits, its constants stay as they are until their names are bound
again, and the bindings that it gives back are those of the frame that it was given, however it ends.
-/
import MacroBasic.Proofs.Program.Stability

namespace MacroBasic

namespace Scope.Tidy

variable {f f' : Scope} {name : String} {v : Value}

theorem assign? (h : f.Tidy) (hassign : f.assign? name v = some f') : f'.Tidy := by
  obtain ⟨names, hnames, rfl⟩ := Option.map_eq_some_iff.1 hassign
  have hsame : names.map Binding.name = f.names.map Binding.name := Scope.map_replace? (fun _ _ => rfl) hnames
  exact ⟨h.stack, hsame ▸ h.names⟩

theorem onBottom (h : f.Tidy) : (Scopes.onBottom f).Tidy where
  nonempty := Nat.succ_pos _
  bounded := show 2 ≤ Scopes.limit by decide
  frames := by
    rintro g (_ | ⟨_, _ | ⟨_, ⟨⟩⟩⟩)
    · exact Scope.tidy_empty
    · exact h

end Scope.Tidy

/-- Nothing that is done with programs takes what they share beyond the limits. -/
theorem Scope.stable_tidy : Stable Tidy where
  empty := Scope.tidy_empty
  allocate _ h := h.allocate _
  assign? hassign h := h.assign? hassign
  unbound h := h.unbound
  clear _ := Scope.tidy_clear _
  worked hworked h := hworked.tidy h

namespace History

open Program Machine

variable {deeds : List Deed} {programs : List Program}

/-- One more operation on the only program. -/
theorem alone {p p' : Program} (op : Operation) (h : ∃ deeds, History deeds [p]) (hop : op.apply p = some p')
    (hadds : op.adds p = []) : ∃ deeds, History deeds [p'] := by
  obtain ⟨deeds, h⟩ := h
  have hslot : [p][0]? = some p := rfl
  have hdeed := h.deed hslot hop
  rw [hadds] at hdeed
  exact ⟨_, hdeed⟩

/-- Any lines can be put together, and any bindings can be shared. -/
theorem assembled (options : Options) (bindings : List (String × Value × Kind)) (lines : List Line) :
    ∃ deeds, History deeds [{ sharing options bindings with lines := lines.toArray }] := by
  have shared (p : Program) (hp : ∃ deeds, History deeds [p]) :
      ∃ deeds, History deeds [bindings.foldl (fun p b => p.importAdd b.1 b.2.1 b.2.2) p] := by
    induction bindings generalizing p with
    | nil => exact hp
    | cons b bindings ih => exact ih _ (alone (.importAdd b.1 b.2.1 b.2.2) hp rfl rfl)
  have added (p : Program) (hp : ∃ deeds, History deeds [p]) :
      ∃ deeds, History deeds [{ p with lines := p.lines ++ lines.toArray }] := by
    induction lines generalizing p with
    | nil => simpa using hp
    | cons line lines ih =>
      have hnext := ih _ (alone (.add line.instruction line.position) hp rfl rfl)
      simpa [Program.add] using hnext
  -- the bindings are shared first, and then the lines are added
  have hnew : ∃ deeds, History deeds [Program.new options] := ⟨[], .start options⟩
  have hall := added _ (shared _ hnew)
  have hlines : (sharing options bindings).lines = #[] := by rw [sharing_eq]; rfl
  change ∃ deeds, History deeds [{ sharing options bindings with
    lines := (sharing options bindings).lines ++ lines.toArray }] at hall
  rw [hlines, Array.empty_append] at hall
  exact hall

/-- Whatever lines a program has and whatever bindings it shares, in every state that a run of it comes to, with any
host, there are between one and 65535 frames, each of them with at most 65535 values and with names that are all
different. A turn works on the frames that there are, enters one or leaves one. As long as a frame is not left its
constants stay as they are, unless an instruction binds the name again while the frame is the innermost one. However
the run ends, the bindings that it gives back are those of the outermost frame, which is the one that it was given:
the names of that frame stay in their order, and its constants stay unless a line binds the name again. -/
theorem run_frames (h : History deeds programs) {p : Program} (hp : p ∈ programs) {σ : Type} (host : Host (StateM σ))
    (st : σ) :
    let start := (starting p.external host st, (host.clock st).2)
    start.1.scopes.frame? 0 = some p.external ∧
    (∀ x, Visits host p.options p.lines start x →
      1 ≤ x.1.scopes.frames.length ∧ x.1.scopes.frames.length ≤ 65535 ∧
      ∀ f ∈ x.1.scopes.frames, f.stack.items.length ≤ 65535 ∧ (f.names.map Binding.name).Nodup) ∧
    (∀ x y line, Turns host p.options p.lines line x y → x.1.scopes.Moves line.instruction y.1.scopes) ∧
    (∀ x y k name b, Visits host p.options p.lines start x → Lasts host p.options p.lines k x y →
      x.1.scopes.binding? k name = some b → b.kind = .constant → y.1.scopes.binding? k name = some b ∨
      ∃ u v line, Lasts host p.options p.lines k x u ∧ Turns host p.options p.lines line u v ∧
        line.instruction.Rebinds name ∧ u.1.scopes.frames.length = k + 1 ∧ Lasts host p.options p.lines k v y) ∧
    ∀ fuel result after st', p.run host fuel st = (some (result, after), st') → ¬ p.Ready ∧ after = p ∨ p.Ready ∧
      ∃ o, Machine.run host p.options p.lines fuel start.1 start.2 = (some o, st') ∧
        Visits host p.options p.lines start (leaves o, st') ∧ (leaves o).scopes.frame? 0 = some after.external ∧
        ∀ y, Visits host p.options p.lines start y → Visits host p.options p.lines y (leaves o, st') →
          ∃ f, y.1.scopes.frame? 0 = some f ∧
            f.Worked (fun name => ∃ line ∈ p.lines, line.instruction.Rebinds name) after.external := by
  intro start
  refine ⟨Scopes.frame?_zero _, fun x hx => ?_, fun x y line hturn => hturn.moves, ?_, ?_⟩
  · have htidy := hx.tidy (h.external_of_stable Scope.stable_tidy p hp).onBottom
    exact ⟨htidy.nonempty, htidy.bounded, fun f hf => ⟨(htidy.frames f hf).stack, (htidy.frames f hf).names⟩⟩
  · intro x y k name b _ hlasts hb hconst
    exact hlasts.constant hb hconst
  · intro fuel result after st' hrun
    refine (run_leaves hrun).imp_right ?_
    rintro ⟨hready, o, hmachine, hexternal⟩
    have hback : (leaves o).scopes.frame? 0 = some after.external := by rw [hexternal, Scopes.frame?_zero]
    refine ⟨hready, o, hmachine, visits_of_run hmachine, hback, fun y _ hy => ?_⟩
    exact ⟨_, Scopes.frame?_zero _, hy.lasts.worked (Scopes.frame?_zero _) hback⟩

/-- Lines put together by hand that leave the inner frame, bind a shared constant again in the frame that is left, and
fault when they try to leave that one as well. -/
theorem run_frames_assembled :
    let bindings := [("c", .text "a", .constant)]
    let instructions : List Instruction := [.popScope, .allocConst "c" (.text "b"), .allocVar "x", .popScope]
    let lines := instructions.map fun i => Line.mk i .zero
    let p : Program := { sharing {} bindings with lines := lines.toArray }
    let host : Host (StateM Unit) := .indifferent (pure 0)
    (∃ deeds, History deeds [p]) ∧ ∃ f after, (p.run host 20 ()).1 = some (.error f, after) ∧
      ["c"] <+: after.external.names.map Binding.name := by
  intro bindings instructions lines p host
  have hfault : (p.run host 20 ()).1.map (·.1.isOk) = some false := by decide +kernel
  obtain ⟨f, after, st, hrun⟩ := faulted_of_isOk hfault
  obtain ⟨deeds, hassembled⟩ := assembled {} bindings lines
  refine ⟨⟨deeds, hassembled⟩, f, after, congrArg Prod.fst hrun, ?_⟩
  obtain ⟨hgiven, _, _, _, hends⟩ := hassembled.run_frames (List.mem_singleton.2 rfl) host ()
  rcases hends 20 _ after st hrun with ⟨hready, _⟩ | ⟨_, o, _, hvisits, _, hkept⟩
  · exact absurd ⟨rfl, rfl⟩ hready
  · obtain ⟨g, hg, hworked⟩ := hkept _ .refl hvisits
    cases hgiven.symm.trans hg
    exact hworked.names

end History

end MacroBasic
