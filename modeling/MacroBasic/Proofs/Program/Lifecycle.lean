/-
The life of a program. Whatever is done with programs, and in whatever order, a program is never left
running, what has become of it agrees with the fault that is recorded, and once it has run it stays as the
run has left it until it is compiled anew: it cannot be run a second time, only a copy of it can.
-/
import MacroBasic.Program

namespace MacroBasic

/-! ## Operations -/

/-- What can be done with a program. -/
inductive Operation : Type 1 where
  /-- Put a new program in the place of this one. -/
  | new (options : Options)
  | compile (source : String)
  | run {σ : Type} (host : Host (StateM σ)) (fuel : Nat) (st : σ)
  /-- Put a copy of the program beside it. -/
  | clone
  | setOptions (options : Options)
  | importAdd (name : String) (v : Value) (kind : Kind)
  | importSet (name : String) (v : Value)
  | importAll (bindings : List (String × Value))
  | importClear
  | add (i : Instruction) (place : Position)
  | retarget (index target : Address)
  | cancel

namespace Operation

/-- The program after an operation. There is none if a run does not end. -/
def apply (p : Program) : Operation → Option Program
  | .new options => some (.new options)
  | .compile source => some (p.compile source).2
  | .run host fuel st => (p.run host fuel st).1.map Prod.snd
  | .clone => some p
  | .setOptions options => some { p with options := options }
  | .importAdd name v kind => some (p.importAdd name v kind)
  | .importSet name v => some (p.importSet name v)
  | .importAll bindings => some (p.importAll bindings)
  | .importClear => some p.importClear
  | .add i place => some (p.add i place).2
  | .retarget index target => some (p.retarget index target).2
  | .cancel => some p.cancel

/-- The programs that an operation puts beside the others. -/
def adds (p : Program) : Operation → List Program
  | .clone => [p.copy]
  | _ => []

/-- Whether an operation gives a program instructions of its own to begin with. -/
def renews : Operation → Bool
  | .new _ | .compile _ => true
  | _ => false

/-- Whether an operation is a run. -/
def isRun : Operation → Bool
  | .run _ _ _ => true
  | _ => false

end Operation

/-- An operation on the program at a place, with the program before and after it. -/
structure Deed where
  slot : Nat
  operation : Operation
  before : Program
  after : Program

/-- Operations one after the other, and the programs that there are then. -/
inductive History : List Deed → List Program → Prop
  | start (options : Options) : History [] [.new options]
  | deed {deeds : List Deed} {programs : List Program} {slot : Nat} {op : Operation} {p p' : Program}
      (h : History deeds programs) (hslot : programs[slot]? = some p) (hop : op.apply p = some p') :
    History (deeds ++ [⟨slot, op, p, p'⟩]) (programs.set slot p' ++ op.adds p)

namespace Program

/-! ## What becomes of a program -/

/-- A run of a program comes to its instructions: it has not run, and no fault is recorded. -/
def Ready (p : Program) : Prop := p.state = .idle ∧ p.error = none

/-- What has become of a program agrees with the fault that is recorded, and each of its instructions has a
place in the source. The second is a matter of how programs are represented and not of what is done to them: a line is
an instruction together with its place, so there always are as many places as instructions. -/
structure Sound (p : Program) : Prop where
  placed : ∀ a, (p.position? a).isSome = true ↔ a < p.size
  resting : p.state ≠ .running
  completed : p.state = .completed → p.error = none
  cancelled : p.state = .cancelled → ∃ f, p.error = some f ∧ f.code = .cancelled
  timedOut : p.state = .timedOut → ∃ f, p.error = some f ∧ f.code = .timedOut
  faulted : p.state = .faulted → ∃ f, p.error = some f ∧ f.code ≠ .cancelled ∧ f.code ≠ .timedOut

/-- Every run of a program ends at once with the given fault. Nothing is asked of the host, and the program
stays as it is. -/
def Refuses (p : Program) (f : Fault) : Prop :=
  ∀ {m : Type → Type} [Monad m] (host : Host m) (fuel : Nat), p.run host fuel = pure (some (.error f, p))

section Fate

variable {p p' : Program}

/-- Every program has places for its instructions, because it keeps both in one array of lines. -/
theorem placed_of_lines (p : Program) (a : Address) : (p.position? a).isSome = true ↔ a < p.size := by
  simp [position?, size]

theorem sound_of_idle (h : p.state = .idle) : p.Sound := by
  refine ⟨p.placed_of_lines, ?_, ?_, ?_, ?_, ?_⟩ <;> rw [h] <;> rintro ⟨⟩

theorem Sound.of_same (h : p.Sound) (hstate : p'.state = p.state) (herror : p'.error = p.error) : p'.Sound := by
  refine ⟨p'.placed_of_lines, ?_, ?_, ?_, ?_, ?_⟩ <;> rw [hstate]
  · exact h.resting
  all_goals rw [herror]
  · exact h.completed
  · exact h.cancelled
  · exact h.timedOut
  · exact h.faulted

theorem code_of_ofFault (f : Fault) :
    State.ofFault f = .cancelled ∧ f.code = .cancelled ∨ State.ofFault f = .timedOut ∧ f.code = .timedOut ∨
      State.ofFault f = .faulted ∧ f.code ≠ .cancelled ∧ f.code ≠ .timedOut := by
  unfold State.ofFault
  split
  · exact .inl ⟨rfl, by assumption⟩
  · exact .inr (.inl ⟨rfl, by assumption⟩)
  · exact .inr (.inr ⟨rfl, by assumption, by assumption⟩)

theorem sound_of_fault {f : Fault} (hstate : p.state = .ofFault f) (herror : p.error = some f) : p.Sound := by
  rcases code_of_ofFault f with ⟨hf, hcode⟩ | ⟨hf, hcode⟩ | ⟨hf, hcode⟩
  all_goals
    rw [hf] at hstate
    refine ⟨p.placed_of_lines, ?_, ?_, ?_, ?_, ?_⟩ <;> rw [hstate] <;> rintro ⟨⟩
    exact ⟨f, herror, hcode⟩

/-- Where no fault is recorded, a run leaves a sound program. -/
theorem sound_finish (herror : p.error = none) (o : Machine.Outcome) : (p.finish o).2.Sound := by
  cases o with
  | ok _ M =>
    refine ⟨placed_of_lines _, ?_, fun _ => herror, ?_, ?_, ?_⟩
    all_goals rintro ⟨⟩
  | error f M => exact sound_of_fault rfl rfl

theorem finish_ne_idle (p : Program) (o : Machine.Outcome) : (p.finish o).2.state ≠ .idle := by
  cases o with
  | ok _ M => rintro ⟨⟩
  | error f M =>
    show State.ofFault f ≠ .idle
    rcases code_of_ofFault f with ⟨hf, _⟩ | ⟨hf, _⟩ | ⟨hf, _⟩
    all_goals rw [hf]; rintro ⟨⟩

end Fate

/-! ## Operations one by one -/

section Operations

variable {p p' : Program} {op : Operation}

theorem importSet_fate (p : Program) (name : String) (v : Value) :
    (p.importSet name v).state = p.state ∧ (p.importSet name v).error = p.error := by
  unfold importSet
  split <;> exact ⟨rfl, rfl⟩

theorem importAll_fate (p : Program) (bindings : List (String × Value)) :
    (p.importAll bindings).state = p.state ∧ (p.importAll bindings).error = p.error := by
  unfold importAll
  induction bindings generalizing p with
  | nil => exact ⟨rfl, rfl⟩
  | cons b bindings ih =>
    obtain ⟨hstate, herror⟩ := ih (p.importSet b.1 b.2)
    obtain ⟨hstate', herror'⟩ := p.importSet_fate b.1 b.2
    exact ⟨hstate.trans hstate', herror.trans herror'⟩

theorem retarget_fate (p : Program) (index target : Address) :
    (p.retarget index target).2.state = p.state ∧ (p.retarget index target).2.error = p.error := by
  unfold retarget
  split
  · split <;> exact ⟨rfl, rfl⟩
  · exact ⟨rfl, rfl⟩

theorem compile_idle (source : String) (p : Program) : (p.compile source).2.state = .idle := by
  unfold compile
  split <;> rfl

/-- A program that has run refuses to run again. -/
theorem refuses_of_ran (h : p.state ≠ .idle) :
    p.Refuses (.because .internal "PROGRAM ALREADY RAN; CLONE IT TO RUN AGAIN") := by
  intro m _ host fuel
  unfold run
  rw [if_pos h]

/-- One that failed to compile refuses to run with the fault of compiling. -/
theorem refuses_of_error {f : Fault} (hstate : p.state = .idle) (h : p.error = some f) : p.Refuses f := by
  intro m _ host fuel
  unfold run
  rw [if_neg (by rw [hstate]; exact fun hne => hne rfl), h]

/-- A run of a program that is ready ends as a run of the machine does. -/
theorem exists_finish {σ : Type} {host : Host (StateM σ)} {fuel : Nat} {st : σ} (hready : p.Ready)
    (h : (p.run host fuel st).1.map Prod.snd = some p') : ∃ o, p' = (p.finish o).2 := by
  unfold run at h
  rw [if_neg (by rw [hready.1]; exact fun hne => hne rfl), hready.2] at h
  obtain ⟨r, hr, rfl⟩ := Option.map_eq_some_iff.1 h
  obtain ⟨o, _, rfl⟩ := Option.map_eq_some_iff.1 hr
  exact ⟨o, rfl⟩

/-- A run leaves a program as it is, or it comes to the instructions. -/
theorem run_fate {σ : Type} {host : Host (StateM σ)} {fuel : Nat} {st : σ}
    (h : (p.run host fuel st).1.map Prod.snd = some p') : p' = p ∨ p.Ready ∧ ∃ o, p' = (p.finish o).2 := by
  by_cases hstate : p.state = .idle
  · cases herror : p.error with
    | some f =>
      rw [refuses_of_error hstate herror] at h
      cases h
      exact .inl rfl
    | none => exact .inr ⟨⟨hstate, herror⟩, exists_finish ⟨hstate, herror⟩ h⟩
  · rw [refuses_of_ran hstate] at h
    cases h
    exact .inl rfl

/-- All that an operation can do to the fate of a program: begin it anew, leave it as it is, or bring a
program that is ready to the end of its run. -/
theorem fate_of_apply (h : op.apply p = some p') :
    op.renews = true ∧ p'.state = .idle ∨
    op.renews = false ∧ p'.state = p.state ∧ p'.error = p.error ∨
    op.isRun = true ∧ op.renews = false ∧ p.Ready ∧ ∃ o, p' = (p.finish o).2 := by
  cases op with
  | new options => cases h; exact .inl ⟨rfl, rfl⟩
  | compile source => cases h; exact .inl ⟨rfl, compile_idle source p⟩
  | run host fuel st =>
    rcases run_fate h with rfl | hran
    · exact .inr (.inl ⟨rfl, rfl, rfl⟩)
    · exact .inr (.inr ⟨rfl, rfl, hran⟩)
  | importSet name v => cases h; exact .inr (.inl ⟨rfl, p.importSet_fate name v⟩)
  | importAll bindings => cases h; exact .inr (.inl ⟨rfl, p.importAll_fate bindings⟩)
  | retarget index target => cases h; exact .inr (.inl ⟨rfl, p.retarget_fate index target⟩)
  | clone | setOptions | importAdd | importClear | add | cancel => cases h; exact .inr (.inl ⟨rfl, rfl, rfl⟩)

theorem Sound.apply (hp : p.Sound) (h : op.apply p = some p') : p'.Sound := by
  rcases fate_of_apply h with ⟨_, hidle⟩ | ⟨_, hstate, herror⟩ | ⟨_, _, hready, o, rfl⟩
  · exact sound_of_idle hidle
  · exact hp.of_same hstate herror
  · exact sound_finish hready.2 o

/-- A program that has run stays as the run has left it, unless it is begun anew. -/
theorem state_of_apply (h : op.apply p = some p') (hran : p.state ≠ .idle) (hop : op.renews = false) :
    p'.state = p.state := by
  rcases fate_of_apply h with ⟨hrenews, _⟩ | ⟨_, hstate, _⟩ | ⟨_, _, hready, _⟩
  · rw [hrenews] at hop
    cases hop
  · exact hstate
  · exact absurd hready.1 hran

/-- A run that comes to the instructions is over for good. -/
theorem ne_idle_of_apply (h : op.apply p = some p') (hrun : op.isRun = true) (hready : p.Ready) :
    p'.state ≠ .idle := by
  cases op with
  | run host fuel st =>
    obtain ⟨o, rfl⟩ := exists_finish hready h
    exact p.finish_ne_idle o
  | _ => cases hrun

end Operations

end Program

/-! ## Histories -/

/-- A run that comes to the instructions of its program. -/
def Deed.Executes (d : Deed) : Prop := d.operation.isRun = true ∧ d.before.Ready

namespace History

variable {deeds : List Deed} {programs : List Program}

theorem sound (h : History deeds programs) : ∀ p ∈ programs, p.Sound := by
  induction h with
  | start options =>
    intro p hp
    rw [List.mem_singleton.1 hp]
    exact Program.sound_of_idle rfl
  | @deed deeds programs slot op p p' h hslot hop ih =>
    intro q hq
    rcases List.mem_append.1 hq with hq | hq
    · rcases List.mem_or_eq_of_mem_set hq with hq | rfl
      · exact ih q hq
      · exact (ih p (List.mem_of_getElem? hslot)).apply hop
    · cases op with
      | clone =>
        rw [List.mem_singleton.1 hq]
        exact Program.sound_of_idle rfl
      | _ => cases hq

theorem applied (h : History deeds programs) : ∀ d ∈ deeds, d.operation.apply d.before = some d.after := by
  induction h with
  | start => intro d hd; cases hd
  | deed _ _ hop ih =>
    intro d hd
    rcases List.mem_append.1 hd with hd | hd
    · exact ih d hd
    · rw [List.mem_singleton.1 hd]
      exact hop

/-- The program at a place after an operation. -/
theorem getElem?_deed {slot slot' : Nat} {op : Operation} {p p' q : Program} (hslot : programs[slot]? = some p)
    (hq : programs[slot']? = some q) :
    (programs.set slot p' ++ op.adds p)[slot']? = some (if slot' = slot then p' else q) := by
  have hlength : slot' < (programs.set slot p').length := by
    rw [List.length_set]
    exact (List.getElem?_eq_some_iff.1 hq).1
  rw [List.getElem?_append_left hlength]
  by_cases hsame : slot' = slot
  · subst hsame
    rw [if_pos rfl, List.getElem?_set_self (List.getElem?_eq_some_iff.1 hslot).1]
  · rw [if_neg hsame, List.getElem?_set_ne (Ne.symm hsame), hq]

/-- When a program has come to its instructions it has been begun anew since, or it still is as a run has
left it. -/
theorem renewed_or_ran (h : History deeds programs) {i : Nat} {d : Deed} (hd : deeds[i]? = some d)
    (hexecutes : d.Executes) :
    (∃ k r, i < k ∧ deeds[k]? = some r ∧ r.slot = d.slot ∧ r.operation.renews = true) ∨
      ∃ p, programs[d.slot]? = some p ∧ p.state ≠ .idle := by
  induction h with
  | start => cases hd
  | @deed deeds programs slot op p p' h hslot hop ih =>
    rcases Nat.lt_or_ge i deeds.length with hi | hi
    · rw [List.getElem?_append_left hi] at hd
      rcases ih hd with ⟨k, r, hik, hr, hrenews⟩ | ⟨q, hq, hran⟩
      · refine .inl ⟨k, r, hik, ?_, hrenews⟩
        rw [List.getElem?_append_left (List.getElem?_eq_some_iff.1 hr).1, hr]
      · by_cases hsame : d.slot = slot
        · cases hrenews : op.renews with
          | true =>
            refine .inl ⟨deeds.length, ⟨slot, op, p, p'⟩, hi, ?_, hsame.symm, hrenews⟩
            rw [List.getElem?_append_right (Nat.le_refl _), Nat.sub_self]
            rfl
          | false =>
            refine .inr ⟨p', by rw [getElem?_deed hslot hq, if_pos hsame], ?_⟩
            rw [hsame, hslot] at hq
            cases hq
            rw [Program.state_of_apply hop hran hrenews]
            exact hran
        · exact .inr ⟨q, by rw [getElem?_deed hslot hq, if_neg hsame], hran⟩
    · rw [List.getElem?_append_right hi, List.getElem?_singleton] at hd
      split at hd
      · cases hd
        refine .inr ⟨p', by rw [getElem?_deed hslot hslot, if_pos rfl], ?_⟩
        exact Program.ne_idle_of_apply hop hexecutes.1 hexecutes.2
      · cases hd

/-- Between two runs that come to the instructions of a program it is begun anew. -/
theorem renewed_between (h : History deeds programs) {i j : Nat} {d e : Deed} (hij : i < j)
    (hd : deeds[i]? = some d) (he : deeds[j]? = some e) (hslot : d.slot = e.slot) (hd' : d.Executes)
    (he' : e.Executes) :
    ∃ k r, i < k ∧ k < j ∧ deeds[k]? = some r ∧ r.slot = d.slot ∧ r.operation.renews = true := by
  induction h with
  | start => cases hd
  | @deed deeds programs slot op p p' h hp hop ih =>
    rcases Nat.lt_or_ge j deeds.length with hj | hj
    · rw [List.getElem?_append_left hj] at he
      rw [List.getElem?_append_left (Nat.lt_trans hij hj)] at hd
      obtain ⟨k, r, hik, hkj, hr, hrenews⟩ := ih hd he
      refine ⟨k, r, hik, hkj, ?_, hrenews⟩
      rw [List.getElem?_append_left (Nat.lt_trans hkj hj), hr]
    · rw [List.getElem?_append_right hj, List.getElem?_singleton] at he
      split at he
      · rename_i hlast
        cases he
        have hj : j = deeds.length := by omega
        subst hj
        rw [List.getElem?_append_left hij] at hd
        rcases h.renewed_or_ran hd hd' with ⟨k, r, hik, hr, hrenews⟩ | ⟨q, hq, hran⟩
        · have hk := (List.getElem?_eq_some_iff.1 hr).1
          exact ⟨k, r, hik, hk, by rw [List.getElem?_append_left hk, hr], hrenews⟩
        · -- the last run finds the program as the first one has left it
          rw [hslot, hp] at hq
          cases hq
          exact absurd he'.2.1 hran
      · cases he

/-- Whatever has been done with programs, each of them is sound; one that has run is left as it is by all
operations but those that begin it anew; one that has run or failed to compile refuses to run, with an
internal fault or with the fault of compiling; and between two runs that come to the instructions of a
program it is begun anew. -/
theorem lifecycle (h : History deeds programs) :
    (∀ p ∈ programs, p.Sound ∧ (p.state ≠ .idle → ∃ f, f.code = .internal ∧ p.Refuses f) ∧
      ∀ f, p.state = .idle → p.error = some f → p.Refuses f) ∧
    (∀ d ∈ deeds, d.before.state ≠ .idle → d.after.state ≠ d.before.state → d.operation.renews = true) ∧
    ∀ (i j : Nat) (d e : Deed), i < j → deeds[i]? = some d → deeds[j]? = some e → d.slot = e.slot →
      d.Executes → e.Executes → ∃ k r, i < k ∧ k < j ∧ deeds[k]? = some r ∧ r.slot = d.slot ∧ r.operation.renews = true := by
  refine ⟨fun p hp => ⟨h.sound p hp, ?_, ?_⟩, ?_, ?_⟩
  · exact fun hran => ⟨_, rfl, Program.refuses_of_ran hran⟩
  · exact fun f hidle herror => Program.refuses_of_error hidle herror
  · intro d hd hran hleft
    cases hrenews : d.operation.renews with
    | true => rfl
    | false => exact absurd (Program.state_of_apply (h.applied d hd) hran hrenews) hleft
  · intro i j d e hij hd he hslot hd' he'
    exact h.renewed_between hij hd he hslot hd' he'

/-- A program that is compiled and run is not run again, and a copy of it stands ready. -/
theorem lifecycle_twice :
    let host : Host (StateM Unit) := .indifferent (pure 0)
    ∃ compiled ran, History [⟨0, .compile "DEBUGCLEAR", .new {}, compiled⟩, ⟨0, .run host 20 (), compiled, ran⟩,
        ⟨0, .run host 20 (), ran, ran⟩, ⟨0, .clone, ran, ran⟩] [ran, ran.copy] ∧
      ran.state = .completed ∧ ran.error = none ∧ (∃ f, f.code = .internal ∧ ran.Refuses f) ∧ ran.copy.Sound := by
  intro host
  have hstate : ((((Program.new {}).compile "DEBUGCLEAR").2.run host 20 ()).1.map fun r => r.2.state) =
      some .completed := by decide +kernel
  generalize hcompiled : ((Program.new {}).compile "DEBUGCLEAR").2 = compiled at hstate
  obtain ⟨⟨result, ran⟩, hran, hcompleted⟩ := Option.map_eq_some_iff.1 hstate
  change ran.state = .completed at hcompleted
  have hended : ran.state ≠ .idle := by rw [hcompleted]; rintro ⟨⟩
  have hcompile : History [⟨0, .compile "DEBUGCLEAR", .new {}, compiled⟩] [compiled] :=
    (start {}).deed rfl (congrArg some hcompiled)
  have hrun : History ([⟨0, .compile "DEBUGCLEAR", .new {}, compiled⟩] ++ [⟨0, .run host 20 (), compiled, ran⟩])
      [ran] :=
    hcompile.deed rfl (congrArg (Option.map Prod.snd) hran)
  have hrefused : Operation.apply ran (.run host 20 ()) = some ran :=
    congrArg (fun r => r.1.map Prod.snd) (congrFun (Program.refuses_of_ran hended host 20) ())
  have hagain := hrun.deed (show [ran][0]? = some ran from rfl) hrefused
  have hclone := hagain.deed (show [ran][0]? = some ran from rfl) (show Operation.apply ran .clone = some ran from rfl)
  obtain ⟨hsound, hrefuses, _⟩ := hclone.lifecycle.1 ran (List.mem_cons_self ..)
  refine ⟨compiled, ran, hclone, hcompleted, hsound.completed hcompleted, hrefuses hended, ?_⟩
  exact (hclone.lifecycle.1 ran.copy (List.mem_cons_of_mem _ (List.mem_singleton.2 rfl))).1

end History

end MacroBasic
