/-
What the parser sees at each instruction of a script: the scopes in which it looks names up, and the realms that
these belong to. The code of a script keeps to these views. An instruction leads to where the same realms are around,
a routine is called only where the realm around it is around the call too, names are bound only in the realms that
declare them, and the names that are used are those that the parser has found.
-/
import MacroBasic.Proofs.Grammar.Layout
import MacroBasic.Proofs.Grammar.Placement
import MacroBasic.Proofs.Grammar.Scoping

namespace MacroBasic

open Machine

/-! ## Views -/

mutual

/-- The names that a statement binds in the scope in which it is run. -/
def Stmt.locals : Stmt → List String
  | .declare names => names
  | .constants definitions => definitions.map Prod.fst
  | .routine isFunction name _ _ => if isFunction then [name] else []
  | .branch _ yes => yes.locals
  | .branchElse _ yes no => yes.locals ++ no.locals
  | .countLoop _ _ _ _ body => body.locals
  | .guardLoop _ body _ => body.locals
  | .share _ | .exitLoop _ _ | .exitRoutine | .print _ | .notify _ | .dialog _ _ | .assign _ _ _ | .call _ _ => []

def Block.locals : Block → List String
  | .nil => []
  | .cons _ first rest => first.locals ++ rest.locals

end

/-- What the parser sees at a place in a script: the scopes in which it looks names up, the realm that the place is
in, and the realms around that one. -/
structure View where
  names : Scopes
  realm : Realm
  around : List Realm

namespace View

/-- All realms at a place, the innermost one first. -/
def realms (v : View) : List Realm := v.realm :: v.around

/-- The realm in whose scope the parser finds a name. -/
def resolve? (v : View) (x : String) : Option Realm :=
  ((v.names.frames.zip v.realms).find? fun p => p.1.contains x).map Prod.snd

/-- The view inside of a routine that is defined at address `a`. The scope of an activation also binds the address to
return to. -/
def entering (v : View) (a : Address) (isFunction : Bool) (name : String) (parameters : List String) (body : Block) :
    View where
  names := (v.names.withRoutine a isFunction name parameters).enter parameters
  realm := ⟨.routine (a + routineHeadSize isFunction), returnName :: (parameters ++ body.locals)⟩
  around := v.realms

end View

mutual

/-- The views of the instructions of a statement at address `a`, given the one before it. -/
def Stmt.views (a : Address) (v : View) : Stmt → List View
  | .routine isFunction name parameters body =>
    let inner := v.entering a isFunction name parameters body
    List.replicate (routineHeadSize isFunction) v ++ (body.views (a + routineHeadSize isFunction) inner ++ [inner])
  | .branch c yes => List.replicate (c.size + 1) v ++ yes.views (a + c.size + 1) v
  | .branchElse c yes no =>
    let start := a + c.size + 1
    List.replicate (c.size + 1) v ++ (yes.views start v ++
      (v :: no.views (start + yes.size + 1) { v with names := yes.declared start v.names }))
  | .countLoop _ start limit step body =>
    List.replicate (countHeadSize start limit step) v ++
      (body.views (a + countHeadSize start limit step) v ++ List.replicate 15 v)
  | .guardLoop head body tail =>
    let start := a + 1 + headSize head
    List.replicate (1 + headSize head) v ++ (body.views start v ++
      List.replicate (tailSize tail + 1) { v with names := body.declared start v.names })
  | stmt => List.replicate stmt.size v

/-- The views of the instructions of a block at address `a`, given the one before it. -/
def Block.views (a : Address) (v : View) : Block → List View
  | .nil => []
  | .cons _ first rest => first.views a v ++ rest.views (a + first.size) { v with names := first.declared a v.names }

end

/-- The realms around each address, given the views. -/
def realmsAt (V : Address → Option View) (a : Address) : Option (List Realm) := (V a).map View.realms

mutual

@[simp] theorem Stmt.length_views : (stmt : Stmt) → ∀ (a : Address) (v : View), (stmt.views a v).length = stmt.size
  | .routine isFunction _ _ body, a, v => by simp [Stmt.views, Stmt.size, body.length_views]; omega
  | .branch c yes, a, v => by simp [Stmt.views, Stmt.size, yes.length_views]; omega
  | .branchElse c yes no, a, v => by simp [Stmt.views, Stmt.size, yes.length_views, no.length_views]; omega
  | .countLoop _ start limit step body, a, v => by simp [Stmt.views, Stmt.size, body.length_views]; omega
  | .guardLoop head body tail, a, v => by simp [Stmt.views, Stmt.size, body.length_views]; omega
  | .share _, _, _ | .declare _, _, _ | .constants _, _, _ | .exitLoop _ _, _, _ | .exitRoutine, _, _ | .print _, _, _
  | .notify _, _, _ | .dialog _ _, _, _ | .assign _ _ _, _, _ | .call _ _, _, _ => List.length_replicate

@[simp] theorem Block.length_views : (b : Block) → ∀ (a : Address) (v : View), (b.views a v).length = b.size
  | .nil, _, _ => rfl
  | .cons _ first rest, a, v => by simp [Block.views, Block.size, first.length_views, rest.length_views]

end

/-! ## Scopes of the parser and realms -/

section Aligned

variable (T : Address → Option (List Realm))

/-- If a binding is that of a routine, the realm of the routine stands in the given realms. -/
def Founded (us : List Realm) (b : Binding) : Prop :=
  ∀ entry, b.address = some entry → ∃ u, T entry = some (u :: us) ∧ u.home = .routine entry ∧
    returnName ∈ u.names ∧ b.parameters ⊆ u.names

/-- There is a realm for each scope of the parser, in which the routines of that scope stand. -/
inductive Aligned : List Scope → List Realm → Prop
  | nil : Aligned [] []
  | cons {f : Scope} {frames : List Scope} {u : Realm} {us : List Realm}
      (hf : ∀ b ∈ f.names, Founded T (u :: us) b) (h : Aligned frames us) : Aligned (f :: frames) (u :: us)

end Aligned

section Aligned

variable {T : Address → Option (List Realm)} {us : List Realm} {frames : List Scope} {names : Scopes} {b : Binding}

/-- Every routine that the parser sees may be called. -/
theorem Aligned.callable (h : Aligned T frames us) {r : Routine}
    (hr : ∃ frame ∈ frames, ∃ b ∈ frame.names, b.address = some r.entry ∧ b.parameters = r.parameters) :
    (callable T us).routine r := by
  obtain ⟨frame, hframe, b, hb, haddress, hparameters⟩ := hr
  induction h with
  | nil => cases hframe
  | @cons f frames u us hf _ ih =>
    rcases List.mem_cons.1 hframe with rfl | hframe
    · obtain ⟨w, hentry, hhome, hreturn, hnames⟩ := hf b hb r.entry haddress
      exact ⟨w, u :: us, hentry, List.suffix_rfl, hhome, hreturn, hparameters ▸ hnames⟩
    · obtain ⟨w, around, hentry, haround, hrest⟩ := ih hframe
      exact ⟨w, around, hentry, haround.trans (List.suffix_cons u us), hrest⟩

/-- Every name that the parser sees is found in a scope of some realm. -/
theorem Aligned.find? (h : Aligned T frames us) {x : String} (hx : (frames.findSome? (·.get? x)).isSome) :
    ∃ p, (frames.zip us).find? (fun p => p.1.contains x) = some p := by
  induction h with
  | nil => cases hx
  | @cons f frames u us _ _ ih =>
    rw [List.zip_cons_cons, List.find?_cons]
    cases hf : f.get? x with
    | some b => exact ⟨(f, u), by simp [Scope.contains, hf]⟩
    | none =>
      rw [List.findSome?_cons, hf] at hx
      obtain ⟨p, hp⟩ := ih hx
      exact ⟨p, by simpa [Scope.contains, hf] using hp⟩

theorem Aligned.allocate (h : Aligned T names.frames us) (hb : Founded T us b) :
    Aligned T (names.allocate b).frames us := by
  cases h with
  | cons hf h =>
    refine .cons (fun b' hb' => ?_) h
    rcases Scope.mem_put hb' with rfl | hb'
    · exact hb
    · exact hf b' hb'

theorem Aligned.foldl {α : Type} {step : Scopes → α → Scopes}
    (hstep : ∀ names x, Aligned T names.frames us → Aligned T (step names x).frames us) (xs : List α)
    (h : Aligned T names.frames us) : Aligned T (xs.foldl step names).frames us := by
  induction xs generalizing names with
  | nil => exact h
  | cons x xs ih => exact ih (hstep names x h)

theorem Aligned.withVariable (h : Aligned T names.frames us) (x : String) : Aligned T (names.withVariable x).frames us :=
  h.allocate nofun

theorem Aligned.withConstant (h : Aligned T names.frames us) (d : String × Value) :
    Aligned T (names.withConstant d).frames us := h.allocate nofun

theorem Aligned.enter (h : Aligned T names.frames us) (u : Realm) (parameters : List String) :
    Aligned T (names.enter parameters).frames (u :: us) :=
  .foldl (fun _ x hnames => hnames.withVariable x) parameters (.cons nofun h)

end Aligned

/-! ## Views of code -/

section Views

variable {V : Address → Option View} {v : View} {a b n : Nat} {l : List View}

/-- The parser sees the same from one address up to another, where at least the same realms are around. -/
def View.Seen (V : Address → Option View) (v : View) (a b : Nat) : Prop :=
  (∀ c, a ≤ c → c < b → V c = some v) ∧ realmsAt V b = some v.realms

theorem realmsAt_of_view (h : V a = some v) : realmsAt V a = some v.realms := congrArg (Option.map View.realms) h

theorem View.Seen.within (h : v.Seen V a b) : Within (realmsAt V) v.realms a b := by
  intro c hac hcb
  rcases Nat.lt_or_eq_of_le hcb with hlt | rfl
  · exact realmsAt_of_view (h.1 c hac hlt)
  · exact h.2

theorem View.Seen.mono {a' b' : Nat} (h : v.Seen V a b) (ha : a ≤ a' := by omega) (hb : b' ≤ b := by omega)
    (hab : a' ≤ b' := by omega) : v.Seen V a' b' :=
  ⟨fun c hac hcb => h.1 c (ha.trans hac) (Nat.lt_of_lt_of_le hcb hb), h.within b' (ha.trans hab) hb⟩

theorem seen_of_replicate (h : ListsAt V a (List.replicate n v)) (hb : a + n = b)
    (hend : realmsAt V b = some v.realms) : v.Seen V a b := by
  refine ⟨fun c hac hcb => ?_, hend⟩
  have hc := h (c - a) v (by rw [List.getElem?_replicate, if_pos (by omega)])
  rwa [show a + (c - a) = c by omega] at hc

theorem realmsAt_of_replicate (h : ListsAt V a (List.replicate n v ++ l))
    (hn : n = 0 → realmsAt V a = some v.realms) : realmsAt V a = some v.realms := by
  cases n with
  | zero => exact hn rfl
  | succ n => exact realmsAt_of_view h.first

/-- Where a statement begins, the realms around it are around. -/
theorem Stmt.realmsAt_start (stmt : Stmt) (h : ListsAt V a (stmt.views a v))
    (hend : realmsAt V (a + stmt.size) = some v.realms) : realmsAt V a = some v.realms := by
  cases stmt with
  | routine isFunction => exact realmsAt_of_replicate h (by cases isFunction <;> exact nofun)
  | branch | branchElse => exact realmsAt_of_replicate h nofun
  | countLoop => exact realmsAt_of_replicate h (by simp [countHeadSize])
  | guardLoop => exact realmsAt_of_replicate h (by omega)
  | _ =>
    refine realmsAt_of_replicate (l := []) (by rw [List.append_nil]; exact h) fun hzero => ?_
    rwa [hzero] at hend

theorem Block.realmsAt_start : (block : Block) → ∀ {a : Nat} {v : View}, ListsAt V a (block.views a v) →
    realmsAt V (a + block.size) = some v.realms → realmsAt V a = some v.realms
  | .nil, _, _, _, hend => hend
  | .cons _ first rest, a, v, h, hend => by
    rw [Block.size, ← Nat.add_assoc] at hend
    have hrest := h.right (b := a + first.size) (by rw [first.length_views])
    have hnext := rest.realmsAt_start hrest hend
    exact first.realmsAt_start h.left hnext

/-- The realm of a routine is around where it begins. -/
theorem realmsAt_entry {isFunction : Bool} {name : String} {parameters : List String} {body : Block}
    (h : ListsAt V a ((Stmt.routine isFunction name parameters body).views a v)) :
    realmsAt V (a + routineHeadSize isFunction) = some (v.entering a isFunction name parameters body).realms := by
  have hbody := h.right (b := a + routineHeadSize isFunction) (by rw [List.length_replicate])
  exact body.realmsAt_start hbody.left
    (realmsAt_of_view (hbody.right (b := a + routineHeadSize isFunction + body.size) (by rw [body.length_views])).first)

theorem aligned_withRoutine {isFunction : Bool} {name : String} {parameters : List String} {body : Block}
    (h : ListsAt V a ((Stmt.routine isFunction name parameters body).views a v))
    (hv : Aligned (realmsAt V) v.names.frames v.realms) :
    Aligned (realmsAt V) (v.names.withRoutine a isFunction name parameters).frames v.realms := by
  refine hv.allocate ?_
  rintro entry ⟨⟩
  exact ⟨_, realmsAt_entry h, rfl, List.mem_cons_self,
    fun x hx => List.mem_cons_of_mem _ (List.mem_append_left _ hx)⟩

mutual

/-- Behind a statement too there is a realm for each scope. -/
theorem Stmt.aligned : (stmt : Stmt) → ∀ {a : Nat} {v : View}, ListsAt V a (stmt.views a v) →
    Aligned (realmsAt V) v.names.frames v.realms →
    Aligned (realmsAt V) (stmt.declared a v.names).frames v.realms
  | .share shared, _, _, _, hv => by
    refine hv.foldl (fun names x hnames => ?_) shared
    unfold Scopes.withShared
    split
    · exact hnames
    · exact hnames.withVariable x
  | .declare declared, _, _, _, hv => hv.foldl (fun _ x hnames => hnames.withVariable x) declared
  | .constants definitions, _, _, _, hv => hv.foldl (fun _ d hnames => hnames.withConstant d) definitions
  | .routine _ _ _ _, _, _, h, hv => aligned_withRoutine h hv
  | .branch c yes, a, v, h, hv => yes.aligned (h.right (by rw [List.length_replicate]; rfl)) hv
  | .branchElse c yes no, a, v, h, hv => by
    have hyes := h.right (b := a + c.size + 1) (by rw [List.length_replicate]; rfl)
    have hno := (hyes.right (b := a + c.size + 1 + yes.size) (by rw [yes.length_views])).tail
    exact no.aligned hno (yes.aligned hyes.left hv)
  | .countLoop _ start limit step body, a, v, h, hv =>
    body.aligned (h.right (by rw [List.length_replicate])).left hv
  | .guardLoop head body tail, a, v, h, hv =>
    body.aligned (h.right (by rw [List.length_replicate, Nat.add_assoc])).left hv
  | .exitLoop _ _, _, _, _, hv | .exitRoutine, _, _, _, hv | .print _, _, _, _, hv | .notify _, _, _, _, hv
  | .dialog _ _, _, _, _, hv | .assign _ _ _, _, _, _, hv | .call _ _, _, _, _, hv => hv

theorem Block.aligned : (block : Block) → ∀ {a : Nat} {v : View}, ListsAt V a (block.views a v) →
    Aligned (realmsAt V) v.names.frames v.realms →
    Aligned (realmsAt V) (block.declared a v.names).frames v.realms
  | .nil, _, _, _, hv => hv
  | .cons _ first rest, a, v, h, hv =>
    rest.aligned (h.right (by rw [first.length_views])) (first.aligned h.left hv)

end

end Views

/-! ## Code of statements -/

section Statements

variable (lines : Array Line) (L : Address → Option Layout) (V : Address → Option View) (sites : List CallSite)

/-- An instruction keeps to the realms at its address, and the parser has found the names that it uses there, except
for those of parameters to which it gives a value for a call. -/
structure Seated (b : Nat) (i : Instruction) : Prop where
  placed : Placed lines L (realmsAt V) b i
  reads : ∀ x, i = .pushVariable x → ∃ v u, V b = some v ∧ v.resolve? x = some u
  given : ∀ x, i = .assign x → (∃ c ∈ sites, c.ready ≤ b ∧ b < c.calling) ∨
    Idle L b ∧ ∃ v u, V b = some v ∧ v.resolve? x = some u

end Statements

section Statements

variable {lines : Array Line} {L : Address → Option Layout} {V : Address → Option View} {sites : List CallSite}
  {v : View} {a b : Nat} {code : List Instruction} {i : Instruction} {x : String}

theorem resolve?_of_usable (hv : Aligned (realmsAt V) v.names.frames v.realms) (hx : v.names.Usable x) :
    ∃ u, v.resolve? x = some u := by
  obtain ⟨b, hb, _⟩ := hx
  obtain ⟨p, hp⟩ := hv.find? (Option.isSome_iff_exists.2 ⟨b, hb⟩)
  exact ⟨p.2, congrArg (Option.map Prod.snd) hp⟩

theorem seated_plain (h : Placed lines L (realmsAt V) b i) (hread : ∀ x, i ≠ .pushVariable x)
    (hassign : ∀ x, i ≠ .assign x) : Seated lines L V sites b i :=
  ⟨h, fun x hx => absurd hx (hread x), fun x hx => absurd hx (hassign x)⟩

theorem seated_jump (ha : realmsAt V a = some v.realms) (hb : realmsAt V b = some v.realms) :
    Seated lines L V sites a (.jump b) := seated_plain (hb.trans ha.symm) nofun nofun

theorem seated_branch (hv : v.Seen V a (a + 1)) (hb : realmsAt V b = some v.realms)
    (hi : i = .jumpTrue b ∨ i = .jumpFalse b) : Seated lines L V sites a i := by
  have ha := realmsAt_of_view (hv.1 a (Nat.le_refl a) (Nat.lt_succ_self a))
  have hboth := And.intro (hv.2.trans ha.symm) (hb.trans ha.symm)
  rcases hi with rfl | rfl
  all_goals
    refine seated_plain hboth ?_ ?_
    all_goals rintro _ ⟨⟩

/-- An instruction that uses no name. -/
theorem seated_silent (hv : v.Seen V a (a + 1)) (hi : i.advances) (hread : ∀ x, i ≠ .pushVariable x) :
    Seated lines L V sites a i := by
  have ha := realmsAt_of_view (hv.1 a (Nat.le_refl a) (Nat.lt_succ_self a))
  refine seated_plain (placed_advances hi (hv.2.trans ha.symm)) hread ?_
  rintro x rfl
  cases hi

theorem seated_read (hv : v.Seen V a (a + 1)) (haligned : Aligned (realmsAt V) v.names.frames v.realms)
    (hx : v.names.Usable x) : Seated lines L V sites a (.pushVariable x) := by
  have ha := hv.1 a (Nat.le_refl a) (Nat.lt_succ_self a)
  obtain ⟨u, hu⟩ := resolve?_of_usable haligned hx
  refine ⟨hv.2.trans (realmsAt_of_view ha).symm, ?_, nofun⟩
  rintro _ ⟨⟩
  exact ⟨v, u, ha, hu⟩

theorem seated_assign (hv : v.Seen V a (a + 1)) (haligned : Aligned (realmsAt V) v.names.frames v.realms)
    (hx : v.names.Usable x) (hidle : Idle L a) : Seated lines L V sites a (.assign x) := by
  have ha := hv.1 a (Nat.le_refl a) (Nat.lt_succ_self a)
  obtain ⟨u, hu⟩ := resolve?_of_usable haligned hx
  refine ⟨hv.2.trans (realmsAt_of_view ha).symm, nofun, ?_⟩
  rintro _ ⟨⟩
  exact .inr ⟨hidle, v, u, ha, hu⟩

/-- Binding names of the innermost realm. -/
theorem seated_bind (hv : v.Seen V a (a + code.length)) (hidle : ∀ n < code.length, Idle L (a + n))
    (hcode : ∀ i ∈ code, ∃ x ∈ v.realm.names, i = .allocVar x ∨ ∃ w, i = .allocConst x w) :
    EachAt (Seated lines L V sites) a code := by
  intro n i hi
  have hn := (List.getElem?_eq_some_iff.1 hi).1
  obtain ⟨s, hs, hwaiting⟩ := hidle n hn
  have ha := hv.within (a + n) (by omega) (by omega)
  have hplaced (x : String) (hx : x ∈ v.realm.names) : Placed lines L (realmsAt V) (a + n) (.allocVar x) :=
    ⟨(hv.within (a + n + 1) (by omega) (by omega)).trans ha.symm, .inl ⟨s, _, _, hs, hwaiting, ha, hx⟩⟩
  obtain ⟨x, hx, rfl | ⟨w, rfl⟩⟩ := hcode i (List.mem_of_getElem? hi)
  · exact seated_plain (hplaced x hx) nofun nofun
  · exact seated_plain (hplaced x hx) nofun nofun

/-- Code of expressions reads only names that the parser has found if these are seen. -/
theorem EachAt.seated (h : EachAt (Fixed lines L (realmsAt V) sites) a code) (hv : v.Seen V a (a + code.length))
    (haligned : Aligned (realmsAt V) v.names.frames v.realms)
    (hreads : ∀ x, .pushVariable x ∈ code → v.names.Usable x) : EachAt (Seated lines L V sites) a code := by
  intro n i hi
  have hn := (List.getElem?_eq_some_iff.1 hi).1
  have hfixed := h n i hi
  refine ⟨hfixed.placed, ?_, fun x hx => .inl (hfixed.given x hx)⟩
  rintro x rfl
  obtain ⟨u, hu⟩ := resolve?_of_usable haligned (hreads x (List.mem_of_getElem? hi))
  exact ⟨v, u, hv.1 _ (by omega) (by omega), hu⟩

theorem seated_advances (hv : v.Seen V a (a + code.length)) (haligned : Aligned (realmsAt V) v.names.frames v.realms)
    (hcode : ∀ i ∈ code, i.advances) (hreads : ∀ x, .pushVariable x ∈ code → v.names.Usable x) :
    EachAt (Seated lines L V sites) a code :=
  (eachAt_advances hv.within hcode).seated hv haligned hreads

section Parts

variable (haligned : Aligned (realmsAt V) v.names.frames v.realms)

include haligned

theorem Expr.seated {e : Expr} (he : e.Resolved v.names) (hsites : e.sites a ⊆ sites) (h : CodeAt lines a (e.code a))
    (hv : v.Seen V a (a + e.size)) : EachAt (Seated lines L V sites) a (e.code a) := by
  have hfixed := e.fixed (L := L) (e.obeys_mono (fun r hr => haligned.callable hr) he.calls) hsites h hv.within
  rw [← e.length_code a] at hv
  exact hfixed.seated hv haligned (he.reads a)

theorem seated_step {step : Option Expr} (hstep : ∀ e ∈ step, e.Resolved v.names)
    (hsites : sitesOfOption a step ⊆ sites) (h : CodeAt lines a (stepCode a step))
    (hv : v.Seen V a (a + stepSize step)) : EachAt (Seated lines L V sites) a (stepCode a step) := by
  cases step with
  | some e => exact Expr.seated haligned (hstep e rfl) hsites h hv
  | none => exact seated_advances hv haligned (by simp [stepCode, Instruction.advances]) (by simp [stepCode])

theorem seated_print {e : Option Expr} (he : ∀ x ∈ e, x.Resolved v.names) (hsites : sitesOfOption a e ⊆ sites)
    (h : CodeAt lines a (printCode a e)) (hv : v.Seen V a (a + printSize e)) :
    EachAt (Seated lines L V sites) a (printCode a e) := by
  cases e with
  | some e => exact Expr.seated haligned (he e rfl) hsites h hv
  | none => exact seated_advances hv haligned (by simp [printCode, Instruction.advances]) (by simp [printCode])

/-- A condition with the branch behind it. -/
theorem seated_condition {e : Expr} (he : e.Resolved v.names) (hsites : e.sites a ⊆ sites)
    (h : CodeAt lines a (e.code a ++ [i])) (hv : v.Seen V a (a + e.size + 1)) (hb : realmsAt V b = some v.realms)
    (hi : i = .jumpTrue b ∨ i = .jumpFalse b) : EachAt (Seated lines L V sites) a (e.code a ++ [i]) :=
  .append (b := a + e.size) (Expr.seated haligned he hsites h.left hv.mono) (.one (seated_branch hv.mono hb hi))
    (by rw [e.length_code])

theorem seated_head {head : Option Guard} (hhead : ∀ g ∈ head, g.condition.Resolved v.names)
    (hsites : sitesOfOption a (head.map Guard.condition) ⊆ sites) (h : CodeAt lines a (headCode a b head))
    (hv : v.Seen V a (a + headSize head)) (hb : realmsAt V b = some v.realms) :
    EachAt (Seated lines L V sites) a (headCode a b head) := by
  cases head with
  | none => exact .nil
  | some g => exact seated_condition haligned (hhead g rfl) hsites h hv hb (by split <;> simp)

theorem seated_tail {tail : Option Guard} (htail : ∀ g ∈ tail, g.condition.Resolved v.names)
    (hsites : sitesOfOption a (tail.map Guard.condition) ⊆ sites) (h : CodeAt lines a (tailCode a b tail))
    (hv : v.Seen V a (a + tailSize tail)) (hb : realmsAt V b = some v.realms) :
    EachAt (Seated lines L V sites) a (tailCode a b tail) := by
  cases tail with
  | none => exact .one (seated_jump (realmsAt_of_view (hv.1 a (Nat.le_refl a) (Nat.lt_succ_self a))) hb)
  | some g => exact seated_condition haligned (htail g rfl) hsites h hv hb (by split <;> simp)

/-- The code of a counting loop before its body. -/
theorem seated_open {counter : String} {start limit : Expr} {step : Option Expr} {done : Nat} {s inner : Shape}
    (hcounter : v.names.Usable counter) (hstart : start.Resolved v.names) (hlimit : limit.Resolved v.names)
    (hstep : ∀ e ∈ step, e.Resolved v.names)
    (hsites : start.sites a ++ limit.sites (a + start.size + 1) ++
      sitesOfOption (a + start.size + 1 + limit.size) step ⊆ sites)
    (h : CodeAt lines a (openCode a counter start limit step done))
    (hlaid : ListsAt L a (openLayouts s inner start limit step)) (hs : s.waiting = [])
    (hv : v.Seen V a (a + countHeadSize start limit step)) (hdone : realmsAt V done = some v.realms) :
    EachAt (Seated lines L V sites) a (openCode a counter start limit step done) := by
  obtain ⟨hsites, hstepSites⟩ := List.append_subset.1 hsites
  obtain ⟨hstartSites, hlimitSites⟩ := List.append_subset.1 hsites
  obtain ⟨hstartCode, hlimitCode, hstepCode, _⟩ := h.openCode
  have hassign := (hlaid.right (b := a + start.size) (by rw [start.length_layouts])).first
  rw [countHeadSize] at hv
  refine eachAt_openCode.2 ⟨?_, .cons ?_ ?_, ?_, .append
    (b := a + start.size + 1 + limit.size + stepSize step + 8) ?_ (.one ?_) rfl⟩
  · exact Expr.seated haligned hstart hstartSites hstartCode hv.mono
  · exact seated_assign hv.mono haligned hcounter ⟨_, hassign, hs⟩
  · exact Expr.seated haligned hlimit hlimitSites hlimitCode.tail hv.mono
  · exact seated_step haligned hstep hstepSites hstepCode hv.mono
  · refine seated_advances (hv.mono (by omega) (by simp; omega) (by omega)) haligned ?_ ?_
    · simp [countTest, Instruction.advances]
    · simp only [countTest, List.mem_cons, List.not_mem_nil, reduceCtorEq, Instruction.pushVariable.injEq, false_or,
        or_false]
      rintro x rfl
      exact hcounter
  · exact seated_branch hv.mono hdone (.inr rfl)

/-- The code of a counting loop behind its body. -/
theorem seated_close {counter : String} {again : Nat} {inner : Shape} (hcounter : v.names.Usable counter)
    (hlaid : ListsAt L a (closeLayouts inner)) (hs : inner.waiting = []) (hv : v.Seen V a (a + 15))
    (hagain : realmsAt V again = some v.realms) :
    EachAt (Seated lines L V sites) a (closeCode counter again) := by
  have hassign := hlaid 3 _ rfl
  have hvisible : ∀ x, x = counter → v.names.Usable x := fun x hx => hx ▸ hcounter
  have hadd : EachAt (Seated lines L V sites) a [.copy 1, .pushVariable counter, .binary .add] :=
    seated_advances (hv.mono (Nat.le_refl a) (by simp)) haligned (by simp [Instruction.advances])
      (by simpa using hvisible)
  have htest : EachAt (Seated lines L V sites) (a + 4) (countTest counter) :=
    seated_advances (hv.mono (by omega) (by simp)) haligned (by simp [countTest, Instruction.advances])
      (by simpa [countTest] using hvisible)
  have hpops : EachAt (Seated lines L V sites) (a + 12) [.pop, .pop, .pop] :=
    seated_advances (hv.mono (by omega) (by simp)) haligned (by simp [Instruction.advances]) (by simp)
  have hgiven : Seated lines L V sites (a + 3) (.assign counter) :=
    seated_assign hv.mono haligned hcounter ⟨_, hassign, hs⟩
  refine eachAt_closeCode.2 ⟨hadd.append (.one hgiven) rfl, htest, .cons ?_ hpops⟩
  exact seated_branch hv.mono hagain (.inl rfl)

theorem seated_slots {slots : List Slot} {defaults : List Value} (hslots : ∀ e, .given e ∈ slots → e.Resolved v.names)
    (hsites : sitesOfSlots a defaults slots ⊆ sites) (h : CodeAt lines a (codeOfSlots a defaults slots))
    (hv : v.Seen V a (a + sizeOfSlots defaults slots)) :
    EachAt (Seated lines L V sites) a (codeOfSlots a defaults slots) := by
  have hobeys := slotsObey_iff.2 fun e he => (hslots e he).calls
  have hfixed := fixed_slots (L := L) slots (slotsObey_mono (fun _ hr => haligned.callable hr) slots hobeys) hsites h
    hv.within
  rw [← length_codeOfSlots a] at hv
  refine hfixed.seated hv haligned fun x hx => ?_
  obtain ⟨e, he, b, hread⟩ := exists_of_reads_slots hx
  exact (hslots e he).reads b x hread

theorem seated_call {r : Routine} {arguments : List Expr} (hr : v.names.visible.routine r)
    (harguments : ∀ e ∈ arguments, e.Resolved v.names)
    (hsites : ⟨a, r, arguments, false⟩ :: sitesOfAll (a + 1) arguments ⊆ sites)
    (h : CodeAt lines a (CallSite.code ⟨a, r, arguments, false⟩))
    (hv : v.Seen V a (a + (CallSite.code ⟨a, r, arguments, false⟩).length)) :
    EachAt (Seated lines L V sites) a (CallSite.code ⟨a, r, arguments, false⟩) := by
  have hobeys := allObey_iff.2 fun e he => (harguments e he).calls
  have hsize : a + 1 + sizeOfAll arguments ≤ a + (CallSite.code ⟨a, r, arguments, false⟩).length := by
    simp [CallSite.code, length_codeOfAll]
    omega
  have hargs := fixed_all (L := L) arguments (allObey_mono (fun _ hr => haligned.callable hr) arguments hobeys)
    (List.cons_subset.1 hsites).2 h.left.left.tail hv.within.mono
  have hfixed := fixed_call (List.cons_subset.1 hsites).1 (haligned.callable hr) h hv.within hargs
  refine hfixed.seated hv haligned fun x hx => ?_
  rw [CallSite.code, if_neg Bool.false_ne_true, List.append_nil, List.mem_append, List.mem_cons] at hx
  rcases hx with (hx | hx) | hx
  · cases hx
  · obtain ⟨e, he, b, hread⟩ := exists_of_reads_all hx
    exact (harguments e he).reads b x hread
  · exact absurd hx (not_reads_enter r)

end Parts

theorem exit_of_mem_cellsOf {behind : Address} : ∀ {loops : List (Loop × Address)}, .exit behind ∈ cellsOf loops →
    ∃ l ∈ loops, l.2 = behind
  | (kind, target) :: around, h => by
    rcases List.mem_append.1 h with h | h
    · exact ⟨_, List.mem_cons_self, by cases kind <;> simp_all [Loop.cells]⟩
    · obtain ⟨l, hl, htarget⟩ := exit_of_mem_cellsOf h
      exact ⟨l, List.mem_cons_of_mem _ hl, htarget⟩

/-- Leaving a loop leads to behind one of the loops around. -/
theorem seated_exit : ∀ (n : Nat) {a : Nat} {s : Shape}, ListsAt L a (popLayouts (n + 1) s) →
    Within (realmsAt V) v.realms a (a + n) → (∀ b, .exit b ∈ s.cells → realmsAt V b = some v.realms) →
    EachAt (Seated lines L V sites) a (List.replicate n Instruction.pop ++ [.jumpPop])
  | 0, a, s, h, hT, hexits => by
    refine .one (seated_plain (fun b s' hs' => ?_) nofun nofun)
    have hs := h.first
    rw [hs'] at hs
    cases hs
    exact (hexits b List.mem_cons_self).trans (hT a (Nat.le_refl a) (Nat.le_refl a)).symm
  | n + 1, a, s, h, hT, hexits => by
    refine .cons (seated_plain ?_ nofun nofun) (seated_exit n h.tail hT.mono fun b hb => ?_)
    · exact (hT (a + 1) (by omega) (by omega)).trans (hT a (by omega) (by omega)).symm
    · exact hexits b (List.mem_of_mem_tail hb)

mutual

/-- The code of a statement keeps to the views of its instructions. -/
theorem Stmt.seated : (stmt : Stmt) → ∀ {a : Nat} {p : Position} {inside declarations : Bool} (v : View)
    (loops : List (Loop × Address)), stmt.Resolved declarations a v.names →
    Aligned (realmsAt V) v.names.frames v.realms →
    (∀ l ∈ loops, realmsAt V l.2 = some v.realms) → stmt.locals ⊆ v.realm.names → stmt.sites a ⊆ sites →
    CodeAt lines a (instructionsOf (stmt.lines a p)) → ListsAt L a (stmt.layouts a (.amid inside loops)) →
    ListsAt V a (stmt.views a v) → realmsAt V (a + stmt.size) = some v.realms →
    EachAt (Seated lines L V sites) a (instructionsOf (stmt.lines a p))
  | .share _, _, _, _, _, _, _, _, _, _, _, _, _, _, _, _ => .nil
  | .declare names, a, p, inside, _, v, loops, _, _, _, hlocals, _, _, hlaid, hviews, hend => by
    have hv := seen_of_replicate hviews rfl hend
    rw [Stmt.lines, instructionsOf_mark]
    refine seated_bind (by rw [List.length_map]; exact hv) (fun n hn => ?_) ?_
    · rw [List.length_map] at hn
      exact ⟨.amid inside loops, hlaid n _ (by simp [Stmt.layouts, hn]), rfl⟩
    · exact List.forall_mem_map.2 fun x hx => ⟨x, hlocals hx, .inl rfl⟩
  | .constants definitions, a, p, inside, _, v, loops, _, _, _, hlocals, _, _, hlaid, hviews, hend => by
    have hv := seen_of_replicate hviews rfl hend
    rw [Stmt.lines, instructionsOf_mark]
    refine seated_bind (by rw [List.length_map]; exact hv) (fun n hn => ?_) ?_
    · rw [List.length_map] at hn
      exact ⟨.amid inside loops, hlaid n _ (by simp [Stmt.layouts, hn]), rfl⟩
    · exact List.forall_mem_map.2 fun d hd => ⟨d.1, hlocals (List.mem_map_of_mem hd), .inr ⟨d.2, rfl⟩⟩
  | .routine isFunction name parameters body, a, p, _, _, v, _, hres, haligned, _, hlocals, hsites, h, hlaid, hviews,
      hend => by
    have hinner := hviews.right (b := a + routineHeadSize isFunction) (by rw [List.length_replicate])
    have hlast := (hinner.right (b := a + routineHeadSize isFunction + body.size) (by rw [body.length_views])).first
    obtain ⟨_, hbodyCode, _⟩ := h.routine
    rw [Stmt.size, show a + (routineHeadSize isFunction + body.size + 1) =
      a + routineHeadSize isFunction + body.size + 1 by omega] at hend
    refine eachAt_routine.2 ⟨?_, ?_, .one (seated_plain trivial nofun nofun)⟩
    · cases isFunction with
      | true =>
        -- the head of a function binds its name before it passes over the body
        have hjump := realmsAt_of_view hviews.tail.first
        have hv : v.Seen V a (a + 1) := seen_of_replicate (n := 1) hviews.left.left rfl hjump
        refine .append (b := a + 1) (seated_bind hv ?_ ?_) (.one (seated_jump hjump hend)) rfl
        · rintro n hn
          rw [Nat.lt_one_iff.1 hn]
          exact ⟨_, hlaid.first, rfl⟩
        · exact List.forall_mem_singleton.2 ⟨name, hlocals List.mem_cons_self, .inl rfl⟩
      | false => exact .one (seated_jump (realmsAt_of_view hviews.first) hend)
    -- no loop around the routine can be left from its body, so the body begins without any
    · refine body.seated (v.entering a isFunction name parameters body) [] hres.2
        ((aligned_withRoutine hviews haligned).enter _ parameters) nofun ?_ hsites hbodyCode
        (Stmt.routine_body hlaid).left hinner.left (realmsAt_of_view hlast)
      exact fun x hx => List.mem_cons_of_mem _ (List.mem_append_right _ hx)
  | .branch c yes, a, p, _, _, v, loops, hres, haligned, hexits, hlocals, hsites, h, hlaid, hviews, hend => by
    obtain ⟨hc, hyes⟩ := List.append_subset.1 hsites
    have hinner := (hlaid.right (b := a + c.size) (by rw [c.length_layouts])).tail
    have hyesViews := hviews.right (b := a + c.size + 1) (by rw [List.length_replicate]; rfl)
    rw [Stmt.size, show a + (c.size + yes.size + 1) = a + c.size + 1 + yes.size by omega] at hend
    have hv := seen_of_replicate hviews.left rfl (yes.realmsAt_start hyesViews hend)
    obtain ⟨hcCode, hyesCode⟩ := h.branch
    exact eachAt_branch.2 ⟨seated_condition haligned hres.1 hc hcCode hv hend (.inr rfl),
      yes.seated v loops hres.2 haligned hexits hlocals hyes hyesCode hinner hyesViews hend⟩
  | .branchElse c yes no, a, p, _, _, v, loops, hres, haligned, hexits, hlocals, hsites, h, hlaid, hviews, hend => by
    obtain ⟨hsites, hno⟩ := List.append_subset.1 hsites
    obtain ⟨hc, hyes⟩ := List.append_subset.1 hsites
    obtain ⟨hyesLocals, hnoLocals⟩ := List.append_subset.1 hlocals
    have hinner := (hlaid.right (b := a + c.size) (by rw [c.length_layouts])).tail
    have hother := (hinner.right (b := a + c.size + 1 + yes.size) (by rw [yes.length_layouts])).tail
    have hyesViews := hviews.right (b := a + c.size + 1) (by rw [List.length_replicate]; rfl)
    have hskip := hyesViews.right (b := a + c.size + 1 + yes.size) (by rw [yes.length_views])
    have hskipped := realmsAt_of_view hskip.first
    rw [Stmt.size, show a + (c.size + yes.size + no.size + 2) = a + c.size + 1 + yes.size + 1 + no.size by omega]
      at hend
    have hstart := no.realmsAt_start hskip.tail hend
    have hv := seen_of_replicate hviews.left rfl (yes.realmsAt_start hyesViews.left hskipped)
    obtain ⟨hcCode, hyesCode, _, hnoCode⟩ := h.branchElse
    refine eachAt_branchElse.2 ⟨?_, ?_, .one (seated_jump hskipped hend), ?_⟩
    · exact seated_condition haligned hres.1 hc hcCode hv hstart (.inr rfl)
    · exact yes.seated v loops hres.2.1 haligned hexits hyesLocals hyes hyesCode hinner.left hyesViews.left hskipped
    -- the second branch is compiled after the first one, so it sees what that one has declared
    · exact no.seated { v with names := yes.declared (a + c.size + 1) v.names } loops hres.2.2
        (yes.aligned hyesViews.left haligned) hexits hnoLocals hno hnoCode hother hskip.tail hend
  | .countLoop counter start limit step body, a, p, inside, _, v, loops, hres, haligned, hexits, hlocals, hsites, h,
      hlaid, hviews, hend => by
    obtain ⟨hcounter, hstart, hlimit, hstep, hbody⟩ := hres
    obtain ⟨hsites, hbodySites⟩ := List.append_subset.1 hsites
    have hinner := hlaid.right (b := a + countHeadSize start limit step) (by rw [length_openLayouts])
    have hclose := hinner.right (b := a + countHeadSize start limit step + body.size) (by rw [body.length_layouts])
    have hinnerViews := hviews.right (b := a + countHeadSize start limit step) (by rw [List.length_replicate])
    have hcloseViews := hinnerViews.right (b := a + countHeadSize start limit step + body.size)
      (by rw [body.length_views])
    rw [Stmt.size, show a + (countHeadSize start limit step + body.size + 15) =
      a + countHeadSize start limit step + body.size + 15 by omega] at hend
    have hv' := seen_of_replicate hcloseViews rfl hend
    have hafter := realmsAt_of_view hcloseViews.first
    -- the loop goes back to where its body begins, so the realms have to be the same there
    have hagain := body.realmsAt_start hinnerViews.left hafter
    have hv := seen_of_replicate hviews.left rfl hagain
    obtain ⟨hopen, hcode, _⟩ := h.countLoop
    refine eachAt_countLoop.2 ⟨?_, ?_, seated_close haligned hcounter hclose rfl hv' hagain⟩
    · exact seated_open haligned hcounter hstart hlimit hstep hsites hopen hlaid.left rfl hv
        (hv'.within _ (by omega) (by omega))
    · refine body.seated v ((.forLoop, _) :: loops) hbody haligned (List.forall_mem_cons.2 ⟨?_, hexits⟩) hlocals
        hbodySites hcode hinner.left hinnerViews.left hafter
      exact hv'.within _ (by omega) (by omega)
  | .guardLoop head body tail, a, p, _, _, v, loops, hres, haligned, hexits, hlocals, hsites, h, hlaid, hviews,
      hend => by
    obtain ⟨hhead, hbody, htail⟩ := hres
    obtain ⟨hsites, htailSites⟩ := List.append_subset.1 hsites
    obtain ⟨hheadSites, hbodySites⟩ := List.append_subset.1 hsites
    have hinner := (hlaid.tail.right (b := a + 1 + headSize head) (by rw [length_headLayouts])).left
    have hinnerViews := hviews.right (b := a + 1 + headSize head) (by rw [List.length_replicate, Nat.add_assoc])
    have hcloseViews := hinnerViews.right (b := a + 1 + headSize head + body.size) (by rw [body.length_views])
    rw [Stmt.size, show a + (headSize head + body.size + tailSize tail + 2) =
      a + 1 + headSize head + body.size + tailSize tail + 1 by omega] at hend
    have hv' := seen_of_replicate hcloseViews rfl hend
    have hafter := realmsAt_of_view hcloseViews.first
    have hstart := body.realmsAt_start hinnerViews.left hafter
    have hv := seen_of_replicate hviews.left (by rw [Nat.add_assoc]) hstart
    obtain ⟨hopen, hcode, hclose⟩ := h.guardLoop
    refine eachAt_guardLoop.2 ⟨.cons (seated_silent hv.mono rfl nofun) ?_, ?_, .append
      (b := a + 1 + headSize head + body.size + tailSize tail) ?_ (.one ?_) (by rw [length_tailCode])⟩
    · exact seated_head haligned hhead hheadSites hopen.tail hv.mono (hv'.within _ (by omega) (by omega))
    · exact body.seated v ((.doLoop, _) :: loops) hbody haligned (List.forall_mem_cons.2 ⟨hend, hexits⟩) hlocals
        hbodySites hcode hinner hinnerViews.left hafter
    · exact seated_tail (body.aligned hinnerViews.left haligned) htail htailSites hclose.left hv'.mono
        (hv.within _ (by omega) (by omega))
    · exact seated_silent hv'.mono rfl nofun
  | .exitLoop _ inner, a, p, _, _, v, loops, _, _, hexits, _, _, _, hlaid, hviews, hend => by
    have hv := seen_of_replicate hviews rfl hend
    rw [Stmt.size] at hv
    rw [Stmt.lines, instructionsOf_mark]
    refine seated_exit (keptBy inner) hlaid hv.within.mono fun b hb => ?_
    obtain ⟨l, hl, rfl⟩ := exit_of_mem_cellsOf hb
    exact hexits l hl
  | .exitRoutine, a, _, _, _, _, _, _, _, _, _, _, _, _, _, _ => .one (seated_plain trivial nofun nofun)
  | .print e, a, p, _, _, v, _, hres, haligned, _, _, hsites, h, _, hviews, hend => by
    have hv := seen_of_replicate hviews rfl hend
    rw [Stmt.size] at hv
    rw [Stmt.lines, instructionsOf_mark] at h ⊢
    exact .append (b := a + printSize e) (seated_print haligned hres hsites h.left hv.mono)
      (.one (seated_silent hv.mono rfl nofun)) (by simp)
  | .notify n, a, p, _, _, v, _, _, _, _, _, _, _, _, hviews, hend =>
    .one (seated_silent (seen_of_replicate hviews rfl hend) rfl nofun)
  | .dialog d slots, a, p, _, _, v, _, hres, haligned, _, _, hsites, h, _, hviews, hend => by
    have hv := seen_of_replicate hviews rfl hend
    rw [Stmt.size] at hv
    rw [Stmt.lines, instructionsOf_mark] at h ⊢
    refine .append (b := a + sizeOfSlots d.defaults slots) (seated_slots haligned hres hsites h.left hv.mono) ?_
      (by rw [length_codeOfSlots])
    refine seated_advances (hv.mono (by omega) ?_ (by simp)) haligned ?_ ?_
    · rw [List.length_cons]
      split <;> exact Nat.le_of_eq (Nat.add_assoc ..)
    · split <;> simp [Instruction.advances]
    · split <;> simp
  | .assign name none e, a, p, _, _, v, _, hres, haligned, _, _, hsites, h, hlaid, hviews, hend => by
    have hassign := (hlaid.right (b := a + e.size) (by rw [e.length_layouts])).first
    have hv := seen_of_replicate hviews rfl hend
    rw [Stmt.size, if_neg (by simp)] at hv
    rw [Stmt.lines, instructionsOf_mark] at h ⊢
    exact .append (b := a + e.size) (Expr.seated haligned hres.2 hsites h.left hv.mono)
      (.one (seated_assign hv.mono haligned hres.1 ⟨_, hassign, rfl⟩)) (by simp)
  | .assign name (some op) e, a, p, _, _, v, _, hres, haligned, _, _, hsites, h, hlaid, hviews, hend => by
    have hassign := (hlaid.tail.right (b := a + 1 + e.size) (by rw [e.length_layouts])).tail.first
    have hv := seen_of_replicate hviews rfl hend
    rw [Stmt.size, if_pos (by simp)] at hv
    rw [Stmt.lines, instructionsOf_mark] at h ⊢
    refine .cons (seated_read hv.mono haligned hres.1) (.append (b := a + 1 + e.size)
      (Expr.seated haligned hres.2 hsites h.tail.left hv.mono) (.cons ?_ (.one ?_)) (by simp))
    · exact seated_silent hv.mono rfl nofun
    · exact seated_assign hv.mono haligned hres.1 ⟨_, hassign, rfl⟩
  | .call r arguments, a, p, _, _, v, _, hres, haligned, _, _, hsites, h, _, hviews, hend => by
    have hcode : instructionsOf ((Stmt.call r arguments).lines a p) = CallSite.code ⟨a, r, arguments, false⟩ := by
      rw [Stmt.lines, instructionsOf_mark]
      exact (List.append_nil _).symm
    have hv := seen_of_replicate hviews rfl hend
    rw [← Stmt.length_lines a p, ← length_instructionsOf, hcode] at hv
    rw [hcode] at h ⊢
    exact seated_call haligned hres.1 hres.2 hsites h hv

theorem Block.seated : (block : Block) → ∀ {a : Nat} {inside declarations : Bool} (v : View)
    (loops : List (Loop × Address)), block.Resolved declarations a v.names →
    Aligned (realmsAt V) v.names.frames v.realms →
    (∀ l ∈ loops, realmsAt V l.2 = some v.realms) → block.locals ⊆ v.realm.names → block.sites a ⊆ sites →
    CodeAt lines a (instructionsOf (block.lines a)) → ListsAt L a (block.layouts a (.amid inside loops)) →
    ListsAt V a (block.views a v) → realmsAt V (a + block.size) = some v.realms →
    EachAt (Seated lines L V sites) a (instructionsOf (block.lines a))
  | .nil, _, _, _, _, _, _, _, _, _, _, _, _, _, _ => .nil
  | .cons p first rest, a, _, _, v, loops, hres, haligned, hexits, hlocals, hsites, h, hlaid, hviews, hend => by
    obtain ⟨hfirstSites, hrestSites⟩ := List.append_subset.1 hsites
    obtain ⟨hfirst, hrest⟩ := List.append_subset.1 hlocals
    rw [Block.size, ← Nat.add_assoc] at hend
    obtain ⟨hfirstCode, hrestCode⟩ := h.cons
    have hrestLaid := hlaid.right (b := a + first.size) (by rw [first.length_layouts])
    have hrestViews := hviews.right (b := a + first.size) (by rw [first.length_views])
    have hnext := rest.realmsAt_start hrestViews hend
    exact eachAt_cons.2
      ⟨first.seated v loops hres.1 haligned hexits hfirst hfirstSites hfirstCode hlaid.left hviews.left hnext,
        rest.seated { v with names := first.declared a v.names } loops hres.2 (first.aligned hviews.left haligned)
          hexits hrest hrestSites hrestCode hrestLaid hrestViews hend⟩

end

end Statements

end MacroBasic
