-- SUMMARY: The standard streams in objects: what a move into an object that holds 0 leaves, and which calls close 1 and 2.
import MBotTeleop.Ipc.Descriptors

/-!
# The standard streams

Every member that gives a descriptor up compares it with `0` alone. So `0` is
never closed, and stays behind in an object that was to give it up, and `1` and
`2` are closed like any other descriptor.
-/

namespace Rix.Ipc.Objects

variable {s s' : State} {e : Event} {dst src : Nat} {left : String} {limit capacity : Nat}
  {files : Int → Option Nat} {es : List Event}

-- ---------------------------------------------------------------------------
-- Moves
-- ---------------------------------------------------------------------------

/-- `dst` took the descriptor of `src` over, `src` is invalid, and no other object
changed. -/
structure Transfers (s s' : State) (dst src : Nat) : Prop where
  dest : s'.held dst = s.held src
  source : ∃ o, s'.live src = some o ∧ o.ok = false
  others : ∀ id, id ≠ dst → id ≠ src → s'.live id = s.live id

/-- A move into another object, where the source is left with what `dst` held if
that is not closed. -/
theorem transfers_iff (hne : dst ≠ src) (hstep : stepAny s (.moveAssign dst src left) = some s') :
    Transfers s s' dst src ↔ s.held dst ≠ some 0 := by
  have hstep : step s (.moveAssign dst src left) = some s' := hstep
  cases step_called hstep with
  | moveSelf => exact (hne rfl).elim
  | @moveAssign _ _ _ d o o' dest source ne closed same =>
    have hdest : s.held dst = some d.fd := held_of_live dest
    have hsource : (({ s with process := (closeFd s.process d.fd).1 }.put dst o).put src o').live src =
        some o' := Function.update_self ..
    have hleft : o'.ok = false ↔ d.fd ≠ 0 := by
      rw [Object.ok, closed, decide_eq_false_iff_not]
      unfold closeFd
      split
      · exact iff_of_true (Int.not_le.mpr (Int.negSucc_lt_zero 0)) (by omega)
      · dsimp only
        omega
    rw [hdest, ne_eq, Option.some.injEq, ← ne_eq, ← hleft]
    constructor
    · intro h
      obtain ⟨o'', ho'', hok⟩ := h.source
      obtain rfl := Option.some.inj (hsource.symm.trans ho'')
      exact hok
    · intro hok
      refine ⟨?_, ⟨o', hsource, hok⟩, fun id hdst hsrc => ?_⟩
      · rw [State.held_put_of_ne ne, State.held_put_self]
        exact (held_of_live source).symm
      · exact (Function.update_of_ne hsrc ..).trans (Function.update_of_ne hdst ..)

/-- If the call is a move assignment from another object, it transfers. -/
def MoveTransfers (s : State) (e : Event) (s' : State) : Prop :=
  ∀ dst src left, e = .moveAssign dst src left → dst ≠ src → Transfers s s' dst src

/-- If the call is a move assignment from another object, its destination does
not hold descriptor `0`. -/
def Event.NotIntoZero (s : State) (e : Event) : Prop :=
  ∀ dst src left, e = .moveAssign dst src left → dst ≠ src → s.held dst ≠ some 0

theorem moveTransfers_iff (hstep : stepAny s e = some s') :
    MoveTransfers s e s' ↔ e.NotIntoZero s := by
  unfold MoveTransfers Event.NotIntoZero
  refine forall_congr' fun dst => forall_congr' fun src => forall_congr' fun left => ?_
  refine forall_congr' fun he => forall_congr' fun hne => ?_
  exact transfers_iff hne (he ▸ hstep)

/-- In a run every move assignment transfers the descriptor iff none of them has
a destination that holds descriptor `0`. In any state this decides about the
next one. -/
theorem moves_transfer_iff (limit capacity : Nat) (files : Int → Option Nat) (es : List Event) :
    ((anyObjects limit capacity files).EveryStep MoveTransfers es ↔
      (anyObjects limit capacity files).EveryStep (fun s e _ => e.NotIntoZero s) es) ∧
    ∀ s dst src left s', dst ≠ src → stepAny s (.moveAssign dst src left) = some s' →
      (Transfers s s' dst src ↔ s.held dst ≠ some 0) :=
  ⟨(anyObjects limit capacity files).everyStep_congr moveTransfers_iff es,
    fun _ _ _ _ _ hne hstep => transfers_iff hne hstep⟩

/-- Two opened files, one moved into the other. -/
theorem moves_transfer_iff_example :
    ∃ s s', (anyObjects 8 16 fun fd => if fd ≤ 2 then some 0 else none).run
        [.openFile 0 false (some (3, 1)), .openFile 1 false (some (4, 2))] = some s ∧
      stepAny s (.moveAssign 0 1 "") = some s' ∧ Transfers s s' 0 1 := by
  have hsome : ((anyObjects 8 16 fun fd => if fd ≤ 2 then some 0 else none).run
      [.openFile 0 false (some (3, 1)), .openFile 1 false (some (4, 2))]).bind (fun s =>
        (stepAny s (.moveAssign 0 1 "")).map fun _ => s.held 0) = some (some 3) := by
    decide +kernel
  obtain ⟨s, hs, hsome⟩ := Option.bind_eq_some_iff.mp hsome
  obtain ⟨s', hs', hheld⟩ := Option.map_eq_some_iff.mp hsome
  refine ⟨s, s', hs, hs', ((moves_transfer_iff 8 16 (fun _ => none) []).2 s 0 1 "" s' ?_ hs').mpr ?_⟩
  · decide
  · rw [hheld]
    decide

/-- `File(0)` is assigned an opened file: the file it gets is at `3`, and the
source is left with `0` and is valid. -/
theorem move_into_stdin :
    ∃ s s', (anyObjects 8 16 fun fd => if fd ≤ 2 then some 0 else none).run
        [.adopt 0 0, .openFile 1 false (some (3, 1))] = some s ∧
      stepAny s (.moveAssign 0 1 "") = some s' ∧ s'.held 0 = some 3 ∧
      s'.live 1 = some (.file { fd := 0 }) ∧ ¬ Transfers s s' 0 1 := by
  have hsome : ((anyObjects 8 16 fun fd => if fd ≤ 2 then some 0 else none).run
      [.adopt 0 0, .openFile 1 false (some (3, 1))]).bind (fun s =>
        (stepAny s (.moveAssign 0 1 "")).map fun s' => (s'.held 0, s'.live 1)) =
      some (some 3, some (.file { fd := 0 })) := by
    decide +kernel
  obtain ⟨s, hs, hsome⟩ := Option.bind_eq_some_iff.mp hsome
  obtain ⟨s', hs', hfields⟩ := Option.map_eq_some_iff.mp hsome
  obtain ⟨hdest, hsource⟩ := Prod.mk.inj hfields
  refine ⟨s, s', hs, hs', hdest, hsource, fun h => ?_⟩
  obtain ⟨o, ho, hinvalid⟩ := h.source
  obtain rfl := Option.some.inj (hsource.symm.trans ho)
  cases hinvalid

-- ---------------------------------------------------------------------------
-- Closes
-- ---------------------------------------------------------------------------

/-- The descriptor that a member gives up: that of an object which is destroyed,
or assigned to. Only a copy assignment tests for the object itself. -/
def Event.givesUp (s : State) : Event → Option Int
  | copyAssign dst src _ => if dst = src then none else s.held dst
  | moveAssign dst _ _ => s.held dst
  | destroy id => s.held id
  | default .. | adopt .. | openFile .. | create .. | openFifo .. | copyConstruct ..
  | moveConstruct .. => none

/-- The descriptor that a member calls `::close` on: `if (fd_ > 0) ::close(fd_);` -/
def Event.closes (s : State) (e : Event) : Option Int :=
  (e.givesUp s).bind fun fd => if 0 < fd then some fd else none

/-- `::close`, if it is called. -/
def Process.closed (p : Process) : Option Int → Process
  | some fd => p.close fd
  | none => p

/-- At most one system call, which opens descriptors. -/
inductive Process.Opens (p : Process) : Process → Prop
  | none : Opens p p
  | dup {fd : Int} {result : Option Int} {r : Process × Int} (call : p.dup fd result = some r) :
    Opens p r.1
  | pipe {result : Option (Int × Int)} {p' : Process} (call : p.pipe result = some p') : Opens p p'
  | openPath {nonblocking : Bool} {opener : Option (String × Mode)} {result : Option (Int × Nat)}
    {r : Process × Int} (call : p.openPath nonblocking opener result = some r) : Opens p r.1

theorem opens_dupFd {p : Process} {fd : Int} {result : Option Int} {r : Process × Int}
    (call : dupFd p fd result = some r) : p.Opens r.1 := by
  unfold dupFd at call
  split at call
  · exact .dup call
  · cases call
    exact .none

theorem opens_create {p p' : Process} {pipe : Option (Int × Int)} {readEnd writeEnd : Pipe}
    (call : Pipe.create p pipe = some (p', readEnd, writeEnd)) : p.Opens p' := by
  obtain ⟨q, hpipe, heq⟩ := Option.map_eq_some_iff.mp call
  cases pipe <;> cases heq <;> exact .pipe hpipe

/-- What `closeFd` does is the call that is recorded. -/
theorem closed_eq_closeFd {id : Nat} {o : Object} (hgives : e.givesUp s = s.held id)
    (ho : s.live id = some o) : s.process.closed (e.closes s) = (closeFd s.process o.fd).1 := by
  rw [Event.closes, hgives, held_of_live ho, Option.bind_some]
  unfold closeFd
  split <;> rfl

/-- `closes` is all that a call closes. -/
theorem stepAny_closes (hstep : stepAny s e = some s') :
    (s.process.closed (e.closes s)).Opens s'.process := by
  rcases stepAny_cases hstep with hcall | ⟨id, fd, rfl, -, rfl⟩
  · cases hcall with
    | default | adopt | noFifo | copyUnset | moveConstruct => exact .none
    | openFile new call | openFifo new call => exact .openPath call
    | create new₀ new₁ ne call => exact opens_create call
    | copyConstruct new source call => exact opens_dupFd call
    | copySelf live =>
      rw [Event.closes, Event.givesUp, if_pos rfl]
      exact .none
    | @copyAssign dst src dup _ _ _ _ dest source ne call =>
      have hgives : Event.givesUp s (.copyAssign dst src dup) = s.held dst := if_neg ne
      rw [closed_eq_closeFd hgives dest]
      exact opens_dupFd call
    | moveSelf live | moveAssign live =>
      rw [closed_eq_closeFd rfl live]
      exact .none
    | destroy live =>
      rw [closed_eq_closeFd rfl live]
      exact .none
  · exact .none

/-- A descriptor that is not closed keeps a holder. -/
theorem held_of_not_closed {a : Nat} {x : Int} (hstep : stepAny s e = some s') (hx : 0 < x)
    (hheld : s.held a = some x) (hopen : e.closes s ≠ some x) : ∃ b, s'.held b = some x := by
  have hkeep {s : State} {id : Nat} {o : Object} (hheld : s.held a = some x) (hne : a ≠ id) :
      (s.put id o).held a = some x := (State.held_put_of_ne hne ..).trans hheld
  -- the object whose descriptor is given up is another one
  have hother {id : Nat} (hgives : e.givesUp s = s.held id) : a ≠ id := by
    rintro rfl
    apply hopen
    rw [Event.closes, hgives, hheld, Option.bind_some, if_pos hx]
  rcases stepAny_cases hstep with hcall | ⟨id, fd, rfl, hnew, rfl⟩
  · cases hcall with
    | default hnew | adopt hnew | openFile hnew | openFifo hnew | noFifo hnew | copyConstruct hnew
    | copyUnset hnew => exact ⟨a, hkeep hheld (ne_of_held hheld hnew)⟩
    | create new₀ new₁ =>
      exact ⟨a, hkeep (hkeep hheld (ne_of_held hheld new₀)) (ne_of_held hheld new₁)⟩
    | copySelf => exact ⟨a, hheld⟩
    | copyAssign _ _ ne => exact ⟨a, hkeep hheld (hother (if_neg ne))⟩
    | @moveConstruct id src _ o _ new source =>
      by_cases hsrc : a = src
      · subst hsrc
        have hne := ne_of_held hheld new
        refine ⟨id, (State.held_put_of_ne hne.symm ..).trans ?_⟩
        rw [State.held_put_self, ← held_of_live source, hheld]
      · exact ⟨a, hkeep (hkeep hheld (ne_of_held hheld new)) hsrc⟩
    | moveSelf => exact ⟨a, hkeep hheld (hother rfl)⟩
    | @moveAssign dst src _ _ o _ dest source ne =>
      by_cases hsrc : a = src
      · subst hsrc
        refine ⟨dst, (State.held_put_of_ne ne ..).trans ?_⟩
        rw [State.held_put_self, ← held_of_live source, hheld]
      · exact ⟨a, hkeep (hkeep hheld (hother rfl)) hsrc⟩
    | destroy => exact ⟨a, (congrArg _ (Function.update_of_ne (hother rfl) ..)).trans hheld⟩
  · exact ⟨a, hkeep hheld (ne_of_held hheld hnew)⟩

/-- A member gives up what its object holds. -/
theorem held_of_givesUp {fd : Int} (h : e.givesUp s = some fd) : ∃ id, s.held id = some fd := by
  cases e with
  | copyAssign dst src dup =>
    simp only [Event.givesUp] at h
    split at h
    · cases h
    · exact ⟨dst, h⟩
  | moveAssign dst src left => exact ⟨dst, h⟩
  | destroy id => exact ⟨id, h⟩
  | default | adopt | openFile | create | openFifo | copyConstruct | moveConstruct => cases h

/-- `::close` is called on what is given up, unless it is `0` or invalid. -/
theorem closes_eq_some {fd : Int} : e.closes s = some fd ↔ e.givesUp s = some fd ∧ 0 < fd := by
  rw [Event.closes, Option.bind_eq_some_iff]
  constructor
  · rintro ⟨x, hx, h⟩
    split at h
    · cases h
      exact ⟨hx, ‹_›⟩
    · cases h
  · rintro ⟨hgives, hpos⟩
    exact ⟨fd, hgives, if_pos hpos⟩

-- ---------------------------------------------------------------------------
-- Runs
-- ---------------------------------------------------------------------------

/-- `::close` is not called on a standard stream. -/
def SparesStandard (s : State) (e : Event) : Prop :=
  ∀ fd, e.closes s = some fd → fd ≠ 0 ∧ fd ≠ 1 ∧ fd ≠ 2

/-- No object holds `1` or `2`. -/
def State.HoldsNeither (s : State) : Prop := ∀ id, s.held id ≠ some 1 ∧ s.held id ≠ some 2

theorem sparesStandard_iff :
    SparesStandard s e ↔ ∀ fd, e.givesUp s = some fd → fd ≠ 1 ∧ fd ≠ 2 := by
  constructor
  · intro h fd hgives
    by_cases hpos : 0 < fd
    · exact (h fd (closes_eq_some.mpr ⟨hgives, hpos⟩)).2
    · omega
  · intro h fd hcloses
    obtain ⟨hgives, hpos⟩ := closes_eq_some.mp hcloses
    exact ⟨by omega, h fd hgives⟩

theorem State.HoldsNeither.spares (h : s.HoldsNeither) : SparesStandard s e := by
  rw [sparesStandard_iff]
  intro fd hgives
  obtain ⟨id, hid⟩ := held_of_givesUp hgives
  constructor
  · rintro rfl
    exact (h id).1 hid
  · rintro rfl
    exact (h id).2 hid

/-- Where every object is destroyed in the end, a descriptor that is never closed
was held by none. -/
theorem not_held_of_spares (hrun : (anyObjects limit capacity files).run es = some s)
    (hend : ∀ id, s.live id = none) {x : Int} (hx : 0 < x)
    (hspares : (anyObjects limit capacity files).EveryStep (fun s e _ => e.closes s ≠ some x) es) :
    (anyObjects limit capacity files).EveryStep (fun _ _ s' => ∀ id, s'.held id ≠ some x) es := by
  rintro es₁ e es₂ t t' rfl ht hstep id hid
  obtain ⟨t₁, t₁', ht₁, hstep₁, hfrom⟩ := (Machine.run_middle _).mp hrun
  obtain rfl := Option.some.inj (ht.symm.trans ht₁)
  obtain rfl := Option.some.inj (hstep.symm.trans hstep₁)
  rw [List.append_cons] at hspares
  obtain ⟨id', hid'⟩ := (anyObjects limit capacity files).runFrom_invariant_of_every
    (I := fun s => ∃ id, s.held id = some x)
    (fun ⟨_, ha⟩ hopen hstep => held_of_not_closed hstep hx ha hopen) hspares
    ((Machine.run_concat _).mpr ⟨t, ht, hstep⟩) ⟨id, hid⟩ hfrom
  rw [held_of_none (hend id')] at hid'
  cases hid'

/-- What a call closes is what `closes` says. In a run no call closes a standard
stream iff none gives `1` or `2` up. Where every object is destroyed in the end,
that is iff no object ever holds `1` or `2`. -/
theorem standard_spared_iff (hrun : (anyObjects limit capacity files).run es = some s) :
    (anyObjects limit capacity files).EveryStep
      (fun s e s' => (s.process.closed (e.closes s)).Opens s'.process) es ∧
    ((anyObjects limit capacity files).EveryStep (fun s e _ => SparesStandard s e) es ↔
      (anyObjects limit capacity files).EveryStep
        (fun s e _ => ∀ fd, e.givesUp s = some fd → fd ≠ 1 ∧ fd ≠ 2) es) ∧
    ((∀ id, s.live id = none) →
      ((anyObjects limit capacity files).EveryStep (fun s e _ => SparesStandard s e) es ↔
        (anyObjects limit capacity files).EveryStep (fun _ _ s' => s'.HoldsNeither) es)) := by
  refine ⟨fun _ _ _ _ _ _ _ hstep => stepAny_closes hstep,
    (anyObjects limit capacity files).everyStep_congr (fun _ => sparesStandard_iff) es,
    fun hend => ⟨fun hspares => ?_, fun hneither => ?_⟩⟩
  · have hnot {x : Int} (hx : x = 1 ∨ x = 2) := not_held_of_spares hrun hend (x := x) (by omega)
      fun es₁ e es₂ t t' heq ht hstep hcloses => by
        have := hspares es₁ e es₂ t t' heq ht hstep x hcloses
        omega
    intro es₁ e es₂ t t' heq ht hstep id
    exact ⟨hnot (.inl rfl) es₁ e es₂ t t' heq ht hstep id, hnot (.inr rfl) es₁ e es₂ t t' heq ht hstep id⟩
  · rintro es₁ e es₂ t t' rfl ht hstep
    -- `t` is the first state, or the one after an earlier step
    have hheld : t.HoldsNeither := by
      rcases es₁.eq_nil_or_concat with rfl | ⟨es₀, e₀, rfl⟩
      · cases ht
        exact fun id => ⟨nofun, nofun⟩
      · rw [List.concat_eq_append] at ht hneither
        obtain ⟨t₀, ht₀, hstep₀⟩ := (Machine.run_concat _).mp ht
        exact hneither es₀ e₀ (e :: es₂) t₀ t (by simp) ht₀ hstep₀
    exact hheld.spares

/-- Standard input adopted, an opened file copied and moved, and all destroyed. -/
theorem standard_spared_iff_example :
    ∃ s, (anyObjects 8 16 fun fd => if fd ≤ 2 then some 0 else none).run
        [.adopt 0 0, .openFile 1 false (some (3, 1)), .copyConstruct 2 1 (some 4) 0,
          .moveAssign 1 2 "", .destroy 0, .destroy 1, .destroy 2] = some s ∧
      ((anyObjects 8 16 fun fd => if fd ≤ 2 then some 0 else none).EveryStep
          (fun s e _ => SparesStandard s e)
          [.adopt 0 0, .openFile 1 false (some (3, 1)), .copyConstruct 2 1 (some 4) 0,
            .moveAssign 1 2 "", .destroy 0, .destroy 1, .destroy 2] ↔
        (anyObjects 8 16 fun fd => if fd ≤ 2 then some 0 else none).EveryStep
          (fun s e _ => ∀ fd, e.givesUp s = some fd → fd ≠ 1 ∧ fd ≠ 2)
          [.adopt 0 0, .openFile 1 false (some (3, 1)), .copyConstruct 2 1 (some 4) 0,
            .moveAssign 1 2 "", .destroy 0, .destroy 1, .destroy 2]) := by
  have hsome : ((anyObjects 8 16 fun fd => if fd ≤ 2 then some 0 else none).run
      [.adopt 0 0, .openFile 1 false (some (3, 1)), .copyConstruct 2 1 (some 4) 0,
        .moveAssign 1 2 "", .destroy 0, .destroy 1, .destroy 2]).isSome = true := by
    decide +kernel
  obtain ⟨s, hs⟩ := Option.isSome_iff_exists.mp hsome
  exact ⟨s, hs, (standard_spared_iff hs).2.1⟩

/-- The output of the keyboard program: `File(1)` is destroyed with its owner,
and the next file that is opened can be standard output. -/
theorem destroy_closes_stdout :
    ∃ s s' s'', (anyObjects 8 16 fun fd => if fd ≤ 2 then some 0 else none).run [.adopt 0 1] = some s ∧
      stepAny s (.destroy 0) = some s' ∧ ¬ SparesStandard s (.destroy 0) ∧
      (s.process.kernel.fds 1).isSome = true ∧ s'.process.kernel.fds 1 = none ∧
      stepAny s' (.openFile 1 false (some (1, 1))) = some s'' ∧ s''.held 1 = some 1 := by
  have hsome : ((anyObjects 8 16 fun fd => if fd ≤ 2 then some 0 else none).run [.adopt 0 1]).bind
      (fun s => (stepAny s (.destroy 0)).bind fun s' =>
        (stepAny s' (.openFile 1 false (some (1, 1)))).map fun s'' =>
          (s.held 0, (s.process.kernel.fds 1).isSome, s'.process.kernel.fds 1, s''.held 1)) =
      some (some 1, true, none, some 1) := by
    decide +kernel
  obtain ⟨s, hs, hsome⟩ := Option.bind_eq_some_iff.mp hsome
  obtain ⟨s', hs', hsome⟩ := Option.bind_eq_some_iff.mp hsome
  obtain ⟨s'', hs'', hfields⟩ := Option.map_eq_some_iff.mp hsome
  simp only [Prod.mk.injEq] at hfields
  obtain ⟨hheld, hopen, hclosed, hreused⟩ := hfields
  refine ⟨s, s', s'', hs, hs', fun h => ?_, hopen, hclosed, hs'', hreused⟩
  exact (h 1 (closes_eq_some.mpr ⟨hheld, by decide⟩)).2.1 rfl

end Rix.Ipc.Objects
