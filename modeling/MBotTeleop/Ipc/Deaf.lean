-- SUMMARY: The Signal constructor where ::pipe or ::signal fails, and the deliveries that its handler then swallows.
import MBotTeleop.Ipc.Delivery

/-!
# Deaf handlers

The constructor looks neither at what `Pipe::create` gives it nor at what
`::signal` returns. Where `::pipe` failed it claims the slot with invalid pipes
and installs the handler all the same, and no delivery of the signal is ever
seen.
-/

namespace Rix.Ipc.Signal

-- ---------------------------------------------------------------------------
-- Histories
-- ---------------------------------------------------------------------------

/-- A constructor claims the slot of `sig`. -/
def Event.Claims (sig : Int) : Event → Prop
  | construct _ signum _ throws => signum = sig ∧ throws = false
  | moveConstruct .. | moveAssign .. | destroy _ | deliver _ | wait .. => False

theorem Event.Claims.resets {sig : Int} {e : Event} (h : e.Claims sig) : e.Resets sig := by
  cases e with
  | construct => exact h
  | moveConstruct | moveAssign | destroy | deliver | wait => exact h.elim

/-- `::pipe` failed in the constructor that was the last to claim `sig`. -/
def Deaf (sig : Int) (es : List Event) : Prop :=
  Since (fun e => ∃ id, e = .construct id sig none false) (Event.Claims sig) es

/-- What is no claim does not make a signal deaf or end that. -/
theorem deaf_append {sig : Int} {es es' : List Event} (hno : ∀ e ∈ es', ¬ e.Claims sig) :
    Deaf sig (es ++ es') ↔ Deaf sig es := by
  refine since_append fun e he => ⟨?_, hno e he⟩
  rintro ⟨id, rfl⟩
  exact hno _ he ⟨rfl, rfl⟩

theorem deaf_concat_construct {sig : Int} {es : List Event} {id : Nat} {pipe : Option (Int × Int)} :
    Deaf sig (es ++ [.construct id sig pipe false]) ↔ pipe = none := by
  rw [Deaf, since_concat]
  constructor
  · rintro (⟨id', heq⟩ | ⟨-, hno⟩)
    · exact (Event.construct.inj heq).2.2.1
    · exact (hno ⟨rfl, rfl⟩).elim
  · rintro rfl
    exact .inl ⟨id, rfl⟩

-- ---------------------------------------------------------------------------
-- Slots without pipes
-- ---------------------------------------------------------------------------

/-- An operation claims a signal, or leaves it and its slot as they are, or gives
them up. -/
theorem step_slot {failed : Prop} {s s' : State} {e : Event} (h : Registry failed s)
    (hstep : step s e = some s') (sig : Int) :
    e.Claims sig ∨
    (s'.disposition sig = s.disposition sig ∧
      ∀ i : Fin 32, sig = i + 1 → s'.notifier i = s.notifier i) ∨
    (s'.disposition sig = .default ∧ ∀ i : Fin 32, sig = i + 1 → s'.notifier i = {}) := by
  have hrelease (v : Int) :
      ((s.release v).disposition sig = s.disposition sig ∧
        ∀ i : Fin 32, sig = i + 1 → (s.release v).notifier i = s.notifier i) ∨
      ((s.release v).disposition sig = .default ∧
        ∀ i : Fin 32, sig = i + 1 → (s.release v).notifier i = {}) := by
    rcases release_cases s v with ⟨heq, -⟩ | ⟨j, -, -, heq⟩
    · rw [heq]
      exact .inl ⟨rfl, fun _ _ => rfl⟩
    · rw [heq]
      by_cases hj : sig = j + 1
      · subst hj
        refine .inr ⟨Function.update_self .., fun i hi => ?_⟩
        obtain rfl : j = i := Fin.ext (by omega)
        exact Function.update_self ..
      · refine .inl ⟨Function.update_of_ne hj .., fun i hi => Function.update_of_ne ?_ ..⟩
        exact fun hij => hj (hij ▸ hi)
  cases e with
  | construct id signum pipe throws =>
    obtain ⟨-, rfl⟩ | ⟨rfl, -, j, rfl, -, hcases⟩ := step_construct h hstep
    · exact .inr (.inl ⟨rfl, fun _ _ => rfl⟩)
    by_cases hj : sig = j + 1
    · exact .inl ⟨hj.symm, rfl⟩
    · have hij (i : Fin 32) (hi : sig = i + 1) : i ≠ j := fun heq => hj (heq ▸ hi)
      rcases hcases with ⟨-, rfl⟩ | ⟨r, w, -, -, rfl⟩
      · exact .inr (.inl ⟨Function.update_of_ne hj .., fun i hi => Function.update_of_ne (hij i hi) ..⟩)
      · exact .inr (.inl ⟨Function.update_of_ne hj .., fun i hi => Function.update_of_ne (hij i hi) ..⟩)
  | moveConstruct id other =>
    obtain ⟨v, -, -, rfl⟩ := step_moveConstruct hstep
    exact .inr (.inl ⟨rfl, fun _ _ => rfl⟩)
  | moveAssign dst other =>
    obtain ⟨v, -, rfl⟩ := step_moveAssign hstep
    exact .inr (hrelease v)
  | destroy id =>
    obtain ⟨v, -, rfl⟩ := step_destroy hstep
    exact .inr (hrelease v)
  | deliver signum =>
    obtain ⟨k, rfl, -⟩ := deliver_cases hstep
    exact .inr (.inl ⟨rfl, fun _ _ => rfl⟩)
  | wait id sig' result =>
    obtain ⟨v, -, -, hwait⟩ := step_wait hstep
    obtain ⟨k, rfl, -⟩ := wait0_cases hwait
    exact .inr (.inl ⟨rfl, fun _ _ => rfl⟩)

/-- A slot that is in use after an operation that did not claim it is as it was. -/
theorem notifier_of_step {failed : Prop} {s s' : State} {e : Event} {i : Fin 32}
    (h : Registry failed s) (hstep : step s e = some s') (he : ¬ e.Claims (i + 1))
    (hinit : (s'.notifier i).isInit = true) : s'.notifier i = s.notifier i := by
  rcases (step_slot h hstep (i + 1)).resolve_left he with ⟨-, hsame⟩ | ⟨-, hempty⟩
  · exact hsame i rfl
  · rw [hempty i rfl] at hinit
    cases hinit

/-- A claimed signal has a slot. -/
theorem slot_of_claims {failed : Prop} {s s' : State} {e : Event} {sig : Int} (h : Registry failed s)
    (hstep : step s e = some s') (he : e.Claims sig) : ∃ i : Fin 32, sig = i + 1 := by
  cases e with
  | construct id signum pipe throws =>
    obtain ⟨rfl, rfl⟩ := he
    obtain ⟨hthrows, -⟩ | ⟨-, -, i, hi, -⟩ := step_construct h hstep
    · cases hthrows
    · exact ⟨i, hi⟩
  | moveConstruct | moveAssign | destroy | deliver | wait => exact he.elim

/-- A constructor that claims a slot gives it pipes iff `::pipe` made them. -/
theorem noPipe_of_construct {failed : Prop} {s s' : State} {id : Nat} {i : Fin 32}
    {pipe : Option (Int × Int)} (h : Registry failed s)
    (hstep : step s (.construct id (i + 1) pipe false) = some s') :
    (s'.notifier i).NoPipe ↔ pipe = none := by
  obtain ⟨hthrows, -⟩ | ⟨-, -, j, hj, -, hcases⟩ := step_construct h hstep
  · cases hthrows
  obtain rfl : i = j := Fin.ext (by omega)
  rcases hcases with ⟨rfl, rfl⟩ | ⟨r, w, rfl, hfree, rfl⟩
  · dsimp only
    rw [Function.update_self]
    exact iff_of_true ⟨rfl, rfl⟩ rfl
  · dsimp only
    rw [Function.update_self]
    refine iff_of_false (fun hno => ?_) nofun
    have hr : 0 ≤ r := ((h.slots.wf.pipe hfree).range (Kernel.pipe_fds_read hfree)).1
    have hinvalid : r = -1 := hno.pipe0
    omega

variable {limit capacity : Nat} {files : Int → Option Nat} {es : List Event} {s : State}

/-- A slot in use has no pipe iff its signal is deaf. -/
theorem run_noPipe_iff (hrun : (process limit capacity files).run es = some s) {i : Fin 32} :
    (s.notifier i).isInit = true → ((s.notifier i).NoPipe ↔ Deaf (i + 1) es) := by
  refine (process limit capacity files).run_invariant (I := fun es s =>
    (s.notifier i).isInit = true → ((s.notifier i).NoPipe ↔ Deaf (i + 1) es)) nofun ?_ hrun
  intro es s e s' hrun ih hstep hinit
  have hreg := run_registry hrun
  by_cases he : e.Claims (i + 1)
  · cases e with
    | construct id signum pipe throws =>
      obtain ⟨rfl, rfl⟩ := he
      rw [deaf_concat_construct]
      exact noPipe_of_construct hreg hstep
    | moveConstruct | moveAssign | destroy | deliver | wait => exact he.elim
  · have heq := notifier_of_step hreg hstep he hinit
    rw [heq] at hinit ⊢
    rw [deaf_append (List.forall_mem_singleton.mpr he)]
    exact ih hinit

/-- Where a delivery is unreported, a wait of the owner returns true iff the
signal is not deaf. -/
theorem run_wait0_iff (hrun : (process limit capacity files).run es = some s) {i : Fin 32}
    (hinit : (s.notifier i).isInit = true) (hdelivered : Delivered (i + 1) es) :
    (∃ s', s.wait0 i = some (true, s')) ↔ ¬ Deaf (i + 1) es := by
  have hreg := run_registry hrun
  rw [← run_noPipe_iff hrun hinit]
  rcases hreg.slots.pipes i with ⟨p, hends⟩ | hno
  · have hbytes := ((run_pending hrun).buffer hends).mpr hdelivered
    have hwait := wait0_eq hinit (hreg.slots.wf.range hends.read).1 hends
    rw [if_neg hbytes] at hwait
    exact iff_of_true ⟨_, hwait⟩ fun hno => hno.not_ends hreg.slots.wf p hends
  · refine iff_of_false ?_ fun h => h hno
    rintro ⟨s', hwait⟩
    rw [wait0_noPipe hno] at hwait
    cases hwait

/-- Only signals that have a slot get the handler. -/
theorem run_handler (hrun : (process limit capacity files).run es = some s) :
    ∀ sig, s.disposition sig = .handler → ∃ i : Fin 32, sig = i + 1 := by
  refine (process limit capacity files).run_invariant (I := fun _ s =>
    ∀ sig, s.disposition sig = .handler → ∃ i : Fin 32, sig = i + 1) (fun _ => nofun) ?_ hrun
  intro es s e s' hrun ih hstep sig hsig
  have hreg := run_registry hrun
  rcases step_slot hreg hstep sig with hclaims | ⟨hsame, -⟩ | ⟨hdefault, -⟩
  · exact slot_of_claims hreg hstep hclaims
  · exact ih sig (hsame ▸ hsig)
  · rw [hdefault] at hsig
    cases hsig

-- ---------------------------------------------------------------------------
-- Signals that cannot have a handler
-- ---------------------------------------------------------------------------

/-- An operation where `::signal` fails for the numbers `refused`, and leaves
their dispositions as they are. -/
def stepRefusing (refused : Int → Bool) (s : State) (e : Event) : Option State :=
  (step s e).map fun s' =>
    { s' with
      disposition := fun sig => if refused sig then s.disposition sig else s'.disposition sig }

/-- A process in a system where `::signal` fails for the numbers `refused`. -/
def processRefusing (refused : Int → Bool) (limit capacity : Nat) (files : Int → Option Nat) :
    Machine State Event where
  init := (process limit capacity files).init
  step := stepRefusing refused

/-- A signal arrives that has no handler for this reason. -/
def Event.isRefused (refused : Int → Bool) : Event → Bool
  | deliver sig => refused sig
  | construct .. | moveConstruct .. | moveAssign .. | destroy _ | wait .. => false

/-- The states differ in the dispositions of these signals only. -/
structure Agree (refused : Int → Bool) (s t : State) : Prop where
  notifier : s.notifier = t.notifier
  live : s.live = t.live
  kernel : s.kernel = t.kernel
  disposition : ∀ sig, refused sig = false → s.disposition sig = t.disposition sig

namespace Agree

variable {refused : Int → Bool} {s s' t : State}

theorem symm (h : Agree refused s t) : Agree refused t s :=
  ⟨h.notifier.symm, h.live.symm, h.kernel.symm, fun sig hsig => (h.disposition sig hsig).symm⟩

theorem update (h : Agree refused s t) (signum : Int) (d : Disposition) (sig : Int)
    (hsig : refused sig = false) :
    Function.update s.disposition signum d sig = Function.update t.disposition signum d sig := by
  by_cases heq : sig = signum
  · simp only [heq, Function.update_self]
  · rw [Function.update_of_ne heq, Function.update_of_ne heq, h.disposition sig hsig]

theorem construct (h : Agree refused s t) (id : Nat) (signum : Int) (pipe : Option (Int × Int)) :
    (s.construct id signum pipe).2 = (t.construct id signum pipe).2 ∧
      Agree refused (s.construct id signum pipe).1 (t.construct id signum pipe).1 := by
  unfold State.construct
  rw [h.notifier, h.kernel, h.live]
  split
  · exact ⟨rfl, h⟩
  · dsimp only
    split
    · exact ⟨rfl, h⟩
    · exact ⟨rfl, rfl, rfl, rfl, h.update signum .handler⟩

theorem release (h : Agree refused s t) (v : Int) : Agree refused (s.release v) (t.release v) := by
  unfold State.release
  rw [h.notifier, h.kernel]
  split
  · exact h
  · split
    · exact ⟨rfl, h.live, rfl, h.update (v + 1) .default⟩
    · exact h

theorem waitReadable (h : Agree refused s t) {i : Fin 32} {readable r : Bool}
    (hwait : s.waitReadable i readable = some (r, s')) :
    ∃ t', t.waitReadable i readable = some (r, t') ∧ Agree refused s' t' := by
  unfold State.waitReadable at hwait ⊢
  rw [h.notifier, h.kernel] at hwait
  cases readable with
  | true =>
    obtain ⟨k, hdrain, heq⟩ := Option.map_eq_some_iff.mp hwait
    cases heq
    exact ⟨_, Option.map_eq_some_iff.mpr ⟨k, hdrain, rfl⟩, h.notifier ▸ rfl, h.live, rfl, h.disposition⟩
  | false =>
    cases hwait
    exact ⟨t, rfl, h⟩

theorem wait0 (h : Agree refused s t) {v : Int} {r : Bool} (hwait : s.wait0 v = some (r, s')) :
    ∃ t', t.wait0 v = some (r, t') ∧ Agree refused s' t' := by
  unfold State.wait0 at hwait ⊢
  rw [h.notifier, h.kernel] at hwait
  split at hwait
  · cases hwait
    exact ⟨t, rfl, h⟩
  · split at hwait
    · rename_i hinit
      rw [if_pos hinit]
      exact h.waitReadable hwait
    · rename_i hinit
      rw [if_neg hinit]
      cases hwait
      exact ⟨t, rfl, h⟩

theorem handler (h : Agree refused s t) {signum : Int} (hhandler : s.handler signum = some s') :
    ∃ t', t.handler signum = some t' ∧ Agree refused s' t' := by
  unfold State.handler at hhandler ⊢
  rw [h.notifier, h.kernel] at hhandler
  split at hhandler
  · cases hhandler
    exact ⟨t, rfl, h⟩
  · dsimp only at hhandler ⊢
    split at hhandler
    · rename_i hinit
      rw [if_pos hinit]
      cases hhandler
      exact ⟨t, rfl, h⟩
    · rename_i hinit
      rw [if_neg hinit]
      split at hhandler
      · rename_i hfd
        rw [if_pos hfd]
        cases hhandler
        exact ⟨t, rfl, h⟩
      · rename_i hfd
        rw [if_neg hfd]
        obtain ⟨r, hwrite, rfl⟩ := Option.map_eq_some_iff.mp hhandler
        exact ⟨_, Option.map_eq_some_iff.mpr ⟨r, hwrite, rfl⟩, rfl, h.live, rfl, h.disposition⟩

/-- A signal that may have a handler is delivered alike. -/
theorem deliver (h : Agree refused s t) {signum : Int} (hsig : refused signum = false)
    (hdeliver : s.deliver signum = some s') :
    ∃ t', t.deliver signum = some t' ∧ Agree refused s' t' := by
  unfold State.deliver at hdeliver ⊢
  rw [h.disposition signum hsig] at hdeliver
  split at hdeliver
  · rename_i hhandler
    rw [if_pos hhandler]
    exact h.handler hdeliver
  · rename_i hdefault
    rw [if_neg hdefault]
    cases hdeliver
    exact ⟨t, rfl, h⟩

theorem set (h : Agree refused s t) {id : Nat} {v : Int} :
    Agree refused (s.set id v) (t.set id v) where
  notifier := h.notifier
  live := by simp only [State.set, h.live]
  kernel := h.kernel
  disposition := h.disposition

theorem step {e : Event} (h : Agree refused s t) (he : e.isRefused refused = false)
    (hstep : Signal.step s e = some s') : ∃ t', Signal.step t e = some t' ∧ Agree refused s' t' := by
  cases e with
  | construct id signum pipe throws =>
    simp only [Signal.step, h.live, h.kernel] at hstep ⊢
    obtain ⟨herror, hagree⟩ := h.construct id signum pipe
    split at hstep
    · rename_i hpre
      rw [if_pos hpre, herror] at *
      split at hstep
      · rename_i hthrows
        cases hstep
        exact ⟨_, if_pos hthrows, hagree⟩
      · cases hstep
    · cases hstep
  | moveConstruct id other =>
    simp only [Signal.step, h.live] at hstep ⊢
    split at hstep
    · cases hstep
      exact ⟨_, rfl, h.set.set⟩
    · cases hstep
  | moveAssign dst other =>
    simp only [Signal.step, h.live] at hstep ⊢
    split at hstep
    · rename_i v _ _ _
      have hreleased := h.release v
      split at hstep
      · cases hstep
        exact ⟨_, if_pos ‹_›, hreleased.set⟩
      · cases hstep
        exact ⟨_, if_neg ‹_›, hreleased.set.set⟩
    · cases hstep
  | destroy id =>
    simp only [Signal.step, h.live] at hstep ⊢
    split at hstep
    · rename_i v _
      cases hstep
      have hreleased := h.release v
      exact ⟨_, rfl, hreleased.notifier, rfl, hreleased.kernel, hreleased.disposition⟩
    · cases hstep
  | deliver signum => exact h.deliver he hstep
  | wait id sig result =>
    obtain ⟨v, hid, hsig, hwait⟩ := step_wait hstep
    obtain ⟨t', hwait', hagree⟩ := h.wait0 hwait
    refine ⟨t', ?_, hagree⟩
    simp only [Signal.step, ← h.live, hid, hwait', hsig, and_self, if_true]

end Agree

/-- The state of a process where `::signal` fails for some numbers, and the
state it would have if `::signal` failed for none. -/
structure Shadow (refused : Int → Bool) (s t : State) : Prop where
  agree : Agree refused s t
  default : ∀ sig, refused sig = true → s.disposition sig = .default

variable {refused : Int → Bool}

/-- Without a handler a delivery changes nothing. -/
theorem Shadow.hidden {t s' : State} {e : Event} (h : Shadow refused s t)
    (hstep : stepRefusing refused s e = some s') (he : e.isRefused refused = true) :
    Shadow refused s' t := by
  cases e with
  | deliver sig =>
    obtain ⟨s₁, hdeliver, rfl⟩ := Option.map_eq_some_iff.mp hstep
    have hnot : ¬ s.disposition sig = .handler := by
      rw [h.default sig he]
      exact nofun
    simp only [step, State.deliver, if_neg hnot] at hdeliver
    obtain rfl := Option.some.inj hdeliver
    simpa only [ite_self] using h
  | construct | moveConstruct | moveAssign | destroy | wait => cases he

theorem Shadow.visible {t s' : State} {e : Event} (h : Shadow refused s t)
    (hstep : stepRefusing refused s e = some s') (he : e.isRefused refused = false) :
    ∃ t', step t e = some t' ∧ Shadow refused s' t' := by
  obtain ⟨s₁, hs₁, rfl⟩ := Option.map_eq_some_iff.mp hstep
  obtain ⟨t', ht', hagree⟩ := h.agree.step he hs₁
  refine ⟨t', ht', ⟨hagree.notifier, hagree.live, hagree.kernel, fun sig hsig => ?_⟩, fun sig hsig => ?_⟩
  · simp only [hsig, Bool.false_eq_true, if_false]
    exact hagree.disposition sig hsig
  · simp only [hsig, if_true]
    exact h.default sig hsig

/-- Every run is one without the refused signals, as far as anybody but these
can tell. -/
theorem run_shadow (hrun : (processRefusing refused limit capacity files).run es = some s) :
    ∃ t, (process limit capacity files).run (es.filter (!·.isRefused refused)) = some t ∧
      Shadow refused s t :=
  Machine.run_filter_of_simulation (M := processRefusing refused limit capacity files)
    (N := process limit capacity files) (R := Shadow refused)
    ⟨⟨rfl, rfl, rfl, fun _ _ => rfl⟩, fun _ _ => rfl⟩ Shadow.hidden Shadow.visible hrun

theorem deaf_filter (refused : Int → Bool) {sig : Int} {es : List Event} :
    Deaf sig (es.filter (!·.isRefused refused)) ↔ Deaf sig es := by
  refine since_filter (fun e he => ?_) es
  cases e with
  | deliver => exact ⟨nofun, id⟩
  | construct | moveConstruct | moveAssign | destroy | wait => cases he

theorem delivered_filter {sig : Int} (hsig : refused sig = false) {es : List Event} :
    Delivered sig (es.filter (!·.isRefused refused)) ↔ Delivered sig es := by
  rw [delivered_iff_since, delivered_iff_since]
  refine since_filter (fun e he => ?_) es
  cases e with
  | deliver sig' =>
    refine ⟨fun heq => ?_, id⟩
    cases heq
    simp only [Event.isRefused, hsig, Bool.not_false, Bool.true_eq_false] at he
  | construct | moveConstruct | moveAssign | destroy | wait => cases he

-- ---------------------------------------------------------------------------
-- Constructions and deliveries
-- ---------------------------------------------------------------------------

/-- What a constructor is to do: throw and leave slots and dispositions as they
were, or leave both ends of a pipe in the slot of the signal, and the handler. -/
def Constructed (s s' : State) (signum : Int) (throws : Bool) : Prop :=
  (throws = true ∧ s'.notifier = s.notifier ∧ s'.disposition = s.disposition) ∨
  ∃ i : Fin 32, throws = false ∧ signum = i + 1 ∧ (s'.notifier i).isInit = true ∧
    (s'.notifier i).pipe0.ok = true ∧ (s'.notifier i).pipe1.ok = true ∧
    (∃ p, (s'.notifier i).Ends s'.kernel p) ∧ s'.disposition signum = .handler

/-- Why a constructor throws. -/
theorem throws_iff {failed : Prop} {s s' : State} {id : Nat} {signum : Int}
    {pipe : Option (Int × Int)} {throws : Bool} (h : Registry failed s)
    (hstep : step s (.construct id signum pipe throws) = some s') :
    throws = true ↔
      (signum < 1 ∨ 32 < signum) ∨ ∃ i : Fin 32, signum = i + 1 ∧ (s.notifier i).isInit = true := by
  cases throws with
  | true =>
    refine iff_of_true rfl ?_
    simp only [step] at hstep
    split at hstep
    · split at hstep
      · rename_i herror
        rcases construct_cases s id signum pipe with ⟨hwhy, -⟩ | ⟨i, -, -, heq⟩
        · exact hwhy
        · rw [heq] at herror
          cases herror
      · cases hstep
    · cases hstep
  | false =>
    obtain ⟨hthrows, -⟩ | ⟨-, -, i, rfl, hfree, -⟩ := step_construct h hstep
    · cases hthrows
    refine iff_of_false Bool.false_ne_true ?_
    rintro (hrange | ⟨j, hj, hinit⟩)
    · omega
    · obtain rfl : i = j := Fin.ext (by omega)
      rw [hfree] at hinit
      cases hinit

theorem constructed_iff {failed : Prop} {t s' : State} {id : Nat} {signum : Int}
    {pipe : Option (Int × Int)} {throws : Bool} (hshadow : Shadow refused s t) (h : Registry failed t)
    (hstep : stepRefusing refused s (.construct id signum pipe throws) = some s') :
    Constructed s s' signum throws ↔
      throws = true ∨ (pipe ≠ none ∧ refused signum = false) := by
  obtain ⟨t', ht', hshadow'⟩ := hshadow.visible hstep rfl
  cases throws with
  | true =>
    obtain ⟨-, rfl⟩ | ⟨hthrows, -⟩ := step_construct h ht'
    · refine iff_of_true (.inl ⟨rfl, ?_, ?_⟩) (.inl rfl)
      · rw [hshadow'.agree.notifier, hshadow.agree.notifier]
      · funext sig
        cases hsig : refused sig with
        | true => rw [hshadow'.default sig hsig, hshadow.default sig hsig]
        | false =>
          rw [hshadow'.agree.disposition sig hsig, hshadow.agree.disposition sig hsig]
    · cases hthrows
  | false =>
    obtain ⟨hthrows, -⟩ | ⟨-, -, i, rfl, -⟩ := step_construct h ht'
    · cases hthrows
    have hreg' := step_registry h ht'
    have hnone := noPipe_of_construct h ht'
    constructor
    · rintro (⟨hthrows, -⟩ | ⟨j, -, hj, -, -, -, ⟨p, hends⟩, hhandler⟩)
      · cases hthrows
      obtain rfl : i = j := Fin.ext (by omega)
      refine .inr ⟨fun heq => ?_, ?_⟩
      · rw [hshadow'.agree.notifier, hshadow'.agree.kernel] at hends
        exact (hnone.mpr heq).not_ends hreg'.slots.wf p hends
      · by_contra hrefused
        rw [hshadow'.default _ (by simpa using hrefused)] at hhandler
        cases hhandler
    · rintro (hthrows | ⟨hpipe, hrefused⟩)
      · cases hthrows
      obtain ⟨p, hends⟩ := (hreg'.slots.pipes i).resolve_right fun hno => hpipe (hnone.mp hno)
      have hinit := hreg'.slots.isInit_of_ends hends
      have hread := (hreg'.slots.wf.range hends.read).1
      have hwrite := (hreg'.slots.wf.range hends.write).1
      refine .inr ⟨i, rfl, rfl, ?_⟩
      rw [hshadow'.agree.notifier, hshadow'.agree.kernel, hshadow'.agree.disposition _ hrefused]
      exact ⟨hinit, decide_eq_true hread, decide_eq_true hwrite, ⟨p, hends⟩,
        (hreg'.slots.handled i).mp hinit⟩

/-- Where a delivery of a signal is unreported, a wait of an owner returns true
iff the signal is not deaf. -/
theorem run_heard_iff (hrun : (processRefusing refused limit capacity files).run es = some s)
    {i : Fin 32} (hsig : refused (i + 1) = false) (hdelivered : Delivered (i + 1) es) {id : Nat}
    (hlive : s.live id = some (i : Int)) :
    (∃ s', s.wait0 i = some (true, s')) ↔ ¬ Deaf (i + 1) es := by
  obtain ⟨t, ht, hshadow⟩ := run_shadow hrun
  have howner : holds t.live id = some i := holds_eq_some.mpr (hshadow.agree.live ▸ hlive)
  have hinit := ((run_registry ht).owners.used_iff i).mpr ⟨id, howner⟩
  rw [← deaf_filter refused, ← run_wait0_iff ht hinit ((delivered_filter hsig).mpr hdelivered)]
  constructor
  · rintro ⟨s', hwait⟩
    obtain ⟨t', hwait', -⟩ := hshadow.agree.wait0 hwait
    exact ⟨t', hwait'⟩
  · rintro ⟨t', hwait⟩
    obtain ⟨s', hwait', -⟩ := hshadow.agree.symm.wait0 hwait
    exact ⟨s', hwait'⟩

/-- A signal that has the handler is one of a slot, which has an owner. -/
theorem run_handled (hrun : (processRefusing refused limit capacity files).run es = some s) {sig : Int}
    (hhandler : s.disposition sig = .handler) :
    refused sig = false ∧ ∃ i : Fin 32, sig = i + 1 ∧ ∃ id, s.live id = some (i : Int) := by
  obtain ⟨t, ht, hshadow⟩ := run_shadow hrun
  have hsig : refused sig = false := by
    by_contra hrefused
    rw [hshadow.default sig (by simpa using hrefused)] at hhandler
    cases hhandler
  rw [hshadow.agree.disposition sig hsig] at hhandler
  obtain ⟨i, rfl⟩ := run_handler ht sig hhandler
  have hreg := run_registry ht
  obtain ⟨id, hid⟩ := (hreg.owners.used_iff i).mp ((hreg.slots.handled i).mpr hhandler)
  exact ⟨hsig, i, rfl, id, hshadow.agree.live ▸ holds_eq_some.mp hid⟩

/-- In every reachable state a constructor does what it is to do iff it has to
throw, or `::pipe` succeeds and `::signal` takes the number. A signal that has
the handler has an owner, and after a delivery of it the next wait of an owner
returns true iff `::pipe` succeeded in the constructor that claimed the signal. -/
theorem constructed_and_heard_iff
    (hrun : (processRefusing refused limit capacity files).run es = some s) :
    (∀ id signum pipe throws s',
      stepRefusing refused s (.construct id signum pipe throws) = some s' →
        (Constructed s s' signum throws ↔
          ((signum < 1 ∨ 32 < signum) ∨
            ∃ i : Fin 32, signum = i + 1 ∧ (s.notifier i).isInit = true) ∨
          (pipe ≠ none ∧ refused signum = false))) ∧
    ∀ sig, s.disposition sig = .handler →
      (∃ id, s.live id = some (sig - 1)) ∧
      ∀ es' s' id,
        (processRefusing refused limit capacity files).runFrom s (.deliver sig :: es') = some s' →
        (∀ e ∈ es', ¬ e.Resets sig) → s'.live id = some (sig - 1) →
          ((∃ s'', s'.wait0 (sig - 1) = some (true, s'')) ↔ ¬ Deaf sig es) := by
  constructor
  · intro id signum pipe throws s' hstep
    obtain ⟨t, ht, hshadow⟩ := run_shadow hrun
    have hreg := run_registry ht
    obtain ⟨t', ht', -⟩ := hshadow.visible hstep rfl
    rw [constructed_iff hshadow hreg hstep, throws_iff hreg ht', hshadow.agree.notifier]
  · intro sig hhandler
    obtain ⟨hsig, i, rfl, howner⟩ := run_handled hrun hhandler
    rw [Int.add_sub_cancel]
    refine ⟨howner, fun es' s' id hfrom hno hlive => ?_⟩
    have hrun' : (processRefusing refused limit capacity files).run (es ++ .deliver (i + 1) :: es') =
        some s' := (Machine.run_append _).mpr ⟨s, hrun, hfrom⟩
    rw [run_heard_iff hrun' hsig ⟨es, es', rfl, hno⟩ hlive]
    refine not_congr (deaf_append ?_)
    -- a later claim would have reset the history
    rw [List.forall_mem_cons]
    exact ⟨fun hclaims => hclaims, fun e he hclaims => hno e he hclaims.resets⟩

/-- A moved `Signal`, two deliveries and a wait that was false before them,
where SIGKILL and SIGSTOP take no handler. -/
theorem constructed_and_heard_iff_example :
    ∃ s s', (processRefusing (fun sig => sig == 9 || sig == 19) 8 16 fun _ => none).run
        [.construct 0 2 (some (3, 4)) false, .wait 0 2 false] = some s ∧
      (processRefusing (fun sig => sig == 9 || sig == 19) 8 16 fun _ => none).runFrom s
        [.deliver 2, .moveConstruct 1 0, .deliver 2] = some s' ∧
      ((∃ s'', s'.wait0 (2 - 1) = some (true, s'')) ↔
        ¬ Deaf 2 [.construct 0 2 (some (3, 4)) false, .wait 0 2 false]) := by
  have hrun : ((processRefusing (fun sig => sig == 9 || sig == 19) 8 16 fun _ => none).run
      [.construct 0 2 (some (3, 4)) false, .wait 0 2 false]).map (fun s => s.disposition 2) =
        some .handler := by
    decide +kernel
  obtain ⟨s, hs, hhandler⟩ := Option.map_eq_some_iff.mp hrun
  have hlater : ((processRefusing (fun sig => sig == 9 || sig == 19) 8 16 fun _ => none).run
      ([.construct 0 2 (some (3, 4)) false, .wait 0 2 false] ++
        [.deliver 2, .moveConstruct 1 0, .deliver 2])).map (fun s => s.live 1) = some (some 1) := by
    decide +kernel
  obtain ⟨s', hs', hlive⟩ := Option.map_eq_some_iff.mp hlater
  obtain ⟨t, ht, hfrom⟩ := (Machine.run_append _).mp hs'
  obtain rfl := Option.some.inj (hs.symm.trans ht)
  exact ⟨s, s', hs, hfrom, ((constructed_and_heard_iff hs).2 2 hhandler).2 _ s' 1 hfrom
    (by simp [Event.Resets]) hlive⟩

/-- `::pipe` fails: the constructor returns, an interrupt no longer ends the
process, and the wait after it is false. -/
theorem construct_deaf :
    ∃ s s' s'', (processRefusing (fun sig => sig == 9 || sig == 19) 8 16 fun _ => none).run
        [.construct 0 2 none false] = some s ∧
      (s.notifier 1).pipe0.ok = false ∧ (s.notifier 1).pipe1.ok = false ∧
      s.disposition 2 = .handler ∧ s.deliver 2 = some s' ∧ s'.live 0 = some 1 ∧
      s'.wait0 1 = some (false, s'') :=
  ⟨_, _, _, rfl, by decide, by decide, by decide, rfl, by decide, rfl⟩

end Rix.Ipc.Signal
