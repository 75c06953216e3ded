-- SUMMARY: A program with a Signal as its notification: the first poll after a delivery is true.
import MBotTeleop.Ipc.Deaf

/-!
# Interrupts

Both programs are given a `Signal` that they poll with `wait(Duration(0))`, and
return at the first poll that is true. Signals may arrive between any two of
their calls. So after a delivery they make one poll at most.
-/

namespace Rix.Ipc.Interrupt

variable {σ ε : Type}

-- ---------------------------------------------------------------------------
-- A program that polls a Signal
-- ---------------------------------------------------------------------------

structure State (σ : Type) where
  program : σ
  process : Signal.State

inductive Event (ε : Type) where
  /-- A call of the program. -/
  | own (e : ε)
  /-- A signal arrives. -/
  | deliver (signum : Int)

/-- `poll?` tells the polls among the calls of the program, with their results.
They are `wait(Duration(0))` on object `id`, which is for the signal `signum`. -/
def step (M : Machine σ ε) (poll? : ε → Option Bool) (id : Nat) (signum : Int) (s : State σ) :
    Event ε → Option (State σ)
  | .own e =>
    match poll? e with
    | none => (M.step s.program e).map fun p => { s with program := p }
    | some ready =>
      (M.step s.program e).bind fun p =>
        (Signal.step s.process (.wait id signum ready)).map fun q => ⟨p, q⟩
  | .deliver signum => (s.process.deliver signum).map fun q => { s with process := q }

/-- The program starts in a process that has the `Signal`. -/
def interruptible (M : Machine σ ε) (poll? : ε → Option Bool) (id : Nat) (signum : Int)
    (process : Signal.State) : Machine (State σ) (Event ε) where
  init := ⟨M.init, process⟩
  step := step M poll? id signum

def Event.own? : Event ε → Option ε
  | own e => some e
  | deliver _ => none

/-- What an event is to the process. -/
def Event.signal? (poll? : ε → Option Bool) (id : Nat) (signum : Int) : Event ε → Option Signal.Event
  | own e => (poll? e).map (Signal.Event.wait id signum ·)
  | deliver signum => some (.deliver signum)

/-- The calls of the program. -/
def calls (es : List (Event ε)) : List ε := es.filterMap Event.own?

variable {M : Machine σ ε} {poll? : ε → Option Bool} {id : Nat} {signum : Int} {s s' : State σ}

theorem step_own {process : Signal.State} {e : ε}
    (h : (interruptible M poll? id signum process).step s (.own e) = some s') :
    M.step s.program e = some s'.program ∧
      match poll? e with
      | none => s'.process = s.process
      | some ready => Signal.step s.process (.wait id signum ready) = some s'.process := by
  simp only [interruptible, step] at h
  split at h
  · obtain ⟨p, hp, rfl⟩ := Option.map_eq_some_iff.mp h
    exact ⟨hp, rfl⟩
  · obtain ⟨p, hp, h⟩ := Option.bind_eq_some_iff.mp h
    obtain ⟨q, hq, rfl⟩ := Option.map_eq_some_iff.mp h
    exact ⟨hp, hq⟩

theorem step_deliver {process : Signal.State} {sig : Int}
    (h : (interruptible M poll? id signum process).step s (.deliver sig) = some s') :
    s'.program = s.program ∧ Signal.step s.process (.deliver sig) = some s'.process := by
  obtain ⟨q, hq, rfl⟩ := Option.map_eq_some_iff.mp h
  exact ⟨rfl, hq⟩

/-- The program goes through a run of its own. -/
theorem run_calls {process : Signal.State} {es : List (Event ε)}
    (hrun : (interruptible M poll? id signum process).run es = some s) :
    M.run (calls es) = some s.program := by
  refine Machine.run_of_view (N := M) (V := State.program) ?_ ?_ hrun
  · intro s e s' hstep he
    cases e with
    | own e => cases he
    | deliver sig => exact (step_deliver hstep).1
  · intro s e s' d hstep he
    cases e with
    | own e =>
      cases he
      exact (step_own hstep).1
    | deliver sig => cases he

/-- And so does the process. -/
theorem run_process {limit capacity : Nat} {files : Int → Option Nat} {start : List Signal.Event}
    {process : Signal.State} (hstart : (Signal.process limit capacity files).run start = some process)
    {es : List (Event ε)} (hrun : (interruptible M poll? id signum process).run es = some s) :
    (Signal.process limit capacity files).run
      (start ++ es.filterMap (Event.signal? poll? id signum)) = some s.process := by
  refine (Machine.run_append _).mpr ⟨process, hstart, ?_⟩
  refine Machine.run_of_view (N := Signal.process limit capacity files) (V := State.process)
    ?_ ?_ hrun
  · intro s e s' hstep he
    cases e with
    | own e =>
      have hprocess := (step_own hstep).2
      rw [Option.map_eq_none_iff.mp he] at hprocess
      exact hprocess
    | deliver sig => cases he
  · intro s e s' d hstep he
    cases e with
    | own e =>
      obtain ⟨ready, hpoll, rfl⟩ := Option.map_eq_some_iff.mp he
      have hprocess := (step_own hstep).2
      rw [hpoll] at hprocess
      exact hprocess
    | deliver sig =>
      cases he
      exact (step_deliver hstep).2

-- ---------------------------------------------------------------------------
-- After a delivery
-- ---------------------------------------------------------------------------

/-- Object `id` is a `Signal` for `signum` in the process, and it has a pipe: `::pipe`
succeeded when the constructor called it. Without one every poll is false. -/
structure Listens (limit capacity : Nat) (files : Int → Option Nat) (start : List Signal.Event)
    (process : Signal.State) (id : Nat) (signum : Int) : Prop where
  run : (Signal.process limit capacity files).run start = some process
  slot : ∃ i : Fin 32, signum = i + 1 ∧ process.live id = some (i : Int)
  heard : ¬ Signal.Deaf signum start

/-- The program returns where a poll returns true. -/
def EndsAtPoll (M : Machine σ ε) (poll? : ε → Option Bool) : Prop :=
  ∀ s e s', poll? e = some true → M.step s e = some s' → ∀ e', M.step s' e' = none

variable {limit capacity : Nat} {files : Int → Option Nat} {start : List Signal.Event}
  {process : Signal.State}

/-- Polls and deliveries make no object and end none. -/
theorem run_live {es : List (Event ε)}
    (hrun : (interruptible M poll? id signum process).run es = some s) :
    s.process.live = process.live := by
  refine (interruptible M poll? id signum process).run_invariant
    (I := fun _ s => s.process.live = process.live) rfl ?_ hrun
  intro es s e s' _ ih hstep
  cases e with
  | own e =>
    have hprocess := (step_own hstep).2
    split at hprocess
    · rw [hprocess, ih]
    · obtain ⟨v, -, -, hwait⟩ := Signal.step_wait hprocess
      obtain ⟨k, hk, -⟩ := Signal.wait0_cases hwait
      rw [hk, ← ih]
  | deliver sig =>
    obtain ⟨k, hk, -⟩ := Signal.deliver_cases (step_deliver hstep).2
    rw [hk, ← ih]

/-- A poll is true if the signal was delivered before it and not reported since. -/
theorem poll_of_delivered (hl : Listens limit capacity files start process id signum)
    {es : List (Event ε)} (hrun : (interruptible M poll? id signum process).run es = some s)
    (hdelivered : Signal.Delivered signum
      (start ++ es.filterMap (Event.signal? poll? id signum))) {e : ε} {ready : Bool}
    (hpoll : poll? e = some ready)
    (hstep : (interruptible M poll? id signum process).step s (.own e) = some s') :
    ready = true := by
  obtain ⟨i, rfl, hlive⟩ := hl.slot
  have hprocess := run_process hl.run hrun
  have hlive : s.process.live id = some (i : Int) := by rw [run_live hrun, hlive]
  have hinit : (s.process.notifier i).isInit = true :=
    ((Signal.run_registry hprocess).owners.used_iff i).mpr ⟨id, Signal.holds_eq_some.mpr hlive⟩
  have hheard : ¬ Signal.Deaf (i + 1)
      (start ++ es.filterMap (Event.signal? poll? id ((i : Int) + 1))) := by
    rw [Signal.deaf_append]
    · exact hl.heard
    · intro x hx
      obtain ⟨e, -, he⟩ := List.mem_filterMap.mp hx
      cases e with
      | own e =>
        obtain ⟨ready, -, rfl⟩ := Option.map_eq_some_iff.mp he
        exact fun h => h
      | deliver sig =>
        cases he
        exact fun h => h
  obtain ⟨s₁, hs₁⟩ := (Signal.run_wait0_iff hprocess hinit hdelivered).mpr hheard
  have hwait := (step_own hstep).2
  rw [hpoll] at hwait
  obtain ⟨v, hv, -, hwait⟩ := Signal.step_wait hwait
  cases hlive.symm.trans hv
  cases hs₁.symm.trans hwait
  rfl

theorem EndsAtPoll.last (hends : EndsAtPoll M poll?) {as bs : List ε} {e : ε} {t : σ}
    (hpoll : poll? e = some true) (hrun : M.run (as ++ e :: bs) = some t) : bs = [] := by
  obtain ⟨t₁, t₂, -, hstep, hrest⟩ := M.run_middle.mp hrun
  exact (M.runFrom_of_stuck (hends t₁ e t₂ hpoll hstep) hrest).1

@[simp] theorem calls_append (es es' : List (Event ε)) : calls (es ++ es') = calls es ++ calls es' :=
  List.filterMap_append ..

@[simp] theorem calls_own (e : ε) (es : List (Event ε)) : calls (.own e :: es) = e :: calls es := rfl

@[simp] theorem calls_deliver (sig : Int) (es : List (Event ε)) :
    calls (.deliver sig :: es) = calls es := rfl

/-- After a delivery no poll is false: the first one is true, and the program has
returned then. -/
theorem no_false_poll (hl : Listens limit capacity files start process id signum)
    (hends : EndsAtPoll M poll?) {es₁ es₂ : List (Event ε)}
    (hrun : (interruptible M poll? id signum process).run (es₁ ++ .deliver signum :: es₂) = some s) :
    ∀ e ∈ calls es₂, poll? e ≠ some false := by
  intro e he hpoll
  obtain ⟨x, hx, hown⟩ := List.mem_filterMap.mp he
  cases x with
  | deliver sig => cases hown
  | own e' =>
    cases hown
    obtain ⟨as, bs, rfl⟩ := List.append_of_mem hx
    rw [← List.cons_append, ← List.append_assoc] at hrun
    obtain ⟨t, t', hbefore, hstep, -⟩ := (Machine.run_middle _).mp hrun
    have hdelivered : Signal.Delivered signum (start ++
        (es₁ ++ .deliver signum :: as).filterMap (Event.signal? poll? id signum)) := by
      refine ⟨start ++ es₁.filterMap (Event.signal? poll? id signum),
        as.filterMap (Event.signal? poll? id signum), ?_, ?_⟩
      · rw [List.filterMap_append, List.append_assoc]
        rfl
      · intro x hx hreset
        obtain ⟨y, hy, hyx⟩ := List.mem_filterMap.mp hx
        cases y with
        | deliver sig =>
          cases hyx
          exact hreset
        | own d =>
          obtain ⟨ready, hd, rfl⟩ := Option.map_eq_some_iff.mp hyx
          obtain rfl : ready = true := hreset.2
          -- a poll that was true, and a call after it
          obtain ⟨as₁, as₂, rfl⟩ := List.append_of_mem hy
          have hcalls := run_calls hrun
          simp only [calls_append, calls_own, calls_deliver, List.append_assoc,
            List.cons_append] at hcalls
          rw [← List.append_assoc] at hcalls
          have hnil := hends.last hd hcalls
          exact List.append_ne_nil_of_right_ne_nil _ (List.cons_ne_nil _ _) hnil
    cases poll_of_delivered hl hbefore hdelivered hpoll hstep

/-- So a poll after a delivery is true. -/
theorem poll_after_delivery (hl : Listens limit capacity files start process id signum)
    (hends : EndsAtPoll M poll?) {es₁ es₂ : List (Event ε)}
    (hrun : (interruptible M poll? id signum process).run (es₁ ++ .deliver signum :: es₂) = some s)
    {cs cs' : List ε} {e : ε} {ready : Bool} (hcalls : calls es₂ = cs ++ e :: cs')
    (hpoll : poll? e = some ready) : ready = true := by
  have he : e ∈ calls es₂ := hcalls ▸ List.mem_append_right _ List.mem_cons_self
  cases ready with
  | true => rfl
  | false => exact (no_false_poll hl hends hrun e he hpoll).elim

theorem run_suffix {es₁ es₂ : List (Event ε)} {sig : Int}
    (hrun : (interruptible M poll? id signum process).run (es₁ ++ .deliver sig :: es₂) = some s) :
    ∃ p, M.run (calls es₁) = some p ∧ M.runFrom p (calls es₂) = some s.program := by
  have hcalls := run_calls hrun
  rw [calls_append, calls_deliver] at hcalls
  exact M.run_append.mp hcalls

/-- A process with a `Signal` for `SIGINT`, and what is written of it in `main`. -/
theorem listens_main {process : Signal.State}
    (hrun : (Signal.process 8 16 fun _ => none).run [.construct 0 2 (some (3, 4)) false] =
      some process) (hlive : process.live 0 = some 1) :
    Listens 8 16 (fun _ => none) [.construct 0 2 (some (3, 4)) false] process 0 2 := by
  refine ⟨hrun, ⟨1, rfl, hlive⟩, ?_⟩
  rw [← List.nil_append [_], Signal.deaf_concat_construct]
  rintro ⟨⟩

end Rix.Ipc.Interrupt
