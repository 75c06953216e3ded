-- SUMMARY: Signal::wait with a duration: what it reports of a signal that arrives while it is blocked in ::poll.
import MBotTeleop.Ipc.Handler
import MBotTeleop.Ipc.Poll

/-!
# Waiting for a signal

While `::poll` is blocked, signals arrive. A handler runs on the waiting thread
or on another one; on the waiting thread it interrupts `::poll`, whatever it
did. `wait_for_readable` does not tell an interruption from the end of the time.
-/

namespace Rix.Ipc.Signal

open Rix.Util

-- ---------------------------------------------------------------------------
-- The timed wait
-- ---------------------------------------------------------------------------

/-- What can happen while a thread is blocked in `::poll`. -/
inductive Moment where
  /-- A signal is delivered, to the waiting thread or to another. -/
  | deliver (signum : Int) (toWaiter : Bool)
  /-- The time is up. -/
  | timeout
  deriving DecidableEq, Repr

/-- `::poll` from where it blocks: how it returns, or nothing as long as it does
not; `none` where a handler does not return. -/
def State.block (s : State) (fd : Int) : List Moment → Option (Option PollResult × State)
  | [] => some (none, s)
  | .timeout :: _ => some (some .timeout, s)
  | .deliver signum toWaiter :: rest =>
    match s.deliver signum with
    | none => none
    | some s' =>
      -- a signal without a handler does not interrupt
      if toWaiter ∧ s.disposition signum = .handler then some (some .eintr, s')
      else if s'.kernel.pollReady fd then some (some (.events (s'.kernel.pollIn fd)), s')
      else s'.block fd rest

/-- `::poll` -/
def State.poll (s : State) (fd timeoutMs : Int) (moments : List Moment) :
    Option (Option PollResult × State) :=
  if s.kernel.pollReady fd then some (some (.events (s.kernel.pollIn fd)), s)
  else if timeoutMs = 0 then some (some .timeout, s)
  else s.block fd moments

/-- `wait_for_readable` -/
def State.waitForReadable (s : State) (p : Pipe) (duration : Duration) (moments : List Moment) :
    Option (Option Bool × State) :=
  if p.fd < 0 then some (some false, s)
  else (s.poll p.fd (timeoutMs duration) moments).map fun r => (r.1.map PollResult.readable, r.2)

/-- `Signal::wait` of an object: what it returns, or nothing as long as it waits. -/
def State.wait (s : State) (signum_ : Int) (d : Duration) (moments : List Moment) :
    Option (Option Bool × State) :=
  match slot? signum_ with
  | none => some (some false, s)
  | some i =>
    if (s.notifier i).isInit then
      match s.waitForReadable (s.notifier i).pipe0 d moments with
      | none => none
      | some (none, s) => some (none, s)
      | some (some readable, s) => (s.waitReadable i readable).map fun r => (some r.1, r.2)
    else
      some (some false, s)

-- ---------------------------------------------------------------------------
-- Being blocked
-- ---------------------------------------------------------------------------

/-- `::poll` on the read end of slot `i` blocks, and after `before` it still does. -/
structure State.Blocked (s : State) (i : Fin 32) (before : List Moment) (s₁ : State) : Prop where
  not_ready : s.kernel.pollReady (s.notifier i).pipe0.fd = false
  block : s.block (s.notifier i).pipe0.fd before = some (none, s₁)

/-- As long as `::poll` is blocked its descriptor is not ready, and what happens
next is all that matters. -/
theorem block_append {s s₁ : State} {fd : Int} {before : List Moment}
    (hready : s.kernel.pollReady fd = false) (h : s.block fd before = some (none, s₁))
    (rest : List Moment) :
    s₁.kernel.pollReady fd = false ∧ s.block fd (before ++ rest) = s₁.block fd rest := by
  induction before generalizing s with
  | nil =>
    cases h
    exact ⟨hready, rfl⟩
  | cons m before ih =>
    cases m with
    | timeout => cases h
    | deliver signum toWaiter =>
      simp only [State.block, List.cons_append] at h ⊢
      split at h
      · cases h
      · split at h
        · cases h
        · split at h
          · cases h
          · rename_i hdeliver hhandled hnot
            obtain ⟨hready', happend⟩ := ih (by simpa using hnot) h
            refine ⟨hready', ?_⟩
            rw [if_neg hhandled, if_neg hnot]
            exact happend

/-- Only deliveries happen while a thread is blocked in `::poll`. -/
theorem block_run (limit capacity : Nat) (files : Int → Option Nat) {s s' : State} {fd : Int}
    {moments : List Moment} {r : Option PollResult} (h : s.block fd moments = some (r, s')) :
    s'.notifier = s.notifier ∧ s'.live = s.live ∧ s.kernel.SameTable s'.kernel ∧
      ∃ es, (process limit capacity files).runFrom s es = some s' := by
  induction moments generalizing s with
  | nil =>
    cases h
    exact ⟨rfl, rfl, .refl _, [], rfl⟩
  | cons m rest ih =>
    cases m with
    | timeout =>
      cases h
      exact ⟨rfl, rfl, .refl _, [], rfl⟩
    | deliver signum toWaiter =>
      simp only [State.block] at h
      split at h
      · cases h
      · rename_i s₁ hdeliver
        have hone : (process limit capacity files).runFrom s [.deliver signum] = some s₁ := by
          change (s.deliver signum).bind _ = _
          rw [hdeliver]
          rfl
        obtain ⟨k, rfl, hk⟩ := deliver_cases hdeliver
        split at h
        · cases h
          exact ⟨rfl, rfl, hk, _, hone⟩
        · split at h
          · cases h
            exact ⟨rfl, rfl, hk, _, hone⟩
          · obtain ⟨hnotifier, hlive, htable, es, hes⟩ := ih h
            refine ⟨hnotifier, hlive, hk.trans htable, [.deliver signum] ++ es, ?_⟩
            rw [Machine.runFrom_append, hone]
            exact hes

/-- `::poll` reports bytes only where it found them. -/
theorem block_pollIn {s s' : State} {fd : Int} {moments : List Moment} {r : PollResult}
    (h : s.block fd moments = some (some r, s')) (hreadable : r.readable = true) :
    s'.kernel.pollIn fd = true := by
  induction moments generalizing s with
  | nil => cases h
  | cons m rest ih =>
    cases m with
    | timeout =>
      cases h
      cases hreadable
    | deliver signum toWaiter =>
      simp only [State.block] at h
      split at h
      · cases h
      · split at h
        · cases h
          cases hreadable
        · split at h
          · cases h
            exact hreadable
          · exact ih h

theorem waitForReadable_run (limit capacity : Nat) (files : Int → Option Nat) {s s' : State}
    {p : Pipe} {d : Duration} {moments : List Moment} {readable : Bool}
    (h : s.waitForReadable p d moments = some (some readable, s')) :
    s'.notifier = s.notifier ∧ s'.live = s.live ∧
      (readable = true → p.waitForReadable0 s'.kernel = true) ∧
      ∃ es, (process limit capacity files).runFrom s es = some s' := by
  unfold State.waitForReadable at h
  split at h
  · cases h
    exact ⟨rfl, rfl, by rintro ⟨⟩, [], rfl⟩
  · rename_i hvalid
    obtain ⟨⟨r, s₁⟩, hpoll, heq⟩ := Option.map_eq_some_iff.mp h
    simp only [Prod.mk.injEq, Option.map_eq_some_iff] at heq
    obtain ⟨⟨r, rfl, rfl⟩, rfl⟩ := heq
    simp only [Pipe.waitForReadable0, hvalid, if_false]
    unfold State.poll at hpoll
    split at hpoll
    · cases hpoll
      exact ⟨rfl, rfl, id, [], rfl⟩
    · split at hpoll
      · cases hpoll
        exact ⟨rfl, rfl, by rintro ⟨⟩, [], rfl⟩
      · obtain ⟨hnotifier, hlive, -, hes⟩ := block_run limit capacity files hpoll
        exact ⟨hnotifier, hlive, block_pollIn hpoll, hes⟩

/-- A wait for any duration leaves the process where deliveries and a wait for
no time bring it. -/
theorem wait_run {s s' : State} {id : Nat} {v : Int} {d : Duration} {moments : List Moment}
    {result : Bool} {limit capacity : Nat} {files : Int → Option Nat} (hlive : s.live id = some v)
    (h : s.wait v d moments = some (some result, s')) :
    ∃ es, (process limit capacity files).runFrom s es = some s' := by
  unfold State.wait at h
  split at h
  · cases h
    exact ⟨[], rfl⟩
  · rename_i i hslot
    split at h
    · rename_i hinit
      split at h
      · cases h
      · cases h
      · rename_i readable s₁ hpoll
        obtain ⟨hnotifier, hlive₁, hin, es, hes⟩ := waitForReadable_run limit capacity
          files hpoll
        rw [← hnotifier] at hin
        cases readable with
        | false =>
          cases h
          exact ⟨es, hes⟩
        | true =>
          obtain ⟨⟨r, s₂⟩, hdrain, heq⟩ := Option.map_eq_some_iff.mp h
          cases heq
          have hwait0 : s₁.wait0 v = some (r, s₂) := by
            have hinit₁ : (s₁.notifier i).isInit = true := by rw [hnotifier, hinit]
            simp only [State.wait0, hslot, hinit₁, if_true, hin]
            exact hdrain
          have hstep : step s₁ (.wait id (signum v) r) = some s₂ := by
            rw [← hlive₁] at hlive
            simp only [step, hlive, hwait0, and_self, if_true]
          refine ⟨es ++ [.wait id (signum v) r], ?_⟩
          rw [Machine.runFrom_append, hes]
          change (step s₁ (.wait id (signum v) r)).bind some = some s₂
          rw [hstep, Option.bind_some]
    · cases h
      exact ⟨[], rfl⟩

-- ---------------------------------------------------------------------------
-- What a wait reports
-- ---------------------------------------------------------------------------

variable {limit capacity : Nat} {files : Int → Option Nat} {es : List Event} {s : State}

/-- A slot whose pipe `::poll` waits for has a pipe. -/
theorem ends_of_not_ready (hrun : (process limit capacity files).run es = some s) {i : Fin 32}
    (hready : s.kernel.pollReady (s.notifier i).pipe0.fd = false) :
    ∃ p, (s.notifier i).Ends s.kernel p := by
  have hreg := run_registry hrun
  apply (hreg.slots.pipes i).resolve_right
  intro hno
  have hclosed : s.kernel.fds (s.notifier i).pipe0.fd = none := by
    by_contra hopen
    obtain ⟨f, hf⟩ := Option.ne_none_iff_exists'.mp hopen
    have hrange := hreg.slots.wf.range hf
    rw [hno.pipe0] at hrange
    omega
  simp [Kernel.pollReady, Kernel.pollNval, hclosed] at hready

/-- The read end of a slot is ready iff there are bytes in the pipe. -/
theorem pollReady_eq {k : Kernel} (hk : k.WF) {n : Notifier} {p : Nat} (hends : n.Ends k p) :
    k.pollIn n.pipe0.fd = !(k.buffer p).isEmpty ∧ k.pollReady n.pipe0.fd = !(k.buffer p).isEmpty := by
  have hwriter := hk.isOpen hends.write
  constructor
  · simp only [Kernel.pollIn, hends.read]
  · simp only [Kernel.pollReady, Kernel.pollIn, Kernel.pollHup, Kernel.pollNval, hends.read, hwriter,
      Option.isNone_some, Bool.not_true, Bool.or_false]

/-- A wait of any positive duration goes as far as `::poll` does. -/
theorem wait_of_block {i : Fin 32} (hinit : (s.notifier i).isInit = true)
    (hfd : 0 ≤ (s.notifier i).pipe0.fd) {d : Duration} (hd : 0 < d.d.toInt)
    (hready : s.kernel.pollReady (s.notifier i).pipe0.fd = false) {moments : List Moment}
    {r : PollResult} {s' : State}
    (hblock : s.block (s.notifier i).pipe0.fd moments = some (some r, s')) :
    s.wait i d moments = (s'.waitReadable i r.readable).map fun r => (some r.1, r.2) := by
  have hvalid : ¬ (s.notifier i).pipe0.fd < 0 := by omega
  have htimeout : timeoutMs d ≠ 0 := Int.ne_of_gt (timeoutMs_pos hd)
  have hpoll : s.poll (s.notifier i).pipe0.fd (timeoutMs d) moments = some (some r, s') := by
    simp only [State.poll, hready, Bool.false_eq_true, if_false, htimeout, hblock]
  simp only [State.wait, slot?_natCast, hinit, if_true, State.waitForReadable, hvalid, if_false, hpoll,
    Option.map_some]

/-- As long as a wait is blocked its pipe is empty, so the handler has room for
its byte. -/
theorem State.Blocked.deliver (hrun : (process limit capacity files).run es = some s)
    (hcapacity : 0 < capacity) {i : Fin 32} (hinit : (s.notifier i).isInit = true)
    {before : List Moment} {s₁ : State} (h : s.Blocked i before s₁) :
    s₁.notifier = s.notifier ∧ s₁.disposition (i + 1) = .handler ∧
      ∃ p, (s.notifier i).Ends (s₁.kernel.setBuffer p [1]) p ∧ (s₁.kernel.setBuffer p [1]).WF ∧
        s₁.deliver (i + 1) = some { s₁ with kernel := s₁.kernel.setBuffer p [1] } := by
  obtain ⟨p, hends⟩ := ends_of_not_ready hrun h.not_ready
  obtain ⟨hready, -⟩ := block_append h.not_ready h.block []
  obtain ⟨hnotifier, -, htable, es', hes'⟩ := block_run limit capacity files h.block
  have hrun₁ : (process limit capacity files).run (es ++ es') = some s₁ :=
    (process limit capacity files).run_append.mpr ⟨s, hrun, hes'⟩
  have hreg := run_registry hrun₁
  have hends₁ : (s₁.notifier i).Ends s₁.kernel p := by
    rw [hnotifier]
    exact ⟨htable.fds ▸ hends.read, htable.fds ▸ hends.write⟩
  have hempty : s₁.kernel.buffer p = [] := by
    rw [← hnotifier, (pollReady_eq hreg.slots.wf hends₁).2] at hready
    simpa using hready
  have hnone : deliveries (i + 1) (es ++ es') = 0 := by
    rw [← (run_pending hrun₁).length i p hends₁, hempty]
    rfl
  have hsame : s₁.kernel.SameTable (s₁.kernel.setBuffer p [1]) := ⟨rfl, rfl, rfl, rfl⟩
  refine ⟨hnotifier, ?_, p, ⟨htable.fds ▸ hends.read, htable.fds ▸ hends.write⟩,
    (hreg.slots.congr hsame).wf, ?_⟩
  · exact (hreg.slots.handled i).mp (by rw [hnotifier]; exact hinit)
  · rw [run_deliver_eq hrun₁ hends₁, hnone, if_pos hcapacity, hempty]
    rfl

/-- A signal that arrives while a wait is blocked ends the wait, which reports
it iff its handler ran on another thread. -/
theorem wait_reports_iff (hrun : (process limit capacity files).run es = some s)
    (hcapacity : 0 < capacity) {id : Nat} {i : Fin 32} (hlive : s.live id = some (i : Int))
    {d : Duration} (hd : 0 < d.d.toInt) {before : List Moment} {s₁ : State}
    (hblocked : s.Blocked i before s₁) (toWaiter : Bool) (rest : List Moment) :
    ∃ result s', s.wait i d (before ++ .deliver (i + 1) toWaiter :: rest) = some (some result, s') ∧
      (result = true ↔ toWaiter = false) := by
  have hinit : (s.notifier i).isInit = true :=
    ((run_registry hrun).owners.used_iff i).mpr ⟨id, holds_eq_some.mpr hlive⟩
  obtain ⟨hnotifier, hhandled, p, hends, hwf, hdeliver⟩ := hblocked.deliver hrun hcapacity hinit
  have hfd : 0 ≤ (s.notifier i).pipe0.fd := (hwf.range hends.read).1
  obtain ⟨-, happend⟩ := block_append hblocked.not_ready hblocked.block
    (.deliver (i + 1) toWaiter :: rest)
  cases toWaiter with
  | true =>
    have hblock : s.block (s.notifier i).pipe0.fd (before ++ .deliver (i + 1) true :: rest) =
        some (some .eintr, { s₁ with kernel := s₁.kernel.setBuffer p [1] }) := by
      rw [happend]
      simp only [State.block, hdeliver, hhandled, and_self, if_true]
    refine ⟨false, _, wait_of_block hinit hfd hd hblocked.not_ready hblock, ?_⟩
    exact iff_of_false nofun nofun
  | false =>
    have hreadable := pollReady_eq hwf hends
    rw [Kernel.setBuffer_buffer] at hreadable
    have hblock : s.block (s.notifier i).pipe0.fd (before ++ .deliver (i + 1) false :: rest) =
        some (some (.events true), { s₁ with kernel := s₁.kernel.setBuffer p [1] }) := by
      rw [happend]
      simp only [State.block, hdeliver, hreadable, Bool.false_eq_true, false_and, if_false]
      rfl
    rw [← hnotifier] at hfd hends
    have hdrained := waitReadable_eq (s := { s₁ with kernel := s₁.kernel.setBuffer p [1] }) hfd hends
    rw [hnotifier] at hfd
    have hwait := wait_of_block hinit hfd hd hblocked.not_ready hblock
    rw [show PollResult.readable (.events true) = true from rfl, hdrained] at hwait
    exact ⟨true, _, hwait, iff_of_true rfl rfl⟩

/-- An interrupt while a wait of a millisecond is blocked, after one of another signal. -/
theorem wait_reports_iff_example :
    ∃ s s₁, (process 8 16 fun _ => none).run
        [.construct 0 2 (some (3, 4)) false, .construct 1 15 (some (5, 6)) false] = some s ∧
      ∃ result s', s.wait 1 ⟨1000000⟩ [.deliver 15 false, .deliver 2 false] =
          some (some result, s') ∧ (result = true ↔ false = false) ∧ s.Blocked 1 [.deliver 15 false] s₁ := by
  have hsome : ((process 8 16 fun _ => none).run
      [.construct 0 2 (some (3, 4)) false, .construct 1 15 (some (5, 6)) false]).map (fun s =>
        (s.live 0, s.kernel.pollReady (s.notifier 1).pipe0.fd,
          (s.block (s.notifier 1).pipe0.fd [.deliver 15 false]).map Prod.fst)) =
      some (some 1, false, some none) := by
    decide +kernel
  obtain ⟨s, hs, hfields⟩ := Option.map_eq_some_iff.mp hsome
  simp only [Prod.mk.injEq] at hfields
  obtain ⟨hlive, hready, hblock⟩ := hfields
  obtain ⟨⟨r, s₁⟩, hblock, rfl⟩ := Option.map_eq_some_iff.mp hblock
  have hblocked : s.Blocked 1 [.deliver 15 false] s₁ := ⟨hready, hblock⟩
  obtain ⟨result, s', hwait, hiff⟩ :=
    wait_reports_iff hs (by decide) hlive (d := ⟨1000000⟩) (by decide) hblocked false []
  exact ⟨s, s₁, hs, result, s', hwait, hiff, hblocked⟩

/-- The interrupt is delivered to the thread that waits for it, alone in its process. -/
theorem wait_interrupted :
    ∃ s, (process 1024 65536 fun _ => none).run [.construct 0 2 (some (3, 4)) false] = some s ∧
      s.Blocked 1 [] s ∧
      (s.wait 1 ⟨10000000000⟩ [.deliver 2 true]).map Prod.fst = some (some false) := by
  have hsome : ((process 1024 65536 fun _ => none).run
      [.construct 0 2 (some (3, 4)) false]).map (fun s =>
        (s.kernel.pollReady (s.notifier 1).pipe0.fd,
          (s.wait 1 ⟨10000000000⟩ [.deliver 2 true]).map Prod.fst)) =
      some (false, some (some false)) := by
    decide +kernel
  obtain ⟨s, hs, hfields⟩ := Option.map_eq_some_iff.mp hsome
  simp only [Prod.mk.injEq] at hfields
  exact ⟨s, hs, ⟨hfields.1, rfl⟩, hfields.2⟩

end Rix.Ipc.Signal
