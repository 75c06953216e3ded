-- SUMMARY: main of mbot_driver as one program: what it has done to the device and to its input when it exits, and that it can always exit.
import MBotTeleop.Driver.Refinement
import MBotTeleop.MBot.Progress
import MBotTeleop.MBot.Syscalls

/-!
# `main` of `mbot_driver`

The program makes an `MBot`, leaves at once if it is not ok, and calls `spin`. The
`MBot` is destroyed when `main` is left. Its thread runs beside all that from the
end of the constructor to the join in the destructor.
-/

namespace MBotDriver.Main

open MBot (Life.Stage Life.State)
open Rix.Ipc Rix.Msg

/-- Where `main` is. -/
inductive Pc where
  /-- In `std::make_unique<MBot>()`. -/
  | constructing
  /-- In `driver.spin(std::move(sig))`. -/
  | spinning
  /-- In the destructors of the locals. -/
  | leaving (status : Nat)
  | exited (status : Nat)
  deriving DecidableEq, Repr

def Pc.isLeaving : Pc → Bool
  | leaving _ => true
  | constructing | spinning | exited _ => false

structure State where
  pc : Pc := .constructing
  mbot : MBot.Life.State
  driver : MBotDriver.State := {}

inductive Event where
  /-- A step in the constructor or the destructor, or of a thread. -/
  | mbot (e : MBot.Life.Event)
  /-- `if (!mbot->ok())` -/
  | ok
  /-- A step of `spin`; `msg` is the array of a `drive` that is called in it. -/
  | spin (e : MBotDriver.Event) (msg : Memory)
  /-- `spin` returns to `main`. -/
  | returned
  /-- The process ends. -/
  | exit

/-- Only `spin` calls `drive`, and the destructor is that of a local of `main`. -/
def State.Permits (s : State) : MBot.Life.Event → Prop
  | .opened _ | .configured _ => s.pc = .constructing
  | .line (.drive _ _) => False
  | .destroy => s.pc.isLeaving = true
  | .line _ | .joined | .closed => True

instance (s : State) : (e : MBot.Life.Event) → Decidable (s.Permits e)
  | .opened _ | .configured _ => inferInstanceAs (Decidable (_ = _))
  | .line (.drive _ _) => .isFalse id
  | .destroy => inferInstanceAs (Decidable (_ = _))
  | .line (.timesync _ _) | .line (.lock _) | .line (.write _) | .line .unlock | .line .stop
  | .joined | .closed => .isTrue trivial

/-- The `MBot` after `spin` has gone on to `d`: `drive` was called if `d` has a
command more. -/
def State.mbotAfter (s : State) (d : MBotDriver.State) (msg : Memory) : Option MBot.Life.State :=
  match d.drives.drop s.driver.drives.length with
  | [] => some s.mbot
  | cmd :: _ => MBot.Life.step s.mbot (.line (.drive cmd msg))

def step (s : State) : Event → Option State
  | .mbot e =>
    if s.Permits e then (MBot.Life.step s.mbot e).map fun m => { s with mbot := m } else none
  | .ok =>
    if s.pc = .constructing ∧ s.mbot.stage = .alive then
      some { s with pc := if s.mbot.ok then .spinning else .leaving 1 }
    else
      none
  | .spin e msg =>
    -- `spin` goes on when `drive` has returned
    if s.pc = .spinning ∧ s.mbot.line.Idle then
      (MBotDriver.step s.driver e).bind fun d =>
        (s.mbotAfter d msg).map fun m => { s with mbot := m, driver := d }
    else
      none
  | .returned =>
    if s.pc = .spinning ∧ s.driver.pc = .returned ∧ s.mbot.line.Idle then
      some { s with pc := .leaving 0 }
    else
      none
  | .exit =>
    match s.pc with
    | .leaving status => if s.mbot.stage = .destroyed then some { s with pc := .exited status } else none
    | .constructing | .spinning | .exited _ => none

def main (stopTimesyncFlag : Bool) : Machine State Event where
  init := { mbot := (MBot.Life.life stopTimesyncFlag).init }
  step := step

def Event.spin? : Event → Option MBotDriver.Event
  | spin e _ => some e
  | mbot _ | ok | returned | exit => none

/-- The calls that `spin` made. -/
def spinEvents (es : List Event) : List MBotDriver.Event := es.filterMap Event.spin?

def Event.mbot? : Event → Option MBot.Life.Event
  | mbot e => some e
  | ok | spin _ _ | returned | exit => none

/-- The constructor has closed the descriptor. -/
def closesEarly (es : List Event) : Bool := MBot.Life.closesEarly (es.filterMap Event.mbot?)

variable {s s' : State}

-- ---------------------------------------------------------------------------
-- What a step can do
-- ---------------------------------------------------------------------------

theorem step_mbot {e : MBot.Life.Event} (h : step s (.mbot e) = some s') :
    s.Permits e ∧ ∃ m, MBot.Life.step s.mbot e = some m ∧ s' = { s with mbot := m } := by
  simp only [step] at h
  split at h
  · rename_i hpermits
    obtain ⟨m, hm, rfl⟩ := Option.map_eq_some_iff.mp h
    exact ⟨hpermits, m, hm, rfl⟩
  · cases h

theorem step_ok (h : step s .ok = some s') :
    s.pc = .constructing ∧ s.mbot.stage = .alive ∧
      s' = { s with pc := if s.mbot.ok then .spinning else .leaving 1 } := by
  simp only [step] at h
  split at h
  · rename_i hpre
    exact ⟨hpre.1, hpre.2, (Option.some.inj h).symm⟩
  · cases h

theorem step_spin {e : MBotDriver.Event} {msg : Memory} (h : step s (.spin e msg) = some s') :
    s.pc = .spinning ∧ s.mbot.line.Idle ∧ ∃ d m, MBotDriver.step s.driver e = some d ∧
      s.mbotAfter d msg = some m ∧ s' = { s with mbot := m, driver := d } := by
  simp only [step] at h
  split at h
  · rename_i hpre
    obtain ⟨d, hd, h⟩ := Option.bind_eq_some_iff.mp h
    obtain ⟨m, hm, rfl⟩ := Option.map_eq_some_iff.mp h
    exact ⟨hpre.1, hpre.2, d, m, hd, hm, rfl⟩
  · cases h

theorem step_returned (h : step s .returned = some s') :
    s.pc = .spinning ∧ s.driver.pc = .returned ∧ s.mbot.line.Idle ∧
      s' = { s with pc := .leaving 0 } := by
  simp only [step] at h
  split at h
  · rename_i hpre
    exact ⟨hpre.1, hpre.2.1, hpre.2.2, (Option.some.inj h).symm⟩
  · cases h

theorem step_exit (h : step s .exit = some s') :
    ∃ status, s.pc = .leaving status ∧ s.mbot.stage = .destroyed ∧
      s' = { s with pc := .exited status } := by
  simp only [step] at h
  split at h
  · rename_i status hpc
    split at h
    · rename_i hstage
      exact ⟨status, hpc, hstage, (Option.some.inj h).symm⟩
    · cases h
  · cases h
  · cases h
  · cases h

/-- The `MBot` has the calls of `spin`. -/
theorem mbotAfter_cases {d : MBotDriver.State} {msg : Memory} {m : MBot.Life.State}
    (hd : d.drives = s.driver.drives ∨ ∃ cmd, d.drives = s.driver.drives ++ [cmd])
    (h : s.mbotAfter d msg = some m) :
    (d.drives = s.driver.drives ∧ m = s.mbot) ∨ ∃ cmd, d.drives = s.driver.drives ++ [cmd] ∧
      MBot.Life.step s.mbot (.line (.drive cmd msg)) = some m := by
  unfold State.mbotAfter at h
  rcases hd with hd | ⟨cmd, hd⟩
  · rw [hd, List.drop_length] at h
    exact .inl ⟨hd, (Option.some.inj h).symm⟩
  · rw [hd, List.drop_left] at h
    exact .inr ⟨cmd, hd, h⟩

-- ---------------------------------------------------------------------------
-- Runs
-- ---------------------------------------------------------------------------

/-- Why `main` is left. -/
def Leaves (es : List Event) (s : State) (status : Nat) : Prop :=
  (status = 1 ∧ s.mbot.fd < 0 ∧ spinEvents es = []) ∨
    (status = 0 ∧ 0 ≤ s.mbot.fd ∧ s.driver.pc = .returned ∧ s.mbot.line.Idle)

/-- The stage of the `MBot` where `main` is. -/
def At (es : List Event) (s : State) : Prop :=
  match s.pc with
  | .constructing =>
    (s.mbot.stage = .opening ∨ s.mbot.stage = .configuring ∨ s.mbot.stage = .alive) ∧
      spinEvents es = []
  | .spinning => s.mbot.stage = .alive ∧ 0 ≤ s.mbot.fd
  | .leaving status =>
    (s.mbot.stage = .alive ∨ s.mbot.stage = .joining ∨ s.mbot.stage = .closing ∨
      s.mbot.stage = .destroyed) ∧ Leaves es s status
  | .exited status => s.mbot.stage = .destroyed ∧ Leaves es s status

/-- What holds between the parts of the program. -/
structure Consistent (flag : Bool) (es : List Event) (s : State) : Prop where
  life : ∃ ls, (MBot.Life.life flag).run ls = some s.mbot ∧
    MBot.Life.closesEarly ls = closesEarly es
  spin : MBotDriver.spin.run (spinEvents es) = some s.driver
  cmds : s.mbot.line.cmds = s.driver.drives
  inOrder : MBot.InOrder s.mbot.line
  here : At es s

variable {flag : Bool} {es : List Event}

theorem Consistent.threads (h : Consistent flag es s) : MBot.Threads s.mbot.line := by
  obtain ⟨ls, hls, -⟩ := h.life
  exact (MBot.run_invariants (MBot.Life.run_line hls)).2

theorem spinEvents_concat (es : List Event) (e : Event) :
    spinEvents (es ++ [e]) = spinEvents es ++ e.spin?.toList := by
  rw [spinEvents, List.filterMap_append]
  cases e <;> rfl

theorem closesEarly_concat (es : List Event) (e : Event) :
    closesEarly (es ++ [e]) = (closesEarly es || MBot.Life.closesEarly e.mbot?.toList) := by
  rw [closesEarly, List.filterMap_append, MBot.Life.closesEarly, List.any_append]
  cases e <;> rfl

/-- The life of the `MBot` goes on. -/
theorem Consistent.life_concat (h : Consistent flag es s) {e : MBot.Life.Event}
    {m : MBot.Life.State} (hm : MBot.Life.step s.mbot e = some m) :
    ∃ ls, (MBot.Life.life flag).run ls = some m ∧
      MBot.Life.closesEarly ls = (closesEarly es || MBot.Life.closesEarly [e]) := by
  obtain ⟨ls, hls, hearly⟩ := h.life
  refine ⟨ls ++ [e], (MBot.Life.life flag).run_concat.mpr ⟨_, hls, hm⟩, ?_⟩
  rw [← hearly, MBot.Life.closesEarly, List.any_append]
  rfl

/-- Nothing happens to the commands and their order. -/
theorem Consistent.mbot_of_calls (h : Consistent flag es s) {e : MBot.Life.Event}
    {m : MBot.Life.State} (hm : MBot.Life.step s.mbot e = some m)
    (hcalls : m.line.calls = s.mbot.line.calls) (hentered : m.line.entered = s.mbot.line.entered)
    (hhere : At (es ++ [.mbot e]) { s with mbot := m }) :
    Consistent flag (es ++ [.mbot e]) { s with mbot := m } where
  life := by
    rw [closesEarly_concat]
    exact h.life_concat hm
  spin := by
    rw [spinEvents_concat]
    simp only [Event.spin?, Option.toList_none, List.append_nil]
    exact h.spin
  cmds := by
    rw [← h.cmds, MBot.State.cmds, MBot.State.cmds, hcalls]
  inOrder := h.inOrder.congr hcalls hentered
  here := hhere

theorem spinEvents_mbot (es : List Event) (e : MBot.Life.Event) :
    spinEvents (es ++ [.mbot e]) = spinEvents es := by
  rw [spinEvents_concat]
  exact List.append_nil _

/-- A thread goes on. -/
theorem Consistent.line (h : Consistent flag es s) {e : MBot.Event} {m : MBot.Life.State}
    (hdrive : ∀ cmd msg, e ≠ .drive cmd msg) (hm : MBot.Life.step s.mbot (.line e) = some m) :
    Consistent flag (es ++ [.mbot (.line e)]) { s with mbot := m } := by
  have hlife := h.life_concat hm
  obtain ⟨-, -, l, hl, rfl⟩ := MBot.Life.step_line hm
  refine ⟨by rw [closesEarly_concat]; exact hlife, by rw [spinEvents_mbot]; exact h.spin,
    (MBot.step_cmds hdrive hl).trans h.cmds,
    MBot.step_inOrder h.threads h.inOrder (fun cmd msg he => (hdrive cmd msg he).elim) hl, ?_⟩
  have hleaves {status : Nat} (hl' : Leaves es s status) :
      Leaves es { s with mbot := { s.mbot with line := l, log := s.mbot.log ++ s.mbot.syscalls e } }
        status := by
    rcases hl' with h1 | ⟨h0, hfd, hpc, hidle⟩
    · exact .inl h1
    · exact .inr ⟨h0, hfd, hpc, MBot.step_idle hidle hdrive hl⟩
  have hhere := h.here
  unfold At Leaves at hhere ⊢
  rw [spinEvents_mbot]
  cases hpc : s.pc with
  | constructing | spinning =>
    rw [hpc] at hhere
    exact hhere
  | leaving status | exited status =>
    rw [hpc] at hhere
    exact hhere.imp_right hleaves

/-- A step of the constructor or the destructor. -/
theorem Consistent.mbot (h : Consistent flag es s) {e : MBot.Life.Event} {m : MBot.Life.State}
    (hpermits : s.Permits e) (hm : MBot.Life.step s.mbot e = some m) :
    Consistent flag (es ++ [.mbot e]) { s with mbot := m } := by
  have hhere := h.here
  unfold At at hhere
  cases e with
  | opened fd =>
    have hpc : s.pc = .constructing := hpermits
    rw [hpc] at hhere
    obtain ⟨-, -, hm'⟩ := MBot.Life.step_opened hm
    refine h.mbot_of_calls hm (by subst hm'; rfl) (by subst hm'; rfl) ?_
    unfold At
    rw [spinEvents_mbot, hm']
    simp only [hpc]
    refine ⟨?_, hhere.2⟩
    split
    · exact .inr (.inr rfl)
    · exact .inr (.inl rfl)
  | configured ok =>
    have hpc : s.pc = .constructing := hpermits
    rw [hpc] at hhere
    obtain ⟨-, hm'⟩ := MBot.Life.step_configured hm
    refine h.mbot_of_calls hm (by rw [hm']; split <;> rfl) (by rw [hm']; split <;> rfl) ?_
    unfold At
    rw [spinEvents_mbot, hm']
    simp only [hpc]
    refine ⟨.inr (.inr ?_), hhere.2⟩
    split <;> rfl
  | line e =>
    refine h.line ?_ hm
    rintro cmd msg rfl
    exact hpermits
  | destroy =>
    obtain ⟨hstage, -, hm'⟩ := MBot.Life.step_destroy hm
    refine h.mbot_of_calls hm (by subst hm'; rfl) (by subst hm'; rfl) ?_
    unfold At Leaves
    rw [spinEvents_mbot, hm']
    cases hpc : s.pc with
    | leaving status =>
      rw [hpc] at hhere
      exact ⟨.inr (.inl rfl), hhere.2⟩
    | constructing | spinning | exited _ =>
      simp only [State.Permits, hpc] at hpermits
      cases hpermits
  | joined =>
    obtain ⟨hstage, -, hm'⟩ := MBot.Life.step_joined hm
    refine h.mbot_of_calls hm (by subst hm'; rfl) (by subst hm'; rfl) ?_
    unfold At Leaves
    rw [spinEvents_mbot, hm']
    cases hpc : s.pc with
    | leaving status =>
      rw [hpc] at hhere
      exact ⟨.inr (.inr (.inl rfl)), hhere.2⟩
    | constructing | spinning | exited _ =>
      rw [hpc] at hhere
      simp only [hstage, reduceCtorEq, or_self, false_and] at hhere
  | closed =>
    obtain ⟨hstage, hm'⟩ := MBot.Life.step_closed hm
    refine h.mbot_of_calls hm (by subst hm'; rfl) (by subst hm'; rfl) ?_
    unfold At Leaves
    rw [spinEvents_mbot, hm']
    cases hpc : s.pc with
    | leaving status =>
      rw [hpc] at hhere
      exact ⟨.inr (.inr (.inr rfl)), hhere.2⟩
    | constructing | spinning | exited _ =>
      rw [hpc] at hhere
      simp only [hstage, reduceCtorEq, or_self, false_and] at hhere

/-- A step of `spin`, with the `drive` that it calls. -/
theorem Consistent.spun (h : Consistent flag es s) {e : MBotDriver.Event} {msg : Memory}
    {d : MBotDriver.State} {m : MBot.Life.State} (hpc : s.pc = .spinning)
    (hidle : s.mbot.line.Idle) (hd : MBotDriver.step s.driver e = some d)
    (hm : s.mbotAfter d msg = some m) :
    Consistent flag (es ++ [.spin e msg]) { s with mbot := m, driver := d } := by
  have hhere := h.here
  unfold At at hhere
  rw [hpc] at hhere
  have hspin : MBotDriver.spin.run (spinEvents (es ++ [.spin e msg])) = some d := by
    rw [spinEvents_concat]
    exact MBotDriver.spin.run_concat.mpr ⟨_, h.spin, hd⟩
  obtain ⟨frames, rest, hfollows⟩ := MBotDriver.run_follows h.spin
  rcases hfollows.at_rest with hret | hat
  · cases (MBotDriver.step_returned hret e).symm.trans hd
  · rcases mbotAfter_cases (MBotDriver.step_drives hat hd) hm with
      ⟨hdrives, rfl⟩ | ⟨cmd, hdrives, hdrive⟩
    · refine ⟨?_, hspin, h.cmds.trans hdrives.symm, h.inOrder, ?_⟩
      · have hnone : MBot.Life.closesEarly (Event.spin e msg).mbot?.toList = false := rfl
        rw [closesEarly_concat, hnone, Bool.or_false]
        exact h.life
      · unfold At
        simp only [hpc]
        exact hhere
    · have hlife := h.life_concat hdrive
      obtain ⟨-, -, l, hl, rfl⟩ := MBot.Life.step_line hdrive
      obtain rfl := Option.some.inj hl
      refine ⟨?_, hspin, ?_, MBot.inOrder_drive h.inOrder hidle cmd msg, ?_⟩
      · rw [closesEarly_concat]
        exact hlife
      · rw [hdrives, ← h.cmds]
        simp only [MBot.State.cmds, MBot.State.driven, List.map_append, List.map_cons, List.map_nil]
      · unfold At
        simp only [hpc]
        exact hhere

/-- `main` goes on by itself. -/
theorem Consistent.moved (h : Consistent flag es s) {e : Event} (hmbot : e.mbot? = none)
    (hspin : e.spin? = none) {pc : Pc} (hhere : At (es ++ [e]) { s with pc := pc }) :
    Consistent flag (es ++ [e]) { s with pc := pc } where
  life := by
    have hnone : MBot.Life.closesEarly e.mbot?.toList = false := by rw [hmbot]; rfl
    rw [closesEarly_concat, hnone, Bool.or_false]
    exact h.life
  spin := by
    rw [spinEvents_concat, hspin, Option.toList_none, List.append_nil]
    exact h.spin
  cmds := h.cmds
  inOrder := h.inOrder
  here := hhere

theorem run_consistent (hrun : (main flag).run es = some s) : Consistent flag es s := by
  refine (main flag).run_invariant (I := Consistent flag) ?_ ?_ hrun
  · exact ⟨⟨[], rfl, rfl⟩, rfl, rfl,
      ⟨fun j hj => (Nat.not_lt_zero _ hj).elim, 0, rfl⟩, .inl rfl, rfl⟩
  · intro es s e s' _ h hstep
    cases e with
    | mbot e =>
      obtain ⟨hpermits, m, hm, rfl⟩ := step_mbot hstep
      exact h.mbot hpermits hm
    | ok =>
      obtain ⟨hpc, hstage, rfl⟩ := step_ok hstep
      have hhere := h.here
      unfold At at hhere
      rw [hpc] at hhere
      refine h.moved rfl rfl ?_
      unfold At Leaves
      rw [spinEvents_concat]
      cases hok : s.mbot.ok with
      | true => exact ⟨hstage, of_decide_eq_true hok⟩
      | false =>
        refine ⟨.inl hstage, .inl ⟨rfl, Int.not_le.mp (of_decide_eq_false hok), ?_⟩⟩
        exact (List.append_nil _).trans hhere.2
    | spin e msg =>
      obtain ⟨hpc, hidle, d, m, hd, hm, rfl⟩ := step_spin hstep
      exact h.spun hpc hidle hd hm
    | returned =>
      obtain ⟨hpc, hreturned, hidle, rfl⟩ := step_returned hstep
      have hhere := h.here
      unfold At at hhere
      rw [hpc] at hhere
      exact h.moved rfl rfl ⟨.inl hhere.1, .inr ⟨rfl, hhere.2, hreturned, hidle⟩⟩
    | exit =>
      obtain ⟨status, hpc, hstage, rfl⟩ := step_exit hstep
      have hhere := h.here
      unfold At at hhere
      rw [hpc] at hhere
      refine h.moved rfl rfl ⟨hstage, ?_⟩
      unfold Leaves
      rw [spinEvents_concat]
      simp only [Event.spin?, Option.toList_none, List.append_nil]
      exact hhere.2

-- ---------------------------------------------------------------------------
-- What has happened when the program exits
-- ---------------------------------------------------------------------------

/-- The commands that `spin` drives for the bytes that it was delivered. -/
theorem Consistent.commands (h : Consistent flag es s) (hreturned : s.driver.pc = .returned) :
    ∃ frames rest, sizePrefixed.Splits (delivered (spinEvents es)) frames rest ∧
      s.mbot.line.cmds = frames.filterMap command ++ [stop] := by
  obtain ⟨frames, rest, hsplits, -, hdrives⟩ := MBotDriver.run_follows h.spin
  rw [if_pos hreturned] at hdrives
  exact ⟨frames, rest, hsplits, h.cmds.trans hdrives⟩

/-- Once the object is destroyed nobody has the mutex, and its calls are on record. -/
theorem Consistent.destroyed (h : Consistent flag es s) (hstage : s.mbot.stage = .destroyed) :
    s.mbot.line.mtx = none ∧ -1 ≤ s.mbot.fd ∧ (closesEarly es = true → 0 ≤ s.mbot.fd) ∧
      s.mbot.log = .opened s.mbot.fd :: ((if closesEarly es then [.close s.mbot.fd] else []) ++
        MBot.Life.writeCalls s.mbot.fd s.mbot.line ++
        (if 0 < s.mbot.fd then [.close s.mbot.fd] else [])) := by
  obtain ⟨ls, hls, hearly⟩ := h.life
  have hlog := (MBot.Life.run_recorded hls).log
  rw [hstage, hearly] at hlog
  refine ⟨(MBot.Life.run_released hls).free (.inr hstage), (MBot.Life.run_recorded hls).fd,
    fun htrue => ?_, hlog⟩
  exact (MBot.Life.run_kept hls).valid (MBot.Life.closesEarly_iff.mp (hearly.trans htrue))

/-- What the program has done when it exits. With status 1 the device could not be
opened, and nothing was read or driven. With status 0 it has driven the commands of
its input and then the stop command: each with one write, in order and to the
descriptor of the device, which is closed after the last of them if it is not 0.
If the constructor had closed it before, that is so all the same. -/
theorem main_exits {stopTimesyncFlag : Bool} (hrun : (main stopTimesyncFlag).run es = some s)
    {status : Nat} (hexit : s.pc = .exited status) :
    (status = 1 ∧ s.mbot.log = [.opened (-1)] ∧ spinEvents es = [] ∧ s.mbot.line.cmds = []) ∨
    (status = 0 ∧ 0 ≤ s.mbot.fd ∧ ∃ frames rest,
      sizePrefixed.Splits (delivered (spinEvents es)) frames rest ∧
      s.mbot.line.cmds = frames.filterMap command ++ [stop] ∧
      s.mbot.line.past.filterMap (·.writer.call?) = List.range s.mbot.line.cmds.length ∧
      (∀ t ∈ s.mbot.line.past, s.mbot.line.Carries t.packet t.writer) ∧
      s.mbot.log = .opened s.mbot.fd :: ((if closesEarly es then [.close s.mbot.fd] else []) ++
        s.mbot.line.past.map (fun t => .write s.mbot.fd t.packet.length) ++
        (if 0 < s.mbot.fd then [.close s.mbot.fd] else []))) := by
  have h := run_consistent hrun
  have hhere := h.here
  unfold At at hhere
  rw [hexit] at hhere
  obtain ⟨hstage, hleaves⟩ := hhere
  obtain ⟨hmtx, hfd, hvalid, hlog⟩ := h.destroyed hstage
  have hwritten : MBot.Life.written s.mbot.line = s.mbot.line.past := by
    simp only [MBot.Life.written, hmtx, List.append_nil]
  rcases hleaves with ⟨rfl, hneg, hevents⟩ | ⟨rfl, hnonneg, hreturned, hidle⟩
  · left
    have hspin := h.spin
    rw [hevents] at hspin
    have hnone : s.driver.drives = [] := by
      rw [← Option.some.inj hspin]
      rfl
    have hminus : s.mbot.fd = -1 := by omega
    have hearly : closesEarly es ≠ true := fun htrue => Int.not_lt.mpr (hvalid htrue) hneg
    rw [MBot.Life.writeCalls, if_neg hearly, if_pos hneg, if_neg (by omega), hminus] at hlog
    exact ⟨rfl, hlog, hevents, h.cmds.trans hnone⟩
  · right
    obtain ⟨frames, rest, hsplits, hcmds⟩ := h.commands hreturned
    have hturns : s.mbot.line.turns = s.mbot.line.past := by
      simp only [MBot.State.turns, hmtx, Option.map_none, Option.toList_none, List.append_nil]
    have hentered := MBot.entered_of_idle h.threads h.inOrder hidle
    rw [MBot.State.entered, hturns] at hentered
    refine ⟨rfl, hnonneg, frames, rest, hsplits, hcmds, hentered, ?_, ?_⟩
    · rw [← hturns]
      exact h.threads.carries
    · rw [hlog, MBot.Life.writeCalls, if_neg (Int.not_lt.mpr hnonneg), hwritten]

/-- The device is opened, the notification comes, and the stop command is written. -/
def oneStop : List Event :=
  [.mbot (.opened 3), .mbot (.configured true), .ok, .spin (.poll true) fun _ => 0,
    .mbot (.line (.lock (.drive 0))), .mbot (.line (.write (.wrote 28))), .mbot (.line .unlock),
    .returned, .mbot .destroy, .mbot (.line (.timesync ⟨0, 0⟩ fun _ => 0)), .mbot .joined,
    .mbot .closed, .exit]

theorem main_exits_oneStop :
    ∃ s, (main false).run oneStop = some s ∧ s.mbot.fd = 3 ∧
      s.mbot.log = .opened 3 ::
        (s.mbot.line.past.map (fun t => .write 3 t.packet.length) ++ [.close 3]) := by
  have hend : ((main false).run oneStop).map (fun s => (s.pc, s.mbot.fd)) =
      some (.exited 0, 3) := by
    decide +kernel
  obtain ⟨s, hrun, heq⟩ := Option.map_eq_some_iff.mp hend
  obtain ⟨hexit, hfd⟩ := Prod.mk.inj heq
  rcases main_exits hrun hexit with ⟨h, -⟩ | ⟨-, -, frames, rest, -, -, -, -, hlog⟩
  · cases h
  · rw [hfd] at hlog
    exact ⟨s, hrun, hfd, hlog⟩

-- ---------------------------------------------------------------------------
-- The way out
-- ---------------------------------------------------------------------------

/-- The steps of `spin` to its return, with those of the `drive` that it calls. -/
def spinRank : MBotDriver.Pc → Nat
  | .returned => 0
  | .top | .read _ | .again _ => 6
  | .wait _ => 7

/-- The steps of the destructor and of the exit. -/
def leavingRank (m : MBot.Life.State) : Nat :=
  match m.stage with
  | .opening | .configuring | .alive => 8
  | .joining => MBot.Life.remaining m.line + 3
  | .closing => 2
  | .destroyed => 1

/-- A way to the exit has no more steps than this. -/
def rank (s : State) : Nat :=
  match s.pc with
  | .constructing =>
    match s.mbot.stage with
    | .opening => 23
    | .configuring => 22
    | .alive | .joining | .closing | .destroyed => 21
  | .spinning => MBot.lineRank s.mbot.line + spinRank s.driver.pc + 9
  | .leaving _ => leavingRank s.mbot
  | .exited _ => 0

theorem rank_le (s : State) : rank s ≤ 23 := by
  have hline := MBot.lineRank_le s.mbot.line
  have hremaining := MBot.Life.remaining_le s.mbot.line
  have hspin : spinRank s.driver.pc ≤ 7 := by
    unfold spinRank
    split <;> decide
  unfold rank leavingRank
  split <;> try split
  all_goals omega

/-- Nobody is in `drive` when `main` is left. -/
theorem Consistent.idle (h : Consistent flag es s) {status : Nat} (hleaves : Leaves es s status) :
    s.mbot.line.Idle := by
  rcases hleaves with ⟨-, -, hevents⟩ | ⟨-, -, -, hidle⟩
  · have hspin := h.spin
    rw [hevents] at hspin
    have hnone : s.mbot.line.calls.map MBot.Call.cmd = [] := by
      refine h.cmds.trans ?_
      rw [← Option.some.inj hspin]
      rfl
    intro call hcall
    rw [List.map_eq_nil_iff.mp hnone] at hcall
    cases hcall
  · exact hidle

/-- A thread can make the step while the object is alive. -/
theorem life_step_line {m : MBot.Life.State} {e : MBot.Event} {l : MBot.State}
    (hstage : m.stage = .alive) (hfree : e.Unhindered) (hl : MBot.step m.line e = some l) :
    MBot.Life.step m (.line e) = some { m with line := l, log := m.log ++ m.syscalls e } := by
  have hpermits : m.Permits e := by
    cases e with
    | lock _ | unlock => trivial
    | write r => exact .inr hfree
    | drive _ _ | timesync _ _ | stop => exact hfree.elim
  simp only [MBot.Life.step, hstage, true_or, true_and, if_pos hpermits, hl, Option.map_some]

/-- `spin` can always return, by the notification or the end of its input. -/
theorem spin_exists_step {d : MBotDriver.State} (hne : d.pc ≠ .returned) :
    ∃ e d', MBotDriver.step d e = some d' ∧
      (d' = d.sendStop ∨ (d'.drives = d.drives ∧ spinRank d'.pc < spinRank d.pc)) := by
  obtain ⟨pc, drives⟩ := d
  cases pc with
  | top => exact ⟨.poll true, _, rfl, .inl rfl⟩
  | read rd =>
    have hpossible : (ReadResult.eof).Possible rd.request := trivial
    refine ⟨.read .eof, _, ?_, .inl rfl⟩
    simp only [MBotDriver.step, if_pos hpossible]
  | again rd => exact ⟨.poll true, _, rfl, .inl rfl⟩
  | wait rd => exact ⟨.wait false, _, rfl, .inr ⟨rfl, Nat.lt_succ_self 6⟩⟩
  | returned => exact (hne rfl).elim

theorem step_mbot_eq {e : MBot.Life.Event} {m : MBot.Life.State} (hpermits : s.Permits e)
    (hm : MBot.Life.step s.mbot e = some m) : step s (.mbot e) = some { s with mbot := m } := by
  simp only [step, if_pos hpermits, hm, Option.map_some]

theorem six_le_spinRank {pc : MBotDriver.Pc} (hne : pc ≠ .returned) : 6 ≤ spinRank pc := by
  cases pc with
  | returned => exact (hne rfl).elim
  | top | read _ | again _ => exact Nat.le_refl 6
  | wait _ => exact Nat.le_succ 6

/-- `spin` goes on, and may call `drive` for the stop command. -/
theorem exists_step_spin (hpc : s.pc = .spinning) (hstage : s.mbot.stage = .alive)
    (hidle : s.mbot.line.Idle) (hne : s.driver.pc ≠ .returned) :
    ∃ e s', step s e = some s' ∧ rank s' < rank s := by
  obtain ⟨e, d, hd, hd'⟩ := spin_exists_step hne
  have hspin {m : MBot.Life.State} (hm : s.mbotAfter d (fun _ => 0) = some m) :
      step s (.spin e fun _ => 0) = some { s with mbot := m, driver := d } := by
    simp only [step, if_pos (And.intro hpc hidle), hd, Option.bind_some, hm, Option.map_some]
  rcases hd' with rfl | ⟨hdrives, hlt⟩
  · have hafter : s.mbotAfter s.driver.sendStop (fun _ => 0) =
        MBot.Life.step s.mbot (.line (.drive stop fun _ => 0)) := by
      simp only [State.mbotAfter, MBotDriver.State.sendStop, List.drop_left]
    have hdrive : MBot.Life.step s.mbot (.line (.drive stop fun _ => 0)) = some { s.mbot with
        line := s.mbot.line.driven stop fun _ => 0, log := s.mbot.log ++ [] } := by
      simp only [MBot.Life.step, hstage, MBot.Life.State.Permits, true_or, true_and,
        if_true, MBot.step, Option.map_some, MBot.Life.State.syscalls]
    refine ⟨_, _, hspin (hafter.trans hdrive), ?_⟩
    have hline := MBot.lineRank_le (s.mbot.line.driven stop fun _ => 0)
    have hrank := six_le_spinRank hne
    simp only [rank, hpc, MBotDriver.State.sendStop, spinRank] at hrank ⊢
    omega
  · have hafter : s.mbotAfter d (fun _ => 0) = some s.mbot := by
      simp only [State.mbotAfter, hdrives, List.drop_length]
    refine ⟨_, _, hspin hafter, ?_⟩
    simp only [rank, hpc]
    omega

theorem Consistent.exists_step_spinning (h : Consistent flag es s) (hpc : s.pc = .spinning) :
    ∃ e s', step s e = some s' ∧ rank s' < rank s := by
  have hhere := h.here
  unfold At at hhere
  rw [hpc] at hhere
  obtain ⟨hstage, -⟩ := hhere
  by_cases hidle : s.mbot.line.Idle
  · by_cases hreturned : s.driver.pc = .returned
    · have hstep : step s .returned = some { s with pc := .leaving 0 } := by
        simp only [step, if_pos (And.intro hpc (And.intro hreturned hidle))]
      refine ⟨.returned, _, hstep, ?_⟩
      simp only [rank, hpc, leavingRank, hstage]
      omega
    · exact exists_step_spin hpc hstage hidle hreturned
  · obtain ⟨e, l, hfree, hl, hlt⟩ := MBot.exists_step_of_not_idle h.threads h.inOrder hidle
    have hpermits : s.Permits (.line e) := by
      cases e with
      | lock _ | write _ | unlock => trivial
      | drive _ _ | timesync _ _ | stop => exact hfree.elim
    refine ⟨_, _, step_mbot_eq hpermits (life_step_line hstage hfree hl), ?_⟩
    simp only [rank, hpc]
    omega

/-- The destructor goes on, or the loop that it waits for. -/
theorem Consistent.exists_step_leaving (h : Consistent flag es s) {status : Nat}
    (hpc : s.pc = .leaving status) : ∃ e s', step s e = some s' ∧ rank s' < rank s := by
  have hhere := h.here
  unfold At at hhere
  rw [hpc] at hhere
  obtain ⟨hstages, hleaves⟩ := hhere
  obtain ⟨ls, hls, -⟩ := h.life
  rcases hstages with hstage | hstage | hstage | hstage
  · have hidle : ∀ call ∈ s.mbot.line.calls, call.phase = .returned := h.idle hleaves
    have hpermits : s.Permits .destroy := by
      rw [State.Permits, hpc]
      rfl
    have hdestroy : MBot.Life.step s.mbot .destroy = some { s.mbot with
        stage := .joining, line := { s.mbot.line with stopTimesyncFlag := true } } := by
      simp only [MBot.Life.step, if_pos (And.intro hstage hidle)]
    refine ⟨_, _, step_mbot_eq hpermits hdestroy, ?_⟩
    simp only [rank, hpc, leavingRank, hstage]
    exact Nat.lt_succ_of_le (Nat.add_le_add_right (MBot.Life.remaining_le _) 3)
  · have hjoining := MBot.Life.run_joining hls hstage
    by_cases hjoin : s.mbot.joinable = true → s.mbot.line.timesync = .exited
    · have hjoined : MBot.Life.step s.mbot .joined =
          some { s.mbot with stage := .closing, joinable := false } := by
        simp only [MBot.Life.step, if_pos (And.intro hstage hjoin)]
      refine ⟨_, _, step_mbot_eq (e := .joined) trivial hjoined, ?_⟩
      simp only [rank, hpc, leavingRank, hstage]
      omega
    · obtain ⟨hjoinable, hloop⟩ := Classical.not_imp.mp hjoin
      obtain ⟨e, hpermits, hsome⟩ := hjoining.stopping.exists_step hloop
      have hpermits := hpermits s.mbot hjoinable
      obtain ⟨l, hl⟩ := Option.isSome_iff_exists.mp hsome
      have hline : MBot.Life.step s.mbot (.line e) =
          some { s.mbot with line := l, log := s.mbot.log ++ s.mbot.syscalls e } := by
        simp only [MBot.Life.step, if_pos (And.intro (Or.inr hstage) hpermits), hl,
          Option.map_some]
      have hpermits' : s.Permits (.line e) := by
        cases e with
        | drive cmd msg => cases hstage.symm.trans hpermits
        | timesync _ _ | lock _ | write _ | unlock | stop => trivial
      refine ⟨_, _, step_mbot_eq hpermits' hline, ?_⟩
      obtain ⟨-, -, hlt, -⟩ := hjoining.step_line hline
      simp only [rank, hpc, leavingRank, hstage] at hlt ⊢
      omega
  · have hclosed : MBot.Life.step s.mbot .closed = some { s.mbot with
        stage := .destroyed
        log := s.mbot.log ++ if 0 < s.mbot.fd then [.close s.mbot.fd] else [] } := by
      simp only [MBot.Life.step, if_pos hstage]
    refine ⟨_, _, step_mbot_eq (e := .closed) trivial hclosed, ?_⟩
    simp only [rank, hpc, leavingRank, hstage]
    omega
  · have hexit : step s .exit = some { s with pc := .exited status } := by
      simp only [step, hpc, if_pos hstage]
    refine ⟨.exit, _, hexit, ?_⟩
    simp only [rank, hpc, leavingRank, hstage]
    omega

theorem Consistent.exists_step_constructing (h : Consistent flag es s)
    (hpc : s.pc = .constructing) : ∃ e s', step s e = some s' ∧ rank s' < rank s := by
  have hhere := h.here
  unfold At at hhere
  rw [hpc] at hhere
  obtain ⟨hstages, hevents⟩ := hhere
  rcases hstages with hstage | hstage | hstage
  · have hopened : MBot.Life.step s.mbot (.opened (-1)) = some { s.mbot with
        stage := .alive, fd := -1, log := s.mbot.log ++ [.opened (-1)] } := by
      simp only [MBot.Life.step, if_pos (And.intro hstage (Int.le_refl (-1)))]
      rfl
    refine ⟨_, _, step_mbot_eq (e := .opened (-1)) hpc hopened, ?_⟩
    simp only [rank, hpc, hstage]
    omega
  · have hconfigured : MBot.Life.step s.mbot (.configured true) =
        some { s.mbot with stage := .alive, joinable := true } := by
      simp only [MBot.Life.step, if_pos hstage, if_true]
    refine ⟨_, _, step_mbot_eq (e := .configured true) hpc hconfigured, ?_⟩
    simp only [rank, hpc, hstage]
    omega
  · have hok : step s .ok =
        some { s with pc := if s.mbot.ok then .spinning else .leaving 1 } := by
      simp only [step, if_pos (And.intro hpc hstage)]
    refine ⟨.ok, _, hok, ?_⟩
    have hline := MBot.lineRank_le s.mbot.line
    have hspin := h.spin
    rw [hevents] at hspin
    have htop : spinRank s.driver.pc = 6 := by
      rw [← Option.some.inj hspin]
      rfl
    cases s.mbot.ok with
    | true =>
      simp only [rank, hpc, hstage, if_true]
      omega
    | false =>
      simp only [rank, hpc, hstage, leavingRank]
      change 8 < 21
      decide

/-- From every state that the program can be in, the exit is at most 23 steps away:
it is never stuck, whatever its threads and the device have done so far. -/
theorem main_can_exit {stopTimesyncFlag : Bool}
    (hrun : (main stopTimesyncFlag).run es = some s) :
    ∃ es' s' status, es'.length ≤ 23 ∧ (main stopTimesyncFlag).runFrom s es' = some s' ∧
      s'.pc = .exited status := by
  have hprogress {s : State} (hI : ∃ es, (main stopTimesyncFlag).run es = some s)
      (hgoal : ¬ ∃ status, s.pc = .exited status) : ∃ e s', step s e = some s' ∧
        (∃ es, (main stopTimesyncFlag).run es = some s') ∧ rank s' < rank s := by
    obtain ⟨es, hrun⟩ := hI
    have h := run_consistent hrun
    obtain ⟨e, s', hstep, hlt⟩ : ∃ e s', step s e = some s' ∧ rank s' < rank s := by
      cases hpc : s.pc with
      | constructing => exact h.exists_step_constructing hpc
      | spinning => exact h.exists_step_spinning hpc
      | leaving status => exact h.exists_step_leaving hpc
      | exited status => exact (hgoal ⟨status, hpc⟩).elim
    exact ⟨e, s', hstep, ⟨es ++ [e], (main stopTimesyncFlag).run_concat.mpr ⟨s, hrun, hstep⟩⟩, hlt⟩
  obtain ⟨es', s', hle, hfrom, status, hexit⟩ :=
    (main stopTimesyncFlag).exists_runFrom_of_rank _ _ rank hprogress ⟨es, hrun⟩
  exact ⟨es', s', status, Nat.le_trans hle (rank_le s), hfrom, hexit⟩

/-- The loop has the mutex, and the stop command waits for it. -/
theorem main_can_exit_busy :
    ∃ s, (main false).run [.mbot (.opened 3), .mbot (.configured true), .ok,
        .mbot (.line (.timesync ⟨0, 0⟩ fun _ => 0)), .mbot (.line (.lock .timesync)),
        .spin (.poll true) fun _ => 0] = some s ∧
      ∃ es' s' status, es'.length ≤ 23 ∧ (main false).runFrom s es' = some s' ∧
        s'.pc = .exited status := by
  have hsome : ((main false).run [.mbot (.opened 3), .mbot (.configured true), .ok,
      .mbot (.line (.timesync ⟨0, 0⟩ fun _ => 0)), .mbot (.line (.lock .timesync)),
      .spin (.poll true) fun _ => 0]).isSome = true := by
    decide +kernel
  obtain ⟨s, hrun⟩ := Option.isSome_iff_exists.mp hsome
  exact ⟨s, hrun, main_can_exit hrun⟩

end MBotDriver.Main
