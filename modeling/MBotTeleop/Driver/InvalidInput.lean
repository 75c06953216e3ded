-- SUMMARY: MBotDriver::spin over a File that is not ok(): a read that makes no call leaves errno as it was, and spin believes it.
import MBotTeleop.Driver.Spin
import MBotTeleop.Ipc.Objects

/-!
# An invalid input

`spin` asks `errno` why a read has failed. `File::read` returns `-1` at once
where there is no descriptor, so what `spin` finds in `errno` is left over from an
earlier call: from the last one of the notification, or from before `spin`.
-/

namespace MBotDriver.OverFile

open Rix.Ipc
open Rix.Ipc.Objects (File)
open Rix.Msg.Geometry (Twist2DStamped)

/-- `EINTR` -/
def eintr : Int := 4

/-- `EAGAIN`, which is also `EWOULDBLOCK`. -/
def eagain : Int := 11

/-- What `spin` makes of a value of `errno`. -/
def errnoOf (errno : Int) : Errno :=
  if errno = eintr then .eintr else if errno = eagain then .eagain else .other

/-- A call `notif->wait(Duration(0.0))`, and what it stores in `errno`, if it stores
something. Where there is no notification, it is `{ ready := false }`. -/
structure NotifCall where
  ready : Bool
  errno : Option Int := none
  deriving DecidableEq, Repr

structure State where
  driver : MBotDriver.State := {}
  errno : Int
  /-- How often the notification was called. -/
  notifs : Nat := 0

/-- The next call of `spin` over `input`, where the notification behaves like
`notif`. A call on a descriptor that is there is not part of this. -/
def next (input : File) (notif : Nat → NotifCall) (s : State) : Option State :=
  match s.driver.pc with
  | .top | .again _ =>
    (step s.driver (.poll (notif s.notifs).ready)).map fun driver => {
      driver
      errno := (notif s.notifs).errno.getD s.errno
      notifs := s.notifs + 1 }
  | .read _ =>
    -- `return -1`
    if input.fd < 0 then
      (step s.driver (.read (.failed (errnoOf s.errno)))).map fun driver => { s with driver }
    else
      none
  | .wait _ =>
    -- `return false`
    if input.fd < 0 then (step s.driver (.wait false)).map fun driver => { s with driver }
    else none
  | .returned => none

/-- `spin`, called with this value in `errno`. -/
def overFile (input : File) (notif : Nat → NotifCall) (errno : Int) : Machine State Unit where
  init := { errno }
  step s _ := next input notif s

/-- After finitely many steps `spin` has returned, and its only call of `drive` was
for the zero twist. -/
def StopsOnce (input : File) (notif : Nat → NotifCall) (errno : Int) : Prop :=
  ∃ es s, (overFile input notif errno).run es = some s ∧ s.driver.pc = .returned ∧
    s.driver.drives = [stop]

/-- `errno` after `i` calls of the notification. -/
def errnoAfter (notif : Nat → NotifCall) (errno : Int) : Nat → Int
  | 0 => errno
  | i + 1 => (notif i).errno.getD (errnoAfter notif errno i)

variable {input : File} {notif : Nat → NotifCall} {errno : Int} {s s' : State}

/-- After this call `spin` waits for input, and calls the notification again. -/
def Waits (notif : Nat → NotifCall) (errno : Int) (i : Nat) : Prop :=
  (notif i).ready = false ∧ errnoOf (errnoAfter notif errno (i + 1)) = .eagain

/-- After this call `spin` stops. -/
def Stops (notif : Nat → NotifCall) (errno : Int) (i : Nat) : Prop :=
  (notif i).ready = true ∨ errnoOf (errnoAfter notif errno (i + 1)) = .other

/-- The calls of the notification that have led `spin` to where it is. -/
def Led (notif : Nat → NotifCall) (errno : Int) (notifs : Nat) (drives : List Twist2DStamped) :
    Pc → Prop
  | .top => drives = [] ∧ notifs = 0
  | .again _ => drives = [] ∧ ∀ j < notifs, Waits notif errno j
  | .read _ | .wait _ => drives = [] ∧
    ∃ i, notifs = i + 1 ∧ (notif i).ready = false ∧ ∀ j < i, Waits notif errno j
  | .returned => drives = [stop] ∧ ∃ i, Stops notif errno i ∧ ∀ j < i, Waits notif errno j

structure Invariant (notif : Nat → NotifCall) (errno : Int) (s : State) : Prop where
  left : s.errno = errnoAfter notif errno s.notifs
  led : Led notif errno s.notifs s.driver.drives s.driver.pc

/-- A call of the notification, of which all before it have made `spin` wait. -/
theorem Led.poll {i : Nat} {drives : List Twist2DStamped} (hdrives : drives = [])
    (hwaits : ∀ j < i, Waits notif errno j) {driver : MBotDriver.State}
    (hready : (notif i).ready = true → driver = { pc := .returned, drives := drives ++ [stop] })
    (hnot : (notif i).ready = false → driver.drives = drives ∧ ∃ rd, driver.pc = .read rd ∨ driver.pc = .wait rd) :
    Led notif errno (i + 1) driver.drives driver.pc := by
  subst hdrives
  cases h : (notif i).ready with
  | true =>
    rw [hready h]
    exact ⟨rfl, i, .inl h, hwaits⟩
  | false =>
    obtain ⟨hsame, rd, hpc | hpc⟩ := hnot h
    all_goals
      rw [hpc, hsame]
      exact ⟨rfl, i, rfl, h, hwaits⟩

theorem Invariant.next (h : Invariant notif errno s) (hnext : next input notif s = some s') :
    Invariant notif errno s' := by
  obtain ⟨⟨pc, drives⟩, e, notifs⟩ := s
  obtain ⟨left, led⟩ := h
  cases pc with
  | top =>
    obtain ⟨rfl, rfl⟩ := led
    cases hnext
    refine ⟨congrArg ((notif 0).errno.getD ·) left, Led.poll rfl (fun j hj => ?_) ?_ ?_⟩
    · exact absurd hj (Nat.not_lt_zero j)
    · intro hready
      simp only [hready, if_true]
      rfl
    · intro hready
      simp only [hready]
      exact ⟨rfl, _, .inl rfl⟩
  | again rd =>
    obtain ⟨rfl, hwaits⟩ := led
    cases hnext
    refine ⟨congrArg ((notif notifs).errno.getD ·) left, Led.poll rfl hwaits ?_ ?_⟩
    · intro hready
      simp only [hready, if_true]
      rfl
    · intro hready
      simp only [hready]
      exact ⟨rfl, _, .inr rfl⟩
  | wait rd =>
    simp only [OverFile.next] at hnext
    split at hnext
    · cases hnext
      exact ⟨left, led⟩
    · cases hnext
  | read rd =>
    obtain ⟨rfl, i, rfl, hready, hwaits⟩ := led
    obtain rfl : e = errnoAfter notif errno (i + 1) := left
    simp only [OverFile.next] at hnext
    split at hnext
    · cases herrno : errnoOf (errnoAfter notif errno (i + 1)) with
      | eintr =>
        rw [herrno] at hnext
        cases hnext
        exact ⟨rfl, rfl, i, rfl, hready, hwaits⟩
      | eagain =>
        rw [herrno] at hnext
        cases hnext
        refine ⟨rfl, rfl, fun j hj => ?_⟩
        rcases Nat.lt_succ_iff_lt_or_eq.mp hj with hj | rfl
        · exact hwaits j hj
        · exact ⟨hready, herrno⟩
      | other =>
        rw [herrno] at hnext
        cases hnext
        exact ⟨rfl, rfl, i, .inr herrno, hwaits⟩
    · cases hnext
  | returned => cases hnext

theorem run_invariant {es : List Unit} (h : (overFile input notif errno).run es = some s) :
    Invariant notif errno s := by
  apply (overFile input notif errno).run_invariant (I := fun _ s => Invariant notif errno s) ?_ ?_ h
  · exact ⟨rfl, rfl, rfl⟩
  · intro _ _ _ _ _ hs hnext
    exact hs.next hnext

-- ---------------------------------------------------------------------------
-- How far spin gets
-- ---------------------------------------------------------------------------

/-- A state that a run leads to. -/
def Reaches (input : File) (notif : Nat → NotifCall) (errno : Int) (s : State) : Prop :=
  ∃ es, (overFile input notif errno).run es = some s

theorem Reaches.next (h : Reaches input notif errno s) (hnext : next input notif s = some s') :
    Reaches input notif errno s' := by
  obtain ⟨es, hrun⟩ := h
  exact ⟨es ++ [()], (overFile input notif errno).run_concat.mpr ⟨s, hrun, hnext⟩⟩

/-- After a call of the notification that is not ready, `spin` reads. -/
theorem Reaches.read (h : Reaches input notif errno s) (hinvalid : input.fd < 0)
    (hpc : s.driver.pc = .top ∨ ∃ rd, s.driver.pc = .again rd)
    (hready : (notif s.notifs).ready = false) :
    ∃ s' rd, Reaches input notif errno s' ∧ s'.notifs = s.notifs + 1 ∧ s'.driver.pc = .read rd := by
  obtain ⟨⟨pc, drives⟩, e, notifs⟩ := s
  rcases hpc with rfl | ⟨rd, rfl⟩
  · have hread : Reaches input notif errno
        ⟨⟨.read ⟨.sizeBuf, [], by decide⟩, drives⟩, (notif notifs).errno.getD e, notifs + 1⟩ := by
      apply h.next
      simp only [OverFile.next, step, hready]
      rfl
    exact ⟨_, _, hread, rfl, rfl⟩
  · have hwait : Reaches input notif errno
        ⟨⟨.wait rd, drives⟩, (notif notifs).errno.getD e, notifs + 1⟩ := by
      apply h.next
      simp only [OverFile.next, step, hready]
      rfl
    exact ⟨_, rd, hwait.next (if_pos hinvalid), rfl, rfl⟩

/-- What is in `errno` decides what comes after a read. -/
theorem Reaches.after_read {rd : Reading} (h : Reaches input notif errno s) (hinvalid : input.fd < 0)
    (hpc : s.driver.pc = .read rd) {driver : MBotDriver.State}
    (hstep : step s.driver (.read (.failed (errnoOf (errnoAfter notif errno s.notifs)))) = some driver) :
    Reaches input notif errno { s with driver } := by
  have hleft : s.errno = errnoAfter notif errno s.notifs := by
    obtain ⟨es, hrun⟩ := h
    exact (run_invariant hrun).left
  apply h.next
  rw [← hleft] at hstep
  simp only [OverFile.next, hpc, if_pos hinvalid, hstep, Option.map_some]

/-- As long as the calls of the notification make `spin` wait, it makes another. -/
theorem reaches_poll (hinvalid : input.fd < 0) {i : Nat} (hwaits : ∀ j < i, Waits notif errno j) :
    ∃ s, Reaches input notif errno s ∧ s.notifs = i ∧
      (s.driver.pc = .top ∨ ∃ rd, s.driver.pc = .again rd) := by
  induction i with
  | zero => exact ⟨_, ⟨[], rfl⟩, rfl, .inl rfl⟩
  | succ i ih =>
    obtain ⟨s, hs, rfl, hpc⟩ := ih fun j hj => hwaits j (Nat.lt_succ_of_lt hj)
    obtain ⟨hready, heagain⟩ := hwaits s.notifs (Nat.lt_succ_self _)
    obtain ⟨s', rd, hs', hnotifs, hread⟩ := hs.read hinvalid hpc hready
    have hagain : Reaches input notif errno
        { s' with driver := { s'.driver with pc := .again rd } } := by
      apply hs'.after_read hinvalid hread
      simp only [hnotifs, heagain, step, hread]
      rfl
    exact ⟨_, hagain, hnotifs, .inr ⟨rd, rfl⟩⟩

/-- A call of the notification after which `spin` stops, once it has made that call. -/
theorem reaches_stop (hinvalid : input.fd < 0) {i : Nat} (hstops : Stops notif errno i)
    (hwaits : ∀ j < i, Waits notif errno j) :
    ∃ s, Reaches input notif errno s ∧ s.driver.pc = .returned := by
  obtain ⟨s, hs, rfl, hpc⟩ := reaches_poll hinvalid hwaits
  cases hready : (notif s.notifs).ready with
  | true =>
    obtain ⟨⟨pc, drives⟩, e, notifs⟩ := s
    rcases hpc with rfl | ⟨rd, rfl⟩
    all_goals
      refine ⟨_, hs.next rfl, ?_⟩
      simp only [hready]
      rfl
  | false =>
    obtain ⟨s', rd, hs', hnotifs, hread⟩ := hs.read hinvalid hpc hready
    have hother := hstops.resolve_left (by rw [hready]; exact Bool.false_ne_true)
    have hstop : Reaches input notif errno { s' with driver := s'.driver.sendStop } := by
      apply hs'.after_read hinvalid hread
      simp only [hnotifs, hother, step, hread]
      rfl
    exact ⟨_, hstop, rfl⟩

/-- `spin` over a `File` that is not `ok()` stops the robot iff the calls of the
notification leave `EAGAIN` in `errno`, none being ready, until one is ready or
leaves an error in it that is neither `EAGAIN` nor `EINTR`. -/
theorem stopsOnce_iff (hinvalid : (Objects.Object.file input).ok = false) :
    StopsOnce input notif errno ↔
      ∃ i, Stops notif errno i ∧ ∀ j < i, Waits notif errno j := by
  have hfd : input.fd < 0 := Int.not_le.mp (of_decide_eq_false hinvalid)
  constructor
  · rintro ⟨es, s, hrun, hpc, -⟩
    have hled := (run_invariant hrun).led
    rw [hpc] at hled
    exact hled.2
  · rintro ⟨i, hstops, hwaits⟩
    obtain ⟨s, ⟨es, hrun⟩, hpc⟩ := reaches_stop hfd hstops hwaits
    have hled := (run_invariant hrun).led
    rw [hpc] at hled
    exact ⟨es, s, hrun, hpc, hled.1⟩

/-- Signal after two milliseconds: EAGAIN is left over, and the third call is ready. -/
theorem stopsOnce_iff_eagain :
    StopsOnce {} (fun i => { ready := decide (2 ≤ i) }) eagain ↔
      ∃ i, Stops (fun i => { ready := decide (2 ≤ i) }) eagain i ∧
        ∀ j < i, Waits (fun i => { ready := decide (2 ≤ i) }) eagain j :=
  stopsOnce_iff rfl

/-- A notification that stores nothing in `errno` leaves it as it was. -/
theorem errnoAfter_silent (hsilent : ∀ i, (notif i).errno = none) (i : Nat) :
    errnoAfter notif errno i = errno := by
  induction i with
  | zero => rfl
  | succ i ih => rw [errnoAfter, hsilent, Option.getD_none, ih]

/-- `EINTR` is left over from an interrupted `::open`. `spin` reads forever, and
does not even ask the notification again. -/
theorem not_stopsOnce_eintr : ¬ StopsOnce {} (fun _ => { ready := false }) eintr := by
  rintro ⟨es, s, hrun, hpc, -⟩
  have hled := (run_invariant hrun).led
  rw [hpc] at hled
  obtain ⟨-, i, hready | hother, -⟩ := hled
  · cases hready
  · rw [errnoAfter_silent fun _ => rfl] at hother
    exact absurd hother (by decide)

end MBotDriver.OverFile
