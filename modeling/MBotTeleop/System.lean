-- SUMMARY: The keyboard, the driver and the serial line as one system with every interleaving: what the line carries is the commands of the keys.
import MBotTeleop.EndToEnd
import MBotTeleop.MBot.Commands

/-!
# The keyboard piped into the driver

The standard output of the keyboard is the standard input of the driver, whose
calls of `drive` share the serial line with the timesync loop. The two programs
and the loop run at their own pace: an event is a step of one of them.
-/

namespace MBotTeleop.System

open Rix.Ipc Rix.Msg
open Rix.Msg.Geometry (Twist2D Twist2DStamped)

structure State where
  keyboard : TeleopKeyboard.State := {}
  /-- The process of the keyboard has ended, and with it the only write end. -/
  exited : Bool := false
  /-- The bytes in the pipe. -/
  pipe : List UInt8 := []
  driver : MBotDriver.State := {}
  line : MBot.State

inductive Event where
  | keyboard (e : TeleopKeyboard.Event)
  /-- The process of the keyboard ends, by a return from `spin` or by a signal. -/
  | exit
  /-- `msg` is the array of a `drive` that is called in this step. -/
  | driver (e : MBotDriver.Event) (msg : Memory)
  /-- A step of `drive` after its packet is built, of the timesync loop or of
  the destructor. -/
  | line (e : MBot.Event)

/-- What the pipe lets the driver see. It does not block, and is at its end when
it is empty and the keyboard is gone. -/
def State.Permits (s : State) : MBotDriver.Event → Prop
  | .read (.bytes bs) => bs <+: s.pipe
  | .read .eof => s.pipe = [] ∧ s.exited = true
  | .read (.failed .eagain) => s.pipe = [] ∧ s.exited = false
  | .read (.failed _) | .poll _ | .wait _ => True

instance (s : State) : (e : MBotDriver.Event) → Decidable (s.Permits e)
  | .read (.bytes bs) => inferInstanceAs (Decidable (bs <+: s.pipe))
  | .read .eof => inferInstanceAs (Decidable (_ ∧ _))
  | .read (.failed .eagain) => inferInstanceAs (Decidable (_ ∧ _))
  | .read (.failed .eintr) | .read (.failed .other) | .poll _ | .wait _ => .isTrue trivial

/-- The line goes on by itself, but for the calls of `drive`, which are those of
the driver, and for the destructor, which runs after `spin` has returned. -/
def State.LinePermits (s : State) : MBot.Event → Prop
  | .drive _ _ => False
  | .stop => s.driver.pc = .returned ∧ s.line.Idle
  | .timesync _ _ | .lock _ | .write _ | .unlock => True

instance (s : State) : (e : MBot.Event) → Decidable (s.LinePermits e)
  | .drive _ _ => .isFalse id
  | .stop => inferInstanceAs (Decidable (_ ∧ _))
  | .timesync _ _ | .lock _ | .write _ | .unlock => .isTrue trivial

/-- The line after the driver has gone on to `d`: `drive` was called if `d` has a
command that the driver had not. -/
def State.lineAfter (s : State) (d : MBotDriver.State) (msg : Memory) : MBot.State :=
  match d.drives.drop s.driver.drives.length with
  | [] => s.line
  | cmd :: _ => s.line.driven cmd msg

def step (cfg : TeleopKeyboard.Config) (s : State) : Event → Option State
  | .keyboard e =>
    if s.exited then
      none
    else
      (TeleopKeyboard.step cfg s.keyboard e).map fun k =>
        { s with keyboard := k, pipe := s.pipe ++ k.output.drop s.keyboard.output.length }
  | .exit => if s.exited then none else some { s with exited := true }
  | .driver e msg =>
    -- `spin` goes on when `drive` has returned
    if s.line.Idle ∧ s.Permits e then
      (MBotDriver.step s.driver e).map fun d =>
        { s with driver := d, pipe := s.pipe.drop e.delivered.length, line := s.lineAfter d msg }
    else
      none
  | .line e =>
    if s.LinePermits e then
      (MBot.step s.line e).map fun l => { s with line := l }
    else
      none

def system (cfg : TeleopKeyboard.Config) (stopTimesyncFlag : Bool) : Machine State Event where
  init := { line := { stopTimesyncFlag } }
  step := step cfg

def Event.keyboard? : Event → Option TeleopKeyboard.Event
  | keyboard e => some e
  | exit | driver _ _ | line _ => none

def Event.driver? : Event → Option MBotDriver.Event
  | driver e _ => some e
  | keyboard _ | exit | line _ => none

variable {cfg : TeleopKeyboard.Config} {s s' : State}

-- ---------------------------------------------------------------------------
-- What a step can do
-- ---------------------------------------------------------------------------

theorem step_keyboard (cfg : TeleopKeyboard.Config) {e : TeleopKeyboard.Event} (h : step cfg s (.keyboard e) = some s') :
    s.exited = false ∧ ∃ k, TeleopKeyboard.step cfg s.keyboard e = some k ∧
      s' = { s with keyboard := k, pipe := s.pipe ++ k.output.drop s.keyboard.output.length } := by
  simp only [step] at h
  split at h
  · cases h
  · rename_i hexited
    obtain ⟨k, hk, rfl⟩ := Option.map_eq_some_iff.mp h
    exact ⟨Bool.eq_false_iff.mpr hexited, k, hk, rfl⟩

theorem step_driver (cfg : TeleopKeyboard.Config) {e : MBotDriver.Event} {msg : Memory}
    (h : step cfg s (.driver e msg) = some s') :
    s.line.Idle ∧ s.Permits e ∧ ∃ d, MBotDriver.step s.driver e = some d ∧
      s' = { s with
        driver := d, pipe := s.pipe.drop e.delivered.length, line := s.lineAfter d msg } := by
  simp only [step] at h
  split at h
  · rename_i hpermits
    obtain ⟨d, hd, rfl⟩ := Option.map_eq_some_iff.mp h
    exact ⟨hpermits.1, hpermits.2, d, hd, rfl⟩
  · cases h

theorem step_line (cfg : TeleopKeyboard.Config) {e : MBot.Event} (h : step cfg s (.line e) = some s') :
    s.LinePermits e ∧ ∃ l, MBot.step s.line e = some l ∧ s' = { s with line := l } := by
  simp only [step] at h
  split at h
  · rename_i hpermits
    obtain ⟨l, hl, rfl⟩ := Option.map_eq_some_iff.mp h
    exact ⟨hpermits, l, hl, rfl⟩
  · cases h

theorem step_exit (cfg : TeleopKeyboard.Config) (h : step cfg s .exit = some s') :
    s.exited = false ∧ s' = { s with exited := true } := by
  simp only [step] at h
  split at h
  · cases h
  · rename_i hexited
    exact ⟨Bool.eq_false_iff.mpr hexited, (Option.some.inj h).symm⟩

/-- The keyboard takes nothing back that it has written. -/
theorem keyboard_output {k k' : TeleopKeyboard.State} {e : TeleopKeyboard.Event}
    (h : TeleopKeyboard.step cfg k e = some k') : k.output <+: k'.output := by
  have hwrite {w : TeleopKeyboard.Writing} {r : WriteResult}
      {more : TeleopKeyboard.Writing → TeleopKeyboard.Pc}
      {done : TeleopKeyboard.State → TeleopKeyboard.State} (hdone : ∀ k, (done k).output = k.output) :
      k.output <+: (k.writeExact w r more done).output := by
    cases r with
    | wrote n =>
      simp only [TeleopKeyboard.State.writeExact]
      split
      · exact List.prefix_append ..
      · split
        · exact List.prefix_append ..
        · rw [hdone]
          exact List.prefix_append ..
    | failed errno => cases errno <;> exact List.prefix_rfl
  obtain ⟨pc, seq, output⟩ := k
  cases pc with
  | writeSize w payload =>
    cases e with
    | write r =>
      simp only [TeleopKeyboard.step] at h
      split at h
      · cases h
        exact hwrite fun k => (TeleopKeyboard.sizeWritten_owes k payload).2.1
      · cases h
    | wait _ | poll _ | read _ | now _ => cases h
  | writePayload w =>
    cases e with
    | write r =>
      simp only [TeleopKeyboard.step] at h
      split at h
      · cases h
        exact hwrite fun _ => rfl
      · cases h
    | wait _ | poll _ | read _ | now _ => cases h
  | read =>
    cases e with
    | read r =>
      simp only [TeleopKeyboard.step] at h
      split at h
      · split at h
        · split at h <;> cases h <;> exact List.prefix_rfl
        all_goals cases h; exact List.prefix_rfl
      · cases h
    | wait _ | poll _ | write _ | now _ => cases h
  | top =>
    cases e with
    | wait readable =>
      cases h
      exact List.prefix_rfl
    | poll _ | read _ | now _ | write _ => cases h
  | idle | invalid | valid _ =>
    cases e with
    | poll ready =>
      cases h
      exact List.prefix_rfl
    | wait _ | read _ | now _ | write _ => cases h
  | now v =>
    cases e with
    | now t =>
      cases h
      exact List.prefix_rfl
    | wait _ | poll _ | read _ | write _ => cases h
  | returned => cases e <;> cases h

/-- The line has the calls of the driver. -/
theorem lineAfter_cases {d : MBotDriver.State} (msg : Memory)
    (hd : d.drives = s.driver.drives ∨ ∃ cmd, d.drives = s.driver.drives ++ [cmd]) :
    (d.drives = s.driver.drives ∧ s.lineAfter d msg = s.line) ∨
    ∃ cmd, d.drives = s.driver.drives ++ [cmd] ∧ s.lineAfter d msg = s.line.driven cmd msg := by
  rcases hd with hd | ⟨cmd, hd⟩
  · exact .inl ⟨hd, by rw [State.lineAfter, hd, List.drop_length]⟩
  · exact .inr ⟨cmd, hd, by rw [State.lineAfter, hd, List.drop_left]⟩

/-- What the driver reads is taken from the front of the pipe. -/
theorem State.Permits.delivered {e : MBotDriver.Event} (h : s.Permits e) :
    e.delivered ++ s.pipe.drop e.delivered.length = s.pipe := by
  have hprefix : e.delivered <+: s.pipe := by
    cases e with
    | read r =>
      cases r with
      | bytes bs => exact h
      | eof | failed _ => exact List.nil_prefix
    | poll _ | wait _ => exact List.nil_prefix
  obtain ⟨rest, hrest⟩ := hprefix
  rw [← hrest, List.drop_left]

-- ---------------------------------------------------------------------------
-- Runs
-- ---------------------------------------------------------------------------

def keyboardEvents (es : List Event) : List TeleopKeyboard.Event := es.filterMap Event.keyboard?

def driverEvents (es : List Event) : List MBotDriver.Event := es.filterMap Event.driver?

/-- The keyboard of the system is a keyboard. -/
theorem run_keyboard {flag : Bool} {es : List Event} (hrun : (system cfg flag).run es = some s) :
    (TeleopKeyboard.spin cfg).run (keyboardEvents es) = some s.keyboard := by
  refine Machine.run_of_view (N := TeleopKeyboard.spin cfg) (V := State.keyboard) ?_ ?_ hrun
  · intro s e s' hstep he
    cases e with
    | keyboard e => cases he
    | exit =>
      obtain ⟨-, rfl⟩ := step_exit cfg hstep
      rfl
    | driver e msg =>
      obtain ⟨-, -, d, -, rfl⟩ := step_driver cfg hstep
      rfl
    | line e =>
      obtain ⟨-, l, -, rfl⟩ := step_line cfg hstep
      rfl
  · intro s e s' d hstep he
    cases e with
    | keyboard e =>
      cases he
      obtain ⟨-, k, hk, rfl⟩ := step_keyboard cfg hstep
      exact hk
    | exit | driver _ _ | line _ => cases he

theorem run_driver {flag : Bool} {es : List Event} (hrun : (system cfg flag).run es = some s) :
    MBotDriver.spin.run (driverEvents es) = some s.driver := by
  refine Machine.run_of_view (N := MBotDriver.spin) (V := State.driver) ?_ ?_ hrun
  · intro s e s' hstep he
    cases e with
    | keyboard e =>
      obtain ⟨-, k, -, rfl⟩ := step_keyboard cfg hstep
      rfl
    | exit =>
      obtain ⟨-, rfl⟩ := step_exit cfg hstep
      rfl
    | driver e msg => cases he
    | line e =>
      obtain ⟨-, l, -, rfl⟩ := step_line cfg hstep
      rfl
  · intro s e s' d hstep he
    cases e with
    | driver e msg =>
      cases he
      obtain ⟨-, -, d, hd, rfl⟩ := step_driver cfg hstep
      exact hd
    | exit | keyboard _ | line _ => cases he

/-- The driver has been told that its input is over. -/
def SawEof (es : List Event) : Prop := ∃ msg, .driver (.read .eof) msg ∈ es

/-- What holds between the parts of the system. -/
structure Coupled (es : List Event) (s : State) : Prop where
  /-- No byte is lost, made up or moved. -/
  conserved : MBotDriver.delivered (driverEvents es) ++ s.pipe = s.keyboard.output
  cmds : s.line.cmds = s.driver.drives
  logged : MBot.Logged s.line
  threads : MBot.Threads s.line
  inOrder : MBot.InOrder s.line
  eof : SawEof es → s.pipe = [] ∧ s.exited = true

theorem driverEvents_concat (es : List Event) (e : Event) :
    driverEvents (es ++ [e]) = driverEvents es ++ e.driver?.toList := by
  rw [driverEvents, List.filterMap_append]
  cases e <;> rfl

theorem sawEof_concat {es : List Event} {e : Event} :
    SawEof (es ++ [e]) ↔ SawEof es ∨ ∃ msg, e = .driver (.read .eof) msg := by
  simp only [SawEof, List.mem_append, List.mem_singleton, exists_or, eq_comm (b := e)]

theorem cmds_driven (l : MBot.State) (cmd : Twist2DStamped) (msg : Memory) :
    (l.driven cmd msg).cmds = l.cmds ++ [cmd] := by
  simp [MBot.State.cmds, MBot.State.driven]

/-- A step of the keyboard appends to the pipe what it appends to the output. -/
theorem Coupled.keyboard {es : List Event} (hc : Coupled es s) {e : TeleopKeyboard.Event}
    {k : TeleopKeyboard.State} (hexited : s.exited = false)
    (hk : TeleopKeyboard.step cfg s.keyboard e = some k) :
    Coupled (es ++ [.keyboard e])
      { s with keyboard := k, pipe := s.pipe ++ k.output.drop s.keyboard.output.length } := by
  obtain ⟨more, hmore⟩ := keyboard_output hk
  refine ⟨?_, hc.cmds, hc.logged, hc.threads, hc.inOrder, fun heof => ?_⟩
  · rw [driverEvents_concat]
    simp only [Event.driver?, Option.toList_none, List.append_nil]
    rw [← List.append_assoc, hc.conserved, ← hmore, List.drop_left]
  · rcases sawEof_concat.mp heof with heof | ⟨msg, hmsg⟩
    · cases hexited.symm.trans (hc.eof heof).2
    · cases hmsg

theorem Coupled.exit {es : List Event} (hc : Coupled es s) :
    Coupled (es ++ [.exit]) { s with exited := true } := by
  refine ⟨?_, hc.cmds, hc.logged, hc.threads, hc.inOrder, fun heof => ?_⟩
  · rw [driverEvents_concat]
    exact (congrArg (MBotDriver.delivered · ++ s.pipe) (List.append_nil _)).trans hc.conserved
  · rcases sawEof_concat.mp heof with heof | ⟨msg, hmsg⟩
    · exact ⟨(hc.eof heof).1, rfl⟩
    · cases hmsg

/-- A step of the driver takes from the pipe what it reads, and passes on to the
line what it drives. -/
theorem Coupled.driver {es : List Event} (hc : Coupled es s) {e : MBotDriver.Event} {msg : Memory}
    {d : MBotDriver.State} {rest : List UInt8} (hidle : s.line.Idle) (hpermits : s.Permits e)
    (hat : s.driver.pc.At rest) (hd : MBotDriver.step s.driver e = some d) :
    Coupled (es ++ [.driver e msg])
      { s with driver := d, pipe := s.pipe.drop e.delivered.length, line := s.lineAfter d msg } := by
  have hconserved : MBotDriver.delivered (driverEvents (es ++ [.driver e msg])) ++
      s.pipe.drop e.delivered.length = s.keyboard.output := by
    rw [driverEvents_concat]
    simp only [Event.driver?, Option.toList_some, MBotDriver.delivered_concat, List.append_assoc]
    rw [hpermits.delivered, hc.conserved]
  have heof : SawEof (es ++ [.driver e msg]) →
      s.pipe.drop e.delivered.length = [] ∧ s.exited = true := by
    intro heof
    rcases sawEof_concat.mp heof with heof | ⟨msg', hmsg⟩
    · obtain ⟨hpipe, hexited⟩ := hc.eof heof
      exact ⟨by rw [hpipe, List.drop_nil], hexited⟩
    · cases hmsg
      exact ⟨by rw [hpermits.1, List.drop_nil], hpermits.2⟩
  rcases lineAfter_cases msg (MBotDriver.step_drives hat hd) with ⟨hdrives, hline⟩ | ⟨cmd, hdrives, hline⟩
  · rw [hline]
    exact ⟨hconserved, hc.cmds.trans hdrives.symm, hc.logged, hc.threads, hc.inOrder, heof⟩
  · have hstep : MBot.step s.line (.drive cmd msg) = some (s.line.driven cmd msg) := rfl
    rw [hline]
    refine ⟨hconserved, ?_, MBot.step_logged hc.logged hstep, MBot.step_threads hc.threads hstep,
      MBot.inOrder_drive hc.inOrder hidle cmd msg, heof⟩
    rw [cmds_driven, hc.cmds, hdrives]

/-- A step of the line calls no `drive`. -/
theorem Coupled.line {es : List Event} (hc : Coupled es s) {e : MBot.Event} {l : MBot.State}
    (hpermits : s.LinePermits e) (hl : MBot.step s.line e = some l) :
    Coupled (es ++ [.line e]) { s with line := l } := by
  have hcmds : l.cmds = s.line.cmds := by
    apply MBot.step_cmds _ hl
    rintro cmd msg rfl
    exact hpermits
  refine ⟨?_, hcmds.trans hc.cmds, MBot.step_logged hc.logged hl, MBot.step_threads hc.threads hl,
    MBot.step_inOrder hc.threads hc.inOrder ?_ hl, fun heof => ?_⟩
  · rw [driverEvents_concat]
    exact (congrArg (MBotDriver.delivered · ++ s.pipe) (List.append_nil _)).trans hc.conserved
  · rintro cmd msg rfl
    exact hpermits.elim
  · rcases sawEof_concat.mp heof with heof | ⟨msg, hmsg⟩
    · exact hc.eof heof
    · cases hmsg

theorem run_coupled {flag : Bool} {es : List Event} (hrun : (system cfg flag).run es = some s) :
    Coupled es s := by
  refine (system cfg flag).run_invariant (I := Coupled) ?_ ?_ hrun
  · have hnil : (MBot.serial flag).run [] = some { stopTimesyncFlag := flag } := rfl
    obtain ⟨hlogged, hthreads⟩ := MBot.run_invariants hnil
    exact ⟨rfl, rfl, hlogged, hthreads, ⟨fun j hj => (Nat.not_lt_zero _ hj).elim, 0, rfl⟩,
      fun ⟨msg, hmem⟩ => (List.not_mem_nil hmem).elim⟩
  · intro es s e s' hs hc hstep
    cases e with
    | keyboard e =>
      obtain ⟨hexited, k, hk, rfl⟩ := step_keyboard cfg hstep
      exact hc.keyboard hexited hk
    | exit =>
      obtain ⟨-, rfl⟩ := step_exit cfg hstep
      exact hc.exit
    | driver e msg =>
      obtain ⟨hidle, hpermits, d, hd, rfl⟩ := step_driver cfg hstep
      obtain ⟨frames, rest, hfollows⟩ := MBotDriver.run_follows (run_driver hs)
      rcases hfollows.at_rest with hret | hat
      · cases (MBotDriver.step_returned hret e).symm.trans hd
      · exact hc.driver hidle hpermits hat hd
    | line e =>
      obtain ⟨hpermits, l, hl, rfl⟩ := step_line cfg hstep
      exact hc.line hpermits hl

-- ---------------------------------------------------------------------------
-- From keys to packets
-- ---------------------------------------------------------------------------

/-- The messages of the keys consumed so far are `msgs`, the driver has read the
first `n` of them to their end, and `drive` was called for these and, once the
driver has returned, for the stop command. What the keyboard wrote, which lacks
at most the end of the last frame, is what the driver has read and then what is
in the pipe. -/
structure Served (cfg : TeleopKeyboard.Config) (es : List Event) (s : State)
    (msgs : List Twist2DStamped) (n : Nat) : Prop where
  twists : msgs.map (·.twist) = TeleopKeyboard.commanded cfg (keyboardEvents es)
  numbered : TeleopKeyboard.Numbered msgs
  output : s.keyboard.output <+: msgs.flatMap Message.frame
  dropLast : msgs.dropLast.flatMap Message.frame <+: s.keyboard.output
  whole : s.keyboard.output = msgs.flatMap Message.frame ∨
    s.keyboard.pc.Producing ∨ TeleopKeyboard.CutShort cfg (keyboardEvents es)
  conserved : MBotDriver.delivered (driverEvents es) ++ s.pipe = s.keyboard.output
  read : ∀ i, i < n ↔ i < msgs.length ∧
    ((msgs.take (i + 1)).flatMap Message.frame).length + s.pipe.length ≤ s.keyboard.output.length
  calls : s.line.cmds =
    msgs.take n ++ (if s.driver.pc = .returned then [MBotDriver.stop] else [])

theorem run_served {flag : Bool} {es : List Event} (hrun : (system cfg flag).run es = some s) :
    ∃ msgs n, Served cfg es s msgs n := by
  have hc := run_coupled hrun
  obtain ⟨msgs, n, htwists, hnumbered, hdropLast, hprefix, hwhole, hn, hdrives⟩ :=
    driven_of_output (TeleopKeyboard.run_framed (run_keyboard hrun)) (run_driver hrun)
      ⟨s.pipe, hc.conserved⟩
  have hlen : (MBotDriver.delivered (driverEvents es)).length + s.pipe.length =
      s.keyboard.output.length := by
    rw [← List.length_append, hc.conserved]
  refine ⟨msgs, n, htwists, hnumbered, hprefix, hdropLast, hwhole, hc.conserved, fun i => ?_,
    hc.cmds.trans hdrives⟩
  rw [hn i]
  omega

/-- Messages whose frames are all in the output, and not in the pipe any more,
have been read. -/
theorem Served.length_le {es : List Event} {msgs : List Twist2DStamped} {n : Nat}
    (h : Served cfg es s msgs n) (hpipe : s.pipe = []) {k : Nat} (hk : k ≤ msgs.length)
    (hwhole : (msgs.take k).flatMap Message.frame <+: s.keyboard.output) : k ≤ n := by
  cases k with
  | zero => exact Nat.zero_le n
  | succ k =>
    apply (h.read k).mpr
    rw [hpipe]
    exact ⟨hk, hwhole.length_le⟩

/-- In every reachable state of the system the calls of `drive` are for the first
`n` of the valid keys, in order, where `n` counts the frames that the driver has
read to their end, and for the stop command once the driver has returned. When
the driver has been told that its input is over, no key is missing but the last
one, and that only if its frame was cut short. -/
theorem calls_follow_keys (cfg : TeleopKeyboard.Config) (stopTimesyncFlag : Bool) {es : List Event}
    {s : State} (hrun : (system cfg stopTimesyncFlag).run es = some s) :
    ∃ msgs n, Served cfg es s msgs n ∧
      (SawEof es → msgs.length ≤ n + 1 ∧
        (s.keyboard.output = msgs.flatMap Message.frame → msgs.length ≤ n)) := by
  obtain ⟨msgs, n, hserved⟩ := run_served hrun
  refine ⟨msgs, n, hserved, fun heof => ?_⟩
  have hpipe := ((run_coupled hrun).eof heof).1
  constructor
  · have hlast := hserved.length_le hpipe (Nat.sub_le msgs.length 1)
      (List.dropLast_eq_take ▸ hserved.dropLast)
    omega
  · intro hall
    have hframes : (msgs.take msgs.length).flatMap Message.frame = s.keyboard.output := by
      rw [List.take_length, hall]
    exact hserved.length_le hpipe (Nat.le_refl _) (hframes ▸ List.prefix_rfl)

/-- One key, driven while the second is being typed, and then the end. -/
def oneKey : List Event :=
  [.keyboard (.wait true), .keyboard (.read (.bytes [0x77])), .driver (.poll false) fun _ => 0,
    .keyboard (.poll false), .keyboard (.now ⟨1500000⟩), .keyboard (.write (.wrote 4)),
    .driver (.read (.bytes [32, 0])) fun _ => 0, .keyboard (.write (.wrote 32)),
    .line (.timesync ⟨1, 0⟩ fun _ => 0), .driver (.read (.bytes [0, 0])) fun _ => 0,
    .driver (.read (.bytes (Message.encode
      (TeleopKeyboard.message 0 ⟨1500000⟩ ⟨0x3fd0000000000000, 0, 0⟩)))) fun _ => 7,
    .line (.lock .timesync), .line (.write (.wrote 16)), .line .unlock, .line (.lock (.drive 0)),
    .line (.write (.wrote 28)), .line .unlock, .exit, .driver (.poll false) fun _ => 0,
    .driver (.read .eof) fun _ => 0, .line (.lock (.drive 1)), .line (.write (.wrote 28)),
    .line .unlock, .line .stop, .line (.timesync ⟨2, 0⟩ fun _ => 0)]

theorem calls_follow_keys_oneKey :
    ∃ s msgs n, (system ⟨0x3fd0000000000000, 0⟩ false).run oneKey = some s ∧
      Served ⟨0x3fd0000000000000, 0⟩ oneKey s msgs n ∧ msgs.length ≤ n + 1 := by
  have hsome : ((system ⟨0x3fd0000000000000, 0⟩ false).run oneKey).isSome = true := by
    decide +kernel
  obtain ⟨s, hrun⟩ := Option.isSome_iff_exists.mp hsome
  obtain ⟨msgs, n, hserved, heof⟩ := calls_follow_keys _ _ hrun
  exact ⟨s, msgs, n, hrun, hserved, (heof ⟨fun _ => 0, by simp [oneKey]⟩).1⟩

/-- What arrives of the calls of `drive`. -/
theorem Coupled.received {es : List Event} (hc : Coupled es s) :
    ((∀ t ∈ s.line.turns, t.Untorn) → ∃ kept : List Twist2DStamped, kept.Sublist s.line.cmds ∧
      MBot.received s.line.accepted = kept.map MBot.mbotCmd) ∧
    (s.line.TakenWhole →
      MBot.received s.line.accepted <+: s.line.cmds.map MBot.mbotCmd ∧
      (s.line.Idle → MBot.received s.line.accepted = s.line.cmds.map MBot.mbotCmd)) := by
  refine ⟨fun huntorn => ?_, fun htaken => ?_⟩
  · exact ⟨s.line.acceptedCmds, MBot.acceptedCmds_sublist hc.threads hc.inOrder,
      MBot.received_accepted hc.logged hc.threads huntorn⟩
  · obtain ⟨k, hk, hreturned⟩ := MBot.acceptedCmds_takenWhole hc.threads hc.inOrder htaken
    rw [MBot.received_accepted hc.logged hc.threads htaken.untorn, hk]
    refine ⟨(List.take_prefix ..).map _, fun hidle => ?_⟩
    rw [List.take_of_length_le]
    rw [MBot.State.cmds, List.length_map]
    by_contra hlt
    have hlt : k < s.line.calls.length := Nat.lt_of_not_le hlt
    exact Nat.lt_irrefl k (hreturned k (hidle.phase hlt))

/-- What a receiver at the other end of the line reads. As long as the device
takes each write whole or not at all, it reads commands that were driven, in
order and none twice. If the device takes all writes of `drive` it reads a first
part of them, and all of them whenever no call is in progress. -/
theorem received_follows_keys (cfg : TeleopKeyboard.Config) (stopTimesyncFlag : Bool)
    {es : List Event} {s : State} (hrun : (system cfg stopTimesyncFlag).run es = some s) :
    ∃ msgs n driven, Served cfg es s msgs n ∧
      driven = msgs.take n ++ (if s.driver.pc = .returned then [MBotDriver.stop] else []) ∧
      ((∀ t ∈ s.line.turns, t.Untorn) → ∃ kept : List Twist2DStamped, kept.Sublist driven ∧
        MBot.received s.line.accepted = kept.map MBot.mbotCmd) ∧
      (s.line.TakenWhole →
        MBot.received s.line.accepted <+: driven.map MBot.mbotCmd ∧
        (s.line.Idle → MBot.received s.line.accepted = driven.map MBot.mbotCmd)) := by
  obtain ⟨msgs, n, hserved⟩ := run_served hrun
  have hreceived := (run_coupled hrun).received
  rw [hserved.calls] at hreceived
  exact ⟨msgs, n, _, hserved, rfl, hreceived⟩

theorem received_follows_keys_oneKey :
    ∃ (s : State) (driven : List Twist2DStamped),
      (system ⟨0x3fd0000000000000, 0⟩ false).run oneKey = some s ∧ driven.length = 2 ∧
      MBot.received s.line.accepted = driven.map MBot.mbotCmd := by
  have hlog : ((system ⟨0x3fd0000000000000, 0⟩ false).run oneKey).map
      (fun s => (s.line.cmds.length, decide s.line.Idle, decide (∀ t ∈ s.line.turns, t.Untorn),
        decide (∀ t ∈ s.line.past, t.writer ≠ .timesync → t.Whole))) =
      some (2, true, true, true) := by
    decide +kernel
  obtain ⟨s, hrun, heq⟩ := Option.map_eq_some_iff.mp hlog
  simp only [Prod.mk.injEq, decide_eq_true_eq] at heq
  obtain ⟨hlen, hidle, huntorn, hdrives⟩ := heq
  obtain ⟨msgs, n, driven, hserved, rfl, -, htaken⟩ := received_follows_keys _ _ hrun
  exact ⟨s, _, hrun, hserved.calls ▸ hlen, (htaken ⟨huntorn, hdrives⟩).2 hidle⟩

end MBotTeleop.System
