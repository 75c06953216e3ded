-- SUMMARY: An MBot from its constructor to its destructor: what happens to its descriptor, and that the destructor ends.
import MBotTeleop.MBot.Line

/-!
# The life of an `MBot`

The constructor opens the serial device and starts the timesync loop, unless the
device cannot be opened or configured. The destructor stores the flag, joins the
thread, and then destroys the members, of which `file` closes its descriptor.
-/

namespace MBot.Life

open Rix.Ipc
open Rix.Msg.Geometry (Twist2DStamped)

/-- The system calls on the descriptor of the device, without those of the
constructor that set up the port: `tcgetattr`, `tcflush` and `tcsetattr`. -/
inductive Syscall where
  /-- `::open`, with its result. -/
  | opened (fd : Int)
  | write (fd : Int) (n : Nat)
  | close (fd : Int)
  deriving DecidableEq, Repr

/-- Where the owner of the object is. -/
inductive Stage where
  /-- In the constructor, at the constructor of `file`. -/
  | opening
  /-- In the constructor, from the first `tcgetattr` to the last. -/
  | configuring
  | alive
  /-- In the destructor, after `stop_timesync_flag` was stored. -/
  | joining
  /-- At the destructor of `file`. -/
  | closing
  | destroyed
  deriving DecidableEq, Repr

structure State where
  stage : Stage := .opening
  /-- `file.fd_` -/
  fd : Int := -1
  /-- `timesync_thr.joinable()` -/
  joinable : Bool := false
  line : MBot.State
  /-- The system calls so far. -/
  log : List Syscall := []
  deriving Repr

inductive Event where
  /-- `::open` returns `fd`, which is `-1` where it failed. -/
  | opened (fd : Int)
  /-- The last `tcgetattr` succeeds or fails; no other result is looked at. -/
  | configured (ok : Bool)
  /-- `drive` is called, or one of the threads goes on. -/
  | line (e : MBot.Event)
  /-- The destructor is called. -/
  | destroy
  /-- `timesync_thr.join()` returns, or is not called. -/
  | joined
  /-- `File::~File` -/
  | closed

/-- What a step of a thread adds to the log. Without a descriptor `File::write`
makes no call. -/
def State.syscalls (s : State) : MBot.Event → List Syscall
  | .write _ =>
    match s.line.mtx with
    | some sec => if s.fd < 0 then [] else [.write s.fd sec.packet.length]
    | none => []
  | .drive _ _ | .timesync _ _ | .lock _ | .unlock | .stop => []

/-- The owner calls `drive` while the object is alive. The loop needs its thread,
and a write its descriptor. -/
def State.Permits (s : State) : MBot.Event → Prop
  | .drive _ _ => s.stage = .alive
  | .timesync _ _ => s.joinable = true
  | .write r => 0 ≤ s.fd ∨ r = .failed .other
  | .lock _ | .unlock => True
  | .stop => False

instance (s : State) : (e : MBot.Event) → Decidable (s.Permits e)
  | .drive _ _ => inferInstanceAs (Decidable (_ = _))
  | .timesync _ _ => inferInstanceAs (Decidable (_ = _))
  | .write _ => inferInstanceAs (Decidable (_ ∨ _))
  | .lock _ | .unlock => .isTrue trivial
  | .stop => .isFalse id

def step (s : State) : Event → Option State
  | .opened fd =>
    if s.stage = .opening ∧ -1 ≤ fd then
      let s : State := { s with fd := fd, log := s.log ++ [.opened fd] }
      -- `if (!file.ok())`
      some (if fd < 0 then { s with stage := .alive } else { s with stage := .configuring })
    else
      none
  | .configured ok =>
    if s.stage = .configuring then
      some (if ok then { s with stage := .alive, joinable := true }
        -- `file` keeps the descriptor
        else { s with stage := .alive, log := s.log ++ [.close s.fd] })
    else
      none
  | .line e =>
    if (s.stage = .alive ∨ s.stage = .joining) ∧ s.Permits e then
      (MBot.step s.line e).map fun l => { s with line := l, log := s.log ++ s.syscalls e }
    else
      none
  | .destroy =>
    -- nobody is in `drive` when the object is destroyed
    if s.stage = .alive ∧ ∀ call ∈ s.line.calls, call.phase = .returned then
      some { s with stage := .joining, line := { s.line with stopTimesyncFlag := true } }
    else
      none
  | .joined =>
    if s.stage = .joining ∧ (s.joinable = true → s.line.timesync = .exited) then
      some { s with stage := .closing, joinable := false }
    else
      none
  | .closed =>
    if s.stage = .closing then
      some { s with
        stage := .destroyed, log := s.log ++ if 0 < s.fd then [.close s.fd] else [] }
    else
      none

/-- The constructor stores nothing in `stop_timesync_flag`, which may start either way. -/
def life (stopTimesyncFlag : Bool) : Machine State Event where
  init := { line := { stopTimesyncFlag } }
  step := step

/-- `MBot::ok` -/
def State.ok (s : State) : Bool := 0 ≤ s.fd

variable {s s' : State}

-- ---------------------------------------------------------------------------
-- What a step can do
-- ---------------------------------------------------------------------------

theorem step_opened {fd : Int} (h : step s (.opened fd) = some s') :
    s.stage = .opening ∧ -1 ≤ fd ∧
      s' = { s with
        stage := if fd < 0 then .alive else .configuring, fd := fd
        log := s.log ++ [.opened fd] } := by
  simp only [step] at h
  split at h
  · rename_i hpre
    obtain rfl := Option.some.inj h
    refine ⟨hpre.1, hpre.2, ?_⟩
    split <;> rfl
  · cases h

theorem step_configured {ok : Bool} (h : step s (.configured ok) = some s') :
    s.stage = .configuring ∧
      s' = if ok then { s with stage := .alive, joinable := true }
        else { s with stage := .alive, log := s.log ++ [.close s.fd] } := by
  simp only [step] at h
  split at h
  · rename_i hstage
    exact ⟨hstage, (Option.some.inj h).symm⟩
  · cases h

theorem step_line {e : MBot.Event} (h : step s (.line e) = some s') :
    (s.stage = .alive ∨ s.stage = .joining) ∧ s.Permits e ∧ ∃ l, MBot.step s.line e = some l ∧
      s' = { s with line := l, log := s.log ++ s.syscalls e } := by
  simp only [step] at h
  split at h
  · rename_i hpre
    obtain ⟨l, hl, rfl⟩ := Option.map_eq_some_iff.mp h
    exact ⟨hpre.1, hpre.2, l, hl, rfl⟩
  · cases h

theorem step_destroy (h : step s .destroy = some s') :
    s.stage = .alive ∧ (∀ call ∈ s.line.calls, call.phase = .returned) ∧
      s' = { s with stage := .joining, line := { s.line with stopTimesyncFlag := true } } := by
  simp only [step] at h
  split at h
  · rename_i hpre
    exact ⟨hpre.1, hpre.2, (Option.some.inj h).symm⟩
  · cases h

theorem step_joined (h : step s .joined = some s') :
    s.stage = .joining ∧ (s.joinable = true → s.line.timesync = .exited) ∧
      s' = { s with stage := .closing, joinable := false } := by
  simp only [step] at h
  split at h
  · rename_i hpre
    exact ⟨hpre.1, hpre.2, (Option.some.inj h).symm⟩
  · cases h

theorem step_closed (h : step s .closed = some s') :
    s.stage = .closing ∧
      s' = { s with
        stage := .destroyed, log := s.log ++ if 0 < s.fd then [.close s.fd] else [] } := by
  simp only [step] at h
  split at h
  · rename_i hstage
    exact ⟨hstage, (Option.some.inj h).symm⟩
  · cases h

theorem syscalls_cases (s : State) (e : MBot.Event) :
    s.syscalls e = [] ∨ ∃ n, s.syscalls e = [.write s.fd n] := by
  unfold State.syscalls
  split
  · split
    · split
      · exact .inl rfl
      · exact .inr ⟨_, rfl⟩
    · exact .inl rfl
  all_goals exact .inl rfl

-- ---------------------------------------------------------------------------
-- The descriptor
-- ---------------------------------------------------------------------------

/-- The descriptor that a call is about. -/
def Syscall.fd : Syscall → Int
  | opened fd | write fd _ | close fd => fd

/-- How often the destructor has closed the descriptor. -/
def destructorCloses (stage : Stage) (fd : Int) : Nat := if stage = .destroyed ∧ 0 < fd then 1 else 0

/-- The log of the calls, where the constructor has closed the descriptor itself
if `broken`. -/
structure Kept (broken : Prop) (stage : Stage) (fd : Int) (log : List Syscall) : Prop where
  opening : stage = .opening → log = [] ∧ ¬ broken
  configuring : stage = .configuring → 0 ≤ fd ∧ log = [.opened fd] ∧ ¬ broken
  valid : broken → 0 ≤ fd
  own : ∀ c ∈ log, c.fd = fd
  closes : (broken → log.count (.close fd) = 1 + destructorCloses stage fd) ∧
    (¬ broken → log.count (.close fd) = destructorCloses stage fd)
  writes : ∀ l₁ n l₂, log = l₁ ++ .write fd n :: l₂ → (.close fd ∈ l₁ ↔ broken)

namespace Kept

variable {broken : Prop} {stage : Stage} {fd : Int} {log : List Syscall}

/-- Until the object is destroyed, the descriptor is closed iff the constructor
did it. -/
theorem close_mem (h : Kept broken stage fd log) (hstage : stage ≠ .destroyed) :
    .close fd ∈ log ↔ broken := by
  have hzero : destructorCloses stage fd = 0 := if_neg fun hd => hstage hd.1
  by_cases hb : broken
  · have hcount := h.closes.1 hb
    rw [hzero] at hcount
    exact iff_of_true (List.count_pos_iff.mp (Nat.lt_of_lt_of_eq Nat.one_pos hcount.symm)) hb
  · have hcount := h.closes.2 hb
    rw [hzero] at hcount
    exact iff_of_false (List.count_eq_zero.mp hcount) hb

/-- A write that is logged last, or before the last call. -/
theorem writes_concat {c : Syscall}
    (hlog : ∀ l₁ n l₂, log = l₁ ++ .write fd n :: l₂ → (.close fd ∈ l₁ ↔ broken))
    (hlast : ∀ n, c = .write fd n → (.close fd ∈ log ↔ broken)) :
    ∀ l₁ n l₂, log ++ [c] = l₁ ++ .write fd n :: l₂ → (.close fd ∈ l₁ ↔ broken) := by
  intro l₁ n l₂ heq
  rcases l₂.eq_nil_or_concat with rfl | ⟨l₂, c', rfl⟩
  · obtain ⟨rfl, hc⟩ := List.append_inj' heq rfl
    exact hlast n (List.cons.inj hc).1
  · rw [List.concat_eq_append, ← List.cons_append, ← List.append_assoc] at heq
    obtain ⟨rfl, -⟩ := List.append_inj' heq rfl
    exact hlog l₁ n l₂ rfl

theorem congr (h : Kept broken stage fd log) {broken' : Prop} (hiff : broken' ↔ broken) :
    Kept broken' stage fd log := by
  rwa [propext hiff]

/-- The stage changes, and nothing is logged. -/
theorem moved (h : Kept broken stage fd log) (stage' : Stage) (hopening : stage' ≠ .opening)
    (hconfiguring : stage' ≠ .configuring)
    (hcloses : destructorCloses stage' fd = destructorCloses stage fd) :
    Kept broken stage' fd log :=
  ⟨fun hs => (hopening hs).elim, fun hs => (hconfiguring hs).elim, h.valid, h.own,
    hcloses ▸ h.closes, h.writes⟩

/-- Nothing was logged before the first call. -/
theorem opened (h : Kept False .opening fd log) (fd' : Int) :
    Kept False (if fd' < 0 then .alive else .configuring) fd' (log ++ [.opened fd']) := by
  rw [(h.opening rfl).1, List.nil_append]
  have hcloses : destructorCloses (if fd' < 0 then .alive else .configuring) fd' = 0 := by
    refine if_neg fun hd => ?_
    have hd := hd.1
    split at hd <;> cases hd
  have hnone (l₁ : List Syscall) (n : Nat) (l₂ : List Syscall)
      (heq : [] = l₁ ++ .write fd' n :: l₂) : .close fd' ∈ l₁ ↔ False :=
    (List.append_ne_nil_of_right_ne_nil l₁ (List.cons_ne_nil _ _) heq.symm).elim
  refine ⟨fun hs => ?_, fun hs => ?_, False.elim, List.forall_mem_singleton.mpr rfl,
    ⟨False.elim, fun _ => ?_⟩, writes_concat hnone nofun⟩
  · split at hs <;> cases hs
  · split at hs
    · cases hs
    · exact ⟨Int.not_lt.mp ‹_›, rfl, id⟩
  · rw [hcloses]
    rfl

/-- The constructor gives up and closes the descriptor. -/
theorem failed (h : Kept False .configuring fd log) :
    Kept True .alive fd (log ++ [.close fd]) := by
  obtain ⟨hfd, hlog, -⟩ := h.configuring rfl
  refine ⟨nofun, nofun, fun _ => hfd, ?_, ⟨fun _ => ?_, fun hnot => (hnot trivial).elim⟩,
    writes_concat ?_ nofun⟩
  · exact List.forall_mem_append.mpr ⟨h.own, List.forall_mem_singleton.mpr rfl⟩
  · rw [hlog, List.count_append, List.count_cons_self]
    rfl
  · rw [hlog]
    intro l₁ n l₂ heq
    have hmem : Syscall.write fd n ∈ [Syscall.opened fd] :=
      heq ▸ List.mem_append_right _ List.mem_cons_self
    cases List.mem_singleton.mp hmem

/-- A thread writes. -/
theorem write (h : Kept broken stage fd log) (hopening : stage ≠ .opening)
    (hconfiguring : stage ≠ .configuring) (hdestroyed : stage ≠ .destroyed) (n : Nat) :
    Kept broken stage fd (log ++ [.write fd n]) := by
  have hcount : (log ++ [Syscall.write fd n]).count (.close fd) = log.count (.close fd) := by
    rw [List.count_append, List.count_singleton]
    rfl
  refine ⟨fun hs => (hopening hs).elim, fun hs => (hconfiguring hs).elim, h.valid, ?_, ?_,
    writes_concat h.writes fun _ _ => h.close_mem hdestroyed⟩
  · exact List.forall_mem_append.mpr ⟨h.own, List.forall_mem_singleton.mpr rfl⟩
  · exact ⟨fun hb => hcount.trans (h.closes.1 hb), fun hb => hcount.trans (h.closes.2 hb)⟩

/-- The destructor of `file`. -/
theorem closed (h : Kept broken .closing fd log) :
    Kept broken .destroyed fd (log ++ if 0 < fd then [.close fd] else []) := by
  have hzero : destructorCloses .closing fd = 0 := if_neg nofun
  split
  · rename_i hpos
    have hone : destructorCloses .destroyed fd = 1 := if_pos ⟨rfl, hpos⟩
    have hcount : (log ++ [Syscall.close fd]).count (.close fd) = log.count (.close fd) + 1 := by
      rw [List.count_append, List.count_cons_self]
      rfl
    refine ⟨nofun, nofun, h.valid, ?_, ⟨fun hb => ?_, fun hb => ?_⟩, writes_concat h.writes nofun⟩
    · exact List.forall_mem_append.mpr ⟨h.own, List.forall_mem_singleton.mpr rfl⟩
    · rw [hcount, h.closes.1 hb, hzero, hone]
    · rw [hcount, h.closes.2 hb, hzero, hone]
  · rename_i hpos
    rw [List.append_nil]
    exact h.moved .destroyed nofun nofun (if_neg fun hd => hpos hd.2)

end Kept

/-- The constructor has closed the descriptor, and `file` still holds it. -/
def Broken (es : List Event) : Prop := .configured false ∈ es

theorem broken_concat {es : List Event} {e : Event} :
    Broken (es ++ [e]) ↔ Broken es ∨ e = .configured false := by
  rw [Broken, List.mem_append, List.mem_singleton, eq_comm (a := Event.configured false)]
  rfl

theorem step_kept {es : List Event} {e : Event} (hk : Kept (Broken es) s.stage s.fd s.log)
    (h : step s e = some s') : Kept (Broken (es ++ [e])) s'.stage s'.fd s'.log := by
  have hsame (hne : e ≠ .configured false) : Broken (es ++ [e]) ↔ Broken es := by
    rw [broken_concat, or_iff_left hne]
  cases e with
  | opened fd =>
    obtain ⟨hstage, -, rfl⟩ := step_opened h
    rw [hstage] at hk
    have hnot := (hk.opening rfl).2
    exact ((hk.congr (iff_of_false id hnot)).opened fd).congr
      ((hsame nofun).trans (iff_of_false hnot id))
  | configured ok =>
    obtain ⟨hstage, rfl⟩ := step_configured h
    rw [hstage] at hk
    have hnot := (hk.configuring rfl).2.2
    cases ok with
    | true => exact (hk.moved .alive nofun nofun rfl).congr (hsame nofun)
    | false =>
      exact (hk.congr (iff_of_false id hnot)).failed.congr
        (iff_of_true (broken_concat.mpr (.inr rfl)) trivial)
  | line e =>
    obtain ⟨hstage, -, l, -, rfl⟩ := step_line h
    apply Kept.congr _ (hsame nofun)
    rcases syscalls_cases s e with hnone | ⟨n, hwrite⟩
    · simp only [hnone, List.append_nil]
      exact hk
    · simp only [hwrite]
      rcases hstage with hstage | hstage
      · rw [hstage] at hk ⊢
        exact hk.write nofun nofun nofun n
      · rw [hstage] at hk ⊢
        exact hk.write nofun nofun nofun n
  | destroy =>
    obtain ⟨hstage, -, rfl⟩ := step_destroy h
    rw [hstage] at hk
    exact (hk.moved .joining nofun nofun rfl).congr (hsame nofun)
  | joined =>
    obtain ⟨hstage, -, rfl⟩ := step_joined h
    rw [hstage] at hk
    exact (hk.moved .closing nofun nofun rfl).congr (hsame nofun)
  | closed =>
    obtain ⟨hstage, rfl⟩ := step_closed h
    rw [hstage] at hk
    exact hk.closed.congr (hsame nofun)

theorem run_kept {flag : Bool} {es : List Event} (hrun : (life flag).run es = some s) :
    Kept (Broken es) s.stage s.fd s.log := by
  refine (life flag).run_invariant (I := fun es s => Kept (Broken es) s.stage s.fd s.log) ?_ ?_ hrun
  · have hnot : ¬ Broken [] := List.not_mem_nil
    exact ⟨fun _ => ⟨rfl, hnot⟩, nofun, fun hb => (hnot hb).elim, nofun,
      ⟨fun hb => (hnot hb).elim, fun _ => rfl⟩,
      fun l₁ n l₂ heq => (List.append_ne_nil_of_right_ne_nil l₁ (List.cons_ne_nil _ _) heq.symm).elim⟩
  · intro es s e s' _ hk hstep
    exact step_kept hk hstep

/-- What the object does to its descriptor, in every run. Where the constructor
did not give up after `tcgetattr`, the descriptor is closed once, by the
destructor, after the last write. Where it did, the object still says that it is
ok; every write comes after the close, and the destructor closes the descriptor
again. The destructor leaves a descriptor 0 open. -/
theorem descriptor_closed {stopTimesyncFlag : Bool} {es : List Event} {s : State}
    (hrun : (life stopTimesyncFlag).run es = some s) :
    (∀ c ∈ s.log, c.fd = s.fd) ∧
    (¬ Broken es →
      s.log.count (.close s.fd) = (if s.stage = .destroyed ∧ 0 < s.fd then 1 else 0) ∧
      ∀ l₁ n l₂, s.log = l₁ ++ .write s.fd n :: l₂ → .close s.fd ∉ l₁) ∧
    (Broken es → s.ok = true ∧
      s.log.count (.close s.fd) = 1 + (if s.stage = .destroyed ∧ 0 < s.fd then 1 else 0) ∧
      ∀ l₁ n l₂, s.log = l₁ ++ .write s.fd n :: l₂ → .close s.fd ∈ l₁) := by
  have hk := run_kept hrun
  refine ⟨hk.own, fun hb => ⟨hk.closes.2 hb, fun l₁ n l₂ heq => ?_⟩,
    fun hb => ⟨decide_eq_true (hk.valid hb), hk.closes.1 hb, fun l₁ n l₂ heq => ?_⟩⟩
  · exact fun hmem => hb ((hk.writes l₁ n l₂ heq).mp hmem)
  · exact (hk.writes l₁ n l₂ heq).mpr hb

/-- The constructor gives up after `tcgetattr`, and `drive` is called nevertheless. -/
theorem descriptor_closed_broken :
    ∃ s, (life false).run [.opened 3, .configured false, .line (.drive {} fun _ => 0),
        .line (.lock (.drive 0)), .line (.write (.failed .other)), .line .unlock,
        .destroy, .joined, .closed] = some s ∧
      s.ok = true ∧ s.log.count (.close 3) = 2 := by
  have hlog : ((life false).run [.opened 3, .configured false, .line (.drive {} fun _ => 0),
      .line (.lock (.drive 0)), .line (.write (.failed .other)), .line .unlock,
      .destroy, .joined, .closed]).map (fun s => (s.fd, s.stage)) = some (3, .destroyed) := by
    decide +kernel
  obtain ⟨s, hrun, heq⟩ := Option.map_eq_some_iff.mp hlog
  obtain ⟨hfd, hstage⟩ := Prod.mk.inj heq
  obtain ⟨-, -, hbroken⟩ := descriptor_closed hrun
  obtain ⟨hok, hcount, -⟩ := hbroken (List.mem_cons_of_mem _ List.mem_cons_self)
  rw [hfd, if_pos ⟨hstage, by decide⟩] at hcount
  exact ⟨s, hrun, hok, hcount⟩

-- ---------------------------------------------------------------------------
-- The destructor
-- ---------------------------------------------------------------------------

/-- What the line sees of an event. -/
def Event.line? : Event → Option MBot.Event
  | line e => some e
  | destroy => some .stop
  | opened _ | configured _ | joined | closed => none

theorem run_line {flag : Bool} {es : List Event} (hrun : (life flag).run es = some s) :
    (serial flag).run (es.filterMap Event.line?) = some s.line := by
  refine Machine.run_of_view (N := serial flag) (V := State.line) ?_ ?_ hrun
  · intro s e s' hstep he
    cases e with
    | opened fd =>
      obtain ⟨-, -, rfl⟩ := step_opened hstep
      rfl
    | configured ok =>
      obtain ⟨-, rfl⟩ := step_configured hstep
      cases ok <;> rfl
    | joined =>
      obtain ⟨-, -, rfl⟩ := step_joined hstep
      rfl
    | closed =>
      obtain ⟨-, rfl⟩ := step_closed hstep
      rfl
    | line e => cases he
    | destroy => cases he
  · intro s e s' d hstep he
    cases e with
    | line e =>
      cases he
      obtain ⟨-, -, l, hl, rfl⟩ := step_line hstep
      exact hl
    | destroy =>
      cases he
      obtain ⟨-, -, rfl⟩ := step_destroy hstep
      rfl
    | opened _ | configured _ | joined | closed => cases he

/-- The loop is between `lock` and `unlock` iff it holds the mutex. -/
def LoopHolds (l : MBot.State) : Prop :=
  l.timesync = .locked ↔ ∃ sec, l.mtx = some sec ∧ sec.writer = .timesync

/-- A round of the loop begins at its head and ends there where the flag is set. -/
theorem step_round {l l' : MBot.State} {ts : Timespec} {rospkt : Memory}
    (hstep : MBot.step l (.timesync ts rospkt) = some l') :
    l.timesync = .top ∧ ∃ loop, l' = { l with timesync := loop } ∧ loop ≠ .locked ∧
      (l.stopTimesyncFlag = true → loop = .exited) := by
  simp only [MBot.step] at hstep
  split at hstep
  · rename_i htop
    refine ⟨htop, ?_⟩
    obtain rfl := Option.some.inj hstep
    rw [State.timesyncRound]
    split
    · exact ⟨.exited, rfl, by decide, fun _ => rfl⟩
    · rename_i hflag
      split
      · exact ⟨.exited, rfl, by decide, fun _ => rfl⟩
      · exact ⟨_, rfl, (fun hlocked => by cases hlocked), fun h => (hflag h).elim⟩
  · cases hstep

theorem step_loopHolds {l l' : MBot.State} {e : MBot.Event} (h : LoopHolds l)
    (hstep : MBot.step l e = some l') : LoopHolds l' := by
  cases e with
  | drive cmd msg =>
    obtain rfl := Option.some.inj hstep
    exact h
  | stop =>
    obtain rfl := Option.some.inj hstep
    exact h
  | timesync ts rospkt =>
    obtain ⟨htop, loop, rfl, hloop, -⟩ := step_round hstep
    unfold LoopHolds at h ⊢
    rw [htop] at h
    exact iff_of_false hloop fun hsec => nomatch h.mpr hsec
  | lock w =>
    obtain ⟨bytes, hmtx, hwaiting, rfl⟩ := step_lock hstep
    unfold LoopHolds at h ⊢
    cases w with
    | timesync => exact iff_of_true rfl ⟨_, rfl, rfl⟩
    | drive call =>
      rw [hmtx] at h
      refine iff_of_false (fun hl => ?_) ?_
      · obtain ⟨sec, hsec, -⟩ := h.mp hl
        cases hsec
      · rintro ⟨sec, hsec, hw⟩
        cases hsec
        cases hw
  | write r =>
    obtain ⟨w, bytes, hmtx, -, rfl⟩ := step_write hstep
    unfold LoopHolds at h ⊢
    rw [hmtx] at h
    simpa using h
  | unlock =>
    obtain ⟨w, bytes, r, hmtx, rfl⟩ := step_unlock hstep
    unfold LoopHolds at h ⊢
    refine iff_of_false (fun hl => ?_) ?_
    · cases w with
      | timesync => cases r <;> cases hl
      | drive call =>
        obtain ⟨sec, hsec, hw⟩ := h.mp hl
        rw [hmtx] at hsec
        cases hsec
        cases hw
    · rintro ⟨sec, hsec, -⟩
      cases hsec

def isWrite : MBot.Event → Bool
  | .write _ => true
  | .drive _ _ | .timesync _ _ | .lock _ | .unlock | .stop => false

/-- A step of a thread that is in the object already. -/
def goesOn : MBot.Event → Bool
  | .timesync _ _ | .lock _ | .write _ | .unlock => true
  | .drive _ _ | .stop => false

/-- The flag is set, and nobody is in `drive`. -/
structure Stopping (l : MBot.State) : Prop where
  threads : Threads l
  loopHolds : LoopHolds l
  flag : l.stopTimesyncFlag = true
  idle : ∀ call ∈ l.calls, call.phase = .returned

/-- The steps the loop has still to make once the flag is set. -/
def remaining (l : MBot.State) : Nat :=
  match l.timesync, l.mtx with
  | .exited, _ => 0
  | .top, _ => 1
  | .locked, some ⟨_, _, some _⟩ => 2
  | .locked, _ => 3
  | .lock _, _ => 4

theorem remaining_le (l : MBot.State) : remaining l ≤ 4 := by
  unfold remaining
  split <;> decide

namespace Stopping

variable {l l' : MBot.State}

theorem phase (h : Stopping l) {call : Nat} {phase : Phase} (hphase : l.phase call = some phase) :
    phase = .returned := by
  obtain ⟨c, hc, rfl⟩ := Option.map_eq_some_iff.mp hphase
  exact h.idle c (List.mem_of_getElem? hc)

/-- The loop is the only one that waits for the mutex or holds it. -/
theorem waiting (h : Stopping l) {w : Writer} {bytes : List UInt8}
    (hwaiting : l.waiting w = some bytes) : w = .timesync ∧ l.timesync = .lock bytes := by
  cases w with
  | timesync => exact ⟨rfl, waiting_timesync.mp hwaiting⟩
  | drive call => cases h.phase (waiting_drive.mp hwaiting)

theorem holder (h : Stopping l) {sec : Section} (hmtx : l.mtx = some sec) :
    sec.writer = .timesync ∧ l.timesync = .locked := by
  have hwriter : sec.writer = .timesync := by
    cases hw : sec.writer with
    | timesync => rfl
    | drive call => cases h.phase (h.threads.holder hmtx hw)
  exact ⟨hwriter, h.loopHolds.mpr ⟨sec, hmtx, hwriter⟩⟩

/-- Every step of a thread is one of the loop, and brings it nearer to its end. -/
theorem step (h : Stopping l) {e : MBot.Event} (hgoes : goesOn e = true)
    (hstep : MBot.step l e = some l') :
    Stopping l' ∧ remaining l' < remaining l ∧ (isWrite e = true → remaining l = 3) := by
  have hthreads := step_threads h.threads hstep
  have hloop := step_loopHolds h.loopHolds hstep
  cases e with
  | drive _ _ | stop => cases hgoes
  | timesync ts rospkt =>
    obtain ⟨htop, loop, rfl, -, hexited⟩ := step_round hstep
    obtain rfl := hexited h.flag
    refine ⟨⟨hthreads, hloop, h.flag, h.idle⟩, ?_, fun hwrite => by cases hwrite⟩
    simp only [remaining, htop]
    decide
  | lock w =>
    obtain ⟨bytes, hmtx, hwaiting, rfl⟩ := step_lock hstep
    obtain ⟨rfl, hlock⟩ := h.waiting hwaiting
    refine ⟨⟨hthreads, hloop, h.flag, h.idle⟩, ?_, fun hwrite => by cases hwrite⟩
    simp only [remaining, hlock, State.locked]
    decide
  | write r =>
    obtain ⟨w, bytes, hmtx, -, rfl⟩ := step_write hstep
    obtain ⟨-, hlocked⟩ := h.holder hmtx
    have hthree : remaining l = 3 := by simp only [remaining, hlocked, hmtx]
    refine ⟨⟨hthreads, hloop, h.flag, h.idle⟩, ?_, fun _ => hthree⟩
    rw [hthree]
    simp only [remaining, hlocked]
    decide
  | unlock =>
    obtain ⟨w, bytes, r, hmtx, rfl⟩ := step_unlock hstep
    obtain ⟨hw, hlocked⟩ := h.holder hmtx
    obtain rfl : w = .timesync := hw
    have htwo : remaining l = 2 := by simp only [remaining, hlocked, hmtx]
    rw [htwo]
    cases r with
    | wrote k => exact ⟨⟨hthreads, hloop, h.flag, h.idle⟩, Nat.one_lt_two, fun hwrite => by cases hwrite⟩
    | failed errno => exact ⟨⟨hthreads, hloop, h.flag, h.idle⟩, Nat.zero_lt_two, fun hwrite => by cases hwrite⟩

/-- Until the loop has exited it can go on, whether the device is open or not. -/
theorem exists_step (h : Stopping l) (hnot : l.timesync ≠ .exited) :
    ∃ e, (∀ s : Life.State, s.joinable = true → s.Permits e) ∧ (MBot.step l e).isSome = true := by
  cases hloop : l.timesync with
  | exited => exact (hnot hloop).elim
  | top =>
    refine ⟨.timesync ⟨0, 0⟩ fun _ => 0, fun _ hjoinable => hjoinable, ?_⟩
    simp only [MBot.step, hloop, Option.isSome_some]
  | lock bytes =>
    have hmtx : l.mtx = none := by
      cases hmtx : l.mtx with
      | none => rfl
      | some sec => cases hloop.symm.trans (h.holder hmtx).2
    have hwaiting : l.waiting .timesync = some bytes := waiting_timesync.mpr hloop
    refine ⟨.lock .timesync, fun _ _ => trivial, ?_⟩
    simp only [MBot.step, hmtx, hwaiting, Option.isSome_some]
  | locked =>
    obtain ⟨⟨w, packet, result⟩, hmtx, -⟩ := h.loopHolds.mp hloop
    cases result with
    | none =>
      refine ⟨.write (.failed .other), fun _ _ => .inr rfl, ?_⟩
      have hpossible : (WriteResult.failed .other).Possible packet.length := trivial
      simp only [MBot.step, hmtx, if_pos hpossible, Option.isSome_some]
    | some r =>
      refine ⟨.unlock, fun _ _ => trivial, ?_⟩
      simp only [MBot.step, hmtx, Option.isSome_some]

end Stopping

/-- The writes among some steps of the threads. -/
def writes (es : List MBot.Event) : Nat := es.countP isWrite

/-- The destructor waits, and the line is as it is then. -/
structure Joining (s : State) : Prop where
  stage : s.stage = .joining
  stopping : Stopping s.line

theorem Joining.step_line (hj : Joining s) {e : MBot.Event} (h : step s (.line e) = some s') :
    Joining s' ∧ s'.joinable = s.joinable ∧ remaining s'.line < remaining s.line ∧
      (isWrite e = true → remaining s.line = 3) := by
  obtain ⟨-, hpermits, l, hl, rfl⟩ := Life.step_line h
  have hgoes : goesOn e = true := by
    cases e with
    | drive cmd msg => cases hj.stage.symm.trans hpermits
    | stop => exact hpermits.elim
    | timesync _ _ | lock _ | write _ | unlock => rfl
  obtain ⟨hstopping, hlt, hwrite⟩ := hj.stopping.step hgoes hl
  exact ⟨⟨hj.stage, hstopping⟩, rfl, hlt, hwrite⟩

/-- The threads make at most as many steps as remain, and one write where the
loop has not made it. -/
theorem Joining.runFrom_line {flag : Bool} (hj : Joining s) {es : List MBot.Event}
    (h : (life flag).runFrom s (es.map .line) = some s') :
    Joining s' ∧ s'.joinable = s.joinable ∧ es.length + remaining s'.line ≤ remaining s.line ∧
      writes es ≤ if 3 ≤ remaining s.line then 1 else 0 := by
  induction es generalizing s with
  | nil =>
    obtain rfl := Option.some.inj h
    exact ⟨hj, rfl, by simp, Nat.zero_le _⟩
  | cons e es ih =>
    obtain ⟨t, ht, h⟩ := Option.bind_eq_some_iff.mp h
    obtain ⟨hj', hjoinable, hlt, hwrite⟩ := hj.step_line ht
    obtain ⟨hjs, hjoinable', hle, hwrites⟩ := ih hj' h
    refine ⟨hjs, hjoinable'.trans hjoinable, by rw [List.length_cons]; omega, ?_⟩
    have hcons : writes (e :: es) ≤ writes es + if remaining s.line = 3 then 1 else 0 := by
      rw [writes, List.countP_cons, ← writes]
      cases e with
      | write r => simp [hwrite rfl, isWrite]
      | drive _ _ | timesync _ _ | lock _ | unlock | stop => simp [isWrite]
    split at hcons <;> split at hwrites <;> split <;> omega

theorem run_loopHolds {flag : Bool} {es : List MBot.Event} {l : MBot.State}
    (hrun : (serial flag).run es = some l) : LoopHolds l := by
  refine (serial flag).run_invariant (I := fun _ l => LoopHolds l) ?_ ?_ hrun
  · exact iff_of_false nofun fun ⟨sec, hsec, _⟩ => nomatch hsec
  · intro es l e l' _ h hstep
    exact step_loopHolds h hstep

/-- Whenever the destructor waits, the flag is set and nobody is in `drive`. -/
theorem run_joining {flag : Bool} {es : List Event} (hrun : (life flag).run es = some s) :
    s.stage = .joining → Joining s := by
  refine (life flag).run_invariant (I := fun _ s => s.stage = .joining → Joining s) nofun ?_ hrun
  intro es s e s' hrun ih hstep hstage
  cases e with
  | destroy =>
    have hline := run_line ((life flag).run_concat.mpr ⟨s, hrun, hstep⟩)
    obtain ⟨-, hidle, rfl⟩ := step_destroy hstep
    exact ⟨rfl, (run_invariants hline).2, run_loopHolds hline, rfl, hidle⟩
  | line e =>
    obtain ⟨-, -, l, -, rfl⟩ := step_line hstep
    exact ((ih hstage).step_line hstep).1
  | opened fd =>
    obtain ⟨-, -, rfl⟩ := step_opened hstep
    simp only at hstage
    split at hstage <;> cases hstage
  | configured ok =>
    obtain ⟨-, rfl⟩ := step_configured hstep
    cases ok <;> cases hstage
  | joined =>
    obtain ⟨-, -, rfl⟩ := step_joined hstep
    cases hstage
  | closed =>
    obtain ⟨-, rfl⟩ := step_closed hstep
    cases hstage

/-- Once the destructor has stored the flag, `join` returns. Whatever the device
does with the writes, the threads make at most four more steps, among them one
write; and as long as `join` cannot return one of them can go on. -/
theorem destructor_joins {stopTimesyncFlag : Bool} {es : List Event} {s : State}
    (hrun : (life stopTimesyncFlag).run es = some s) (hstage : s.stage = .joining)
    {ls : List MBot.Event} {s' : State}
    (hfrom : (life stopTimesyncFlag).runFrom s (ls.map .line) = some s') :
    ls.length ≤ 4 ∧ writes ls ≤ 1 ∧
      ((step s' .joined).isSome = true ∨ ∃ e, (step s' (.line e)).isSome = true) := by
  obtain ⟨hj, -, hle, hwrites⟩ := (run_joining hrun hstage).runFrom_line hfrom
  have hfour := remaining_le s.line
  refine ⟨by omega, Nat.le_trans hwrites (by split <;> decide), ?_⟩
  by_cases hjoin : s'.joinable = true → s'.line.timesync = .exited
  · left
    simp only [step, if_pos (And.intro hj.stage hjoin), Option.isSome_some]
  · right
    obtain ⟨hjoinable, hloop⟩ := Classical.not_imp.mp hjoin
    obtain ⟨e, hpermits, hsome⟩ := hj.stopping.exists_step hloop
    refine ⟨e, ?_⟩
    simp only [step, if_pos (And.intro (Or.inr hj.stage) (hpermits s' hjoinable)),
      Option.isSome_map, hsome]

/-- The destructor comes while the loop waits for the mutex. -/
theorem destructor_joins_example :
    ∃ s s', (life false).run [.opened 3, .configured true,
        .line (.timesync ⟨0, 0⟩ fun _ => 0), .destroy] = some s ∧
      (life false).runFrom s (List.map .line [.lock .timesync, .write (.wrote 15), .unlock,
        .timesync ⟨0, 0⟩ fun _ => 0]) = some s' ∧
      ((step s' .joined).isSome = true ∨ ∃ e, (step s' (.line e)).isSome = true) := by
  have hstart : ((life false).run [.opened 3, .configured true,
      .line (.timesync ⟨0, 0⟩ fun _ => 0), .destroy]).map (fun s => (s.stage,
        ((life false).runFrom s (List.map .line [.lock .timesync, .write (.wrote 15), .unlock,
          .timesync ⟨0, 0⟩ fun _ => 0])).isSome)) = some (.joining, true) := by
    decide +kernel
  obtain ⟨s, hrun, heq⟩ := Option.map_eq_some_iff.mp hstart
  obtain ⟨hstage, hsome⟩ := Prod.mk.inj heq
  obtain ⟨s', hfrom⟩ := Option.isSome_iff_exists.mp hsome
  exact ⟨s, s', hrun, hfrom, (destructor_joins hrun hstage hfrom).2.2⟩

end MBot.Life
