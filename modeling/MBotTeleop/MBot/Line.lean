-- SUMMARY: When the drive commands reach the serial line whole: exactly when the device takes their writes whole and tears no write.
import MBotTeleop.Driver.Spin
import MBotTeleop.MBot.Serial

/-!
# Drive commands on the serial line

The mutex keeps the packets apart, and the log of its critical sections is the
order of the packets. What remains is what the device does with each write:
`drive` looks at no result, so a packet that was not accepted whole stays so.
-/

namespace MBot

open Rix.Ipc
open Rix.Msg.Geometry (Twist2DStamped)

-- ---------------------------------------------------------------------------
-- Observations of a state
-- ---------------------------------------------------------------------------

def State.phase (s : State) (call : Nat) : Option Phase := s.calls[call]?.map Call.phase

def State.cmd (s : State) (call : Nat) : Option Twist2DStamped := s.calls[call]?.map Call.cmd

/-- The critical sections so far, in the order in which the mutex was taken. -/
def State.turns (s : State) : List (Turn Writer UInt8) := s.past ++ (s.mtx.map Section.turn).toList

/-- The complete packets of a writer. -/
def State.Carries (s : State) (bytes : List UInt8) : Writer → Prop
  | .drive call => ∃ cmd, s.cmd call = some cmd ∧
      bytes = packet (mbotCmd cmd).bytes TopicId.velCmd.value
  | .timesync => ∃ ts, bytes = packet (timesyncMsg ts).bytes TopicId.timesync.value

/-- The calls of `drive` that have returned. -/
def State.Returned (s : State) : Writer → Prop
  | .drive call => s.phase call = some .returned
  | .timesync => False

instance (s : State) : DecidablePred s.Returned
  | .drive call => inferInstanceAs (Decidable (s.phase call = some .returned))
  | .timesync => .isFalse id

/-- The device has accepted complete packets in the order in which the mutex was
taken, and exactly one of each call of `drive` that has returned, its own. -/
structure State.Delivered (s : State) : Prop where
  intact : Turn.Intact s.Returned s.turns s.accepted
  carries : ∀ t ∈ s.turns, s.Carries t.packet t.writer

/-- The device took every write whole or not at all, and took whole the write of
every call of `drive` that has returned. -/
structure State.TakenWhole (s : State) : Prop where
  untorn : ∀ t ∈ s.turns, t.Untorn
  drives : ∀ t ∈ s.past, t.writer ≠ .timesync → t.Whole

variable {s s' : State}

theorem waiting_drive {call : Nat} {bytes : List UInt8} :
    s.waiting (.drive call) = some bytes ↔ s.phase call = some (.lock bytes) := by
  simp only [State.waiting, State.phase]
  rcases s.calls[call]? with _ | ⟨cmd, _ | _ | _⟩ <;> simp

theorem waiting_timesync {bytes : List UInt8} :
    s.waiting .timesync = some bytes ↔ s.timesync = .lock bytes := by
  unfold State.waiting
  cases s.timesync <;> simp

-- ---------------------------------------------------------------------------
-- Phases
-- ---------------------------------------------------------------------------

theorem calls_driven (cmd : Twist2DStamped) (msg : Memory) (j : Nat) :
    (s.driven cmd msg).calls[j]? =
      if j = s.calls.length then some ⟨cmd, .lock (drivePacket cmd msg)⟩ else s.calls[j]? := by
  simp only [State.driven]
  split
  · rename_i heq
    rw [heq, List.getElem?_concat_length]
  · rename_i hne
    rcases Nat.lt_or_gt_of_ne hne with hlt | hgt
    · exact List.getElem?_append_left hlt
    · rw [List.getElem?_eq_none (by rw [List.length_append]; exact hgt), List.getElem?_eq_none (Nat.le_of_lt hgt)]

theorem phase_driven (cmd : Twist2DStamped) (msg : Memory) (j : Nat) :
    (s.driven cmd msg).phase j =
      if j = s.calls.length then some (.lock (drivePacket cmd msg)) else s.phase j := by
  rw [State.phase, calls_driven]
  split <;> rfl

theorem cmd_driven (cmd : Twist2DStamped) (msg : Memory) (j : Nat) :
    (s.driven cmd msg).cmd j = if j = s.calls.length then some cmd else s.cmd j := by
  rw [State.cmd, calls_driven]
  split <;> rfl

/-- A call has a number below that of the next one. -/
theorem phase_length : s.phase s.calls.length = none := by
  rw [State.phase, List.getElem?_eq_none (Nat.le_refl _)]
  rfl

theorem cmd_length : s.cmd s.calls.length = none := by
  rw [State.cmd, List.getElem?_eq_none (Nat.le_refl _)]
  rfl

theorem phase_setPhase (call : Nat) (phase : Phase) (j : Nat) :
    (s.setPhase call phase).phase j =
      if call = j then (s.phase j).map fun _ => phase else s.phase j := by
  unfold State.setPhase State.phase
  simp only [List.getElem?_modify]
  split <;> cases s.calls[j]? <;> rfl

theorem cmd_setPhase (call : Nat) (phase : Phase) (j : Nat) :
    (s.setPhase call phase).cmd j = s.cmd j := by
  unfold State.setPhase State.cmd
  simp only [List.getElem?_modify]
  split <;> cases s.calls[j]? <;> rfl

theorem phase_locked (w : Writer) (j : Nat) :
    (s.locked w).phase j = if w = .drive j then (s.phase j).map fun _ => .locked else s.phase j := by
  cases w with
  | drive call => simp only [State.locked, phase_setPhase, Writer.drive.injEq]
  | timesync => rfl

theorem phase_unlocked (r : WriteResult) (w : Writer) (j : Nat) :
    (s.unlocked r w).phase j =
      if w = .drive j then (s.phase j).map fun _ => .returned else s.phase j := by
  cases w with
  | drive call => simp only [State.unlocked, phase_setPhase, Writer.drive.injEq]
  | timesync => cases r <;> rfl

theorem cmd_locked (w : Writer) (j : Nat) : (s.locked w).cmd j = s.cmd j := by
  cases w with
  | drive call => exact cmd_setPhase ..
  | timesync => rfl

theorem cmd_unlocked (r : WriteResult) (w : Writer) (j : Nat) : (s.unlocked r w).cmd j = s.cmd j := by
  cases w with
  | drive call => exact cmd_setPhase ..
  | timesync => cases r <;> rfl

@[simp] theorem past_locked (w : Writer) : (s.locked w).past = s.past := by cases w <;> rfl

@[simp] theorem accepted_locked (w : Writer) : (s.locked w).accepted = s.accepted := by
  cases w <;> rfl

@[simp] theorem accepted_unlocked (r : WriteResult) (w : Writer) :
    (s.unlocked r w).accepted = s.accepted := by
  cases w <;> cases r <;> rfl

/-- Whoever has taken the mutex does not wait for it. -/
theorem waiting_of_locked {w w' : Writer} {bytes : List UInt8}
    (h : (s.locked w).waiting w' = some bytes) : s.waiting w' = some bytes := by
  cases w' with
  | drive j =>
    rw [waiting_drive, phase_locked] at h
    split at h
    · obtain ⟨-, -, hphase⟩ := Option.map_eq_some_iff.mp h
      cases hphase
    · exact waiting_drive.mpr h
  | timesync =>
    cases w with
    | drive call => exact h
    | timesync => cases waiting_timesync.mp h

theorem waiting_of_unlocked {r : WriteResult} {w w' : Writer} {bytes : List UInt8}
    (h : (s.unlocked r w).waiting w' = some bytes) : s.waiting w' = some bytes := by
  cases w' with
  | drive j =>
    rw [waiting_drive, phase_unlocked] at h
    split at h
    · obtain ⟨-, -, hphase⟩ := Option.map_eq_some_iff.mp h
      cases hphase
    · exact waiting_drive.mpr h
  | timesync =>
    cases w with
    | drive call => exact h
    | timesync => cases r <;> cases waiting_timesync.mp h

-- ---------------------------------------------------------------------------
-- What a step can do
-- ---------------------------------------------------------------------------

theorem step_timesync {ts : Timespec} {rospkt : Memory}
    (h : step s (.timesync ts rospkt) = some s') :
    ∃ loop, s' = { s with timesync := loop } ∧
      ∀ bytes, loop = .lock bytes →
        bytes = packet (timesyncMsg ts).bytes TopicId.timesync.value := by
  unfold step at h
  cases hloop : s.timesync with
  | top =>
    simp only [hloop, State.timesyncRound, timesyncPacket_eq, Option.some.injEq] at h
    split at h
    · exact ⟨.exited, h.symm, nofun⟩
    · exact ⟨_, h.symm, fun bytes heq => (Loop.lock.inj heq).symm⟩
  | lock _ | locked | exited => simp [hloop] at h

theorem step_lock {w : Writer} (h : step s (.lock w) = some s') :
    ∃ bytes, s.mtx = none ∧ s.waiting w = some bytes ∧
      s' = { s.locked w with mtx := some ⟨w, bytes, none⟩ } := by
  simp only [step] at h
  split at h
  · rename_i bytes hmtx hwaiting
    exact ⟨bytes, hmtx, hwaiting, (Option.some.inj h).symm⟩
  · cases h

theorem step_write {r : WriteResult} (h : step s (.write r) = some s') :
    ∃ w bytes, s.mtx = some ⟨w, bytes, none⟩ ∧ r.accepted ≤ bytes.length ∧
      s' = { s with
        mtx := some ⟨w, bytes, some r⟩, accepted := s.accepted ++ bytes.take r.accepted } := by
  simp only [step] at h
  split at h
  · rename_i w bytes hmtx
    split at h
    · rename_i hpossible
      exact ⟨w, bytes, hmtx, hpossible.accepted_le, (Option.some.inj h).symm⟩
    · cases h
  · cases h

theorem step_unlock (h : step s .unlock = some s') :
    ∃ w bytes r, s.mtx = some ⟨w, bytes, some r⟩ ∧
      s' = { s.unlocked r w with
        mtx := none, past := s.past ++ [Section.turn ⟨w, bytes, some r⟩] } := by
  simp only [step] at h
  split at h
  · rename_i w bytes r hmtx
    exact ⟨w, bytes, r, hmtx, (Option.some.inj h).symm⟩
  · cases h

/-- What a step does to the log of the critical sections. -/
theorem step_turns {e : Event} (h : step s e = some s') :
    (s'.past = s.past ∧ s'.turns = s.turns ∧ s'.accepted = s.accepted) ∨
    (∃ w bytes, s'.past = s.past ∧ s.turns = s.past ∧ s'.turns = s.past ++ [⟨w, bytes, 0⟩] ∧
      s'.accepted = s.accepted) ∨
    (∃ w bytes r, r ≤ bytes.length ∧ s'.past = s.past ∧ s.turns = s.past ++ [⟨w, bytes, 0⟩] ∧
      s'.turns = s.past ++ [⟨w, bytes, r⟩] ∧ s'.accepted = s.accepted ++ bytes.take r) ∨
    (s'.turns = s.turns ∧ s'.past = s.turns ∧ s'.accepted = s.accepted) := by
  cases e with
  | drive cmd msg =>
    obtain rfl := Option.some.inj h
    exact .inl ⟨rfl, rfl, rfl⟩
  | timesync ts rospkt =>
    obtain ⟨loop, rfl, -⟩ := step_timesync h
    exact .inl ⟨rfl, rfl, rfl⟩
  | lock w =>
    obtain ⟨bytes, hmtx, -, rfl⟩ := step_lock h
    exact .inr (.inl ⟨w, bytes, by simp, by simp [State.turns, hmtx],
      by simp [State.turns, Section.turn], by simp⟩)
  | write r =>
    obtain ⟨w, bytes, hmtx, hle, rfl⟩ := step_write h
    exact .inr (.inr (.inl ⟨w, bytes, r.accepted, hle, rfl,
      by simp [State.turns, hmtx, Section.turn], by simp [State.turns, Section.turn], rfl⟩))
  | unlock =>
    obtain ⟨w, bytes, r, hmtx, rfl⟩ := step_unlock h
    exact .inr (.inr (.inr ⟨by simp [State.turns, hmtx], by simp [State.turns, hmtx], by simp⟩))
  | stop =>
    obtain rfl := Option.some.inj h
    exact .inl ⟨rfl, rfl, rfl⟩

-- ---------------------------------------------------------------------------
-- The invariant
-- ---------------------------------------------------------------------------

/-- The device holds what the log says it accepted. -/
structure Logged (s : State) : Prop where
  stream : s.accepted = Turn.stream s.turns
  le : ∀ t ∈ s.turns, t.accepted ≤ t.packet.length

/-- How often a call in this phase has taken the mutex. -/
def Phase.locks : Phase → Nat
  | lock _ => 0
  | locked | returned => 1

/-- The threads and the log agree. -/
structure Threads (s : State) : Prop where
  carries : ∀ t ∈ s.turns, s.Carries t.packet t.writer
  waiting : ∀ {w bytes}, s.waiting w = some bytes → s.Carries bytes w
  count : ∀ call, s.turns.countP (fun t => t.writer = .drive call) =
    (s.phase call).elim 0 Phase.locks
  holder : ∀ {sec call}, s.mtx = some sec → sec.writer = .drive call →
    s.phase call = some .locked
  past : ∀ {t call}, t ∈ s.past → t.writer = .drive call → s.phase call = some .returned

theorem step_logged {e : Event} (hlog : Logged s) (h : step s e = some s') : Logged s' := by
  obtain ⟨hstream, hle⟩ := hlog
  obtain ⟨-, hturns, haccepted⟩ | ⟨w, bytes, -, hturns, hturns', haccepted⟩ |
    ⟨w, bytes, r, hr, -, hturns, hturns', haccepted⟩ | ⟨hturns, -, haccepted⟩ := step_turns h
  · exact ⟨by rw [haccepted, hturns, hstream], by rwa [hturns]⟩
  · refine ⟨?_, fun t ht => ?_⟩
    · rw [haccepted, hturns', Turn.stream_concat, List.take_zero, List.append_nil, hstream, hturns]
    · rw [hturns', ← hturns] at ht
      rcases List.mem_append.mp ht with ht | ht
      · exact hle t ht
      · rw [List.mem_singleton.mp ht]
        exact Nat.zero_le _
  · refine ⟨?_, fun t ht => ?_⟩
    · rw [haccepted, hstream, hturns, hturns', Turn.stream_concat, Turn.stream_concat,
        List.take_zero, List.append_nil]
    · rw [hturns'] at ht
      rcases List.mem_append.mp ht with ht | ht
      · exact hle t (hturns ▸ List.mem_append_left _ ht)
      · rw [List.mem_singleton.mp ht]
        exact hr
  · exact ⟨by rw [haccepted, hturns, hstream], by rwa [hturns]⟩

/-- The packet of a writer is the same as long as the command is. -/
theorem State.Carries.mono {bytes : List UInt8} {w : Writer} (h : s.Carries bytes w)
    (hcmd : ∀ call cmd, s.cmd call = some cmd → s'.cmd call = some cmd) : s'.Carries bytes w := by
  cases w with
  | drive call =>
    obtain ⟨cmd, hsome, hbytes⟩ := h
    exact ⟨cmd, hcmd call cmd hsome, hbytes⟩
  | timesync => exact h

theorem threads_drive (hs : Threads s) (cmd : Twist2DStamped) (msg : Memory) :
    Threads (s.driven cmd msg) := by
  have hphase {j : Nat} {phase : Phase} (hj : s.phase j = some phase) :
      (s.driven cmd msg).phase j = some phase := by
    rw [phase_driven, if_neg, hj]
    rintro rfl
    cases phase_length.symm.trans hj
  have hcmd (j : Nat) (cmd' : Twist2DStamped) (hj : s.cmd j = some cmd') :
      (s.driven cmd msg).cmd j = some cmd' := by
    rw [cmd_driven, if_neg, hj]
    rintro rfl
    cases cmd_length.symm.trans hj
  refine ⟨fun t ht => (hs.carries t ht).mono hcmd, fun {w bytes} hwaiting => ?_, fun j => ?_,
    fun hmtx hwriter => hphase (hs.holder hmtx hwriter),
    fun ht hwriter => hphase (hs.past ht hwriter)⟩
  · cases w with
    | drive j =>
      have hj := waiting_drive.mp hwaiting
      rw [phase_driven] at hj
      split at hj
      · rename_i heq
        cases hj
        exact ⟨cmd, by rw [cmd_driven, if_pos heq], drivePacket_eq cmd msg⟩
      · exact (hs.waiting (waiting_drive.mpr hj)).mono hcmd
    | timesync => exact (hs.waiting (w := .timesync) hwaiting).mono hcmd
  · rw [phase_driven]
    split
    · rename_i heq
      subst heq
      exact (hs.count _).trans (by rw [phase_length]; rfl)
    · exact hs.count j

theorem threads_timesync (hs : Threads s) {loop : Loop}
    (hloop : ∀ bytes, loop = .lock bytes → s.Carries bytes .timesync) :
    Threads { s with timesync := loop } := by
  refine ⟨hs.carries, fun {w bytes} hwaiting => ?_, hs.count, hs.holder, hs.past⟩
  cases w with
  | drive call => exact hs.waiting (w := .drive call) hwaiting
  | timesync => exact hloop bytes (waiting_timesync.mp hwaiting)

theorem threads_lock (hs : Threads s) {w : Writer} {bytes : List UInt8} (hmtx : s.mtx = none)
    (hwaiting : s.waiting w = some bytes) :
    Threads { s.locked w with mtx := some ⟨w, bytes, none⟩ } := by
  have hcmd (j : Nat) (cmd : Twist2DStamped) (hj : s.cmd j = some cmd) :
      (s.locked w).cmd j = some cmd := by
    rw [cmd_locked, hj]
  have hturns : State.turns { s.locked w with mtx := some ⟨w, bytes, none⟩ } =
      s.turns ++ [⟨w, bytes, 0⟩] := by
    simp [State.turns, hmtx, Section.turn]
  refine ⟨fun t ht => ?_, fun {w' bytes'} hwaiting' => ?_, fun j => ?_,
    fun {sec j} hsec hwriter => ?_, fun {t j} ht hwriter => ?_⟩
  · rw [hturns] at ht
    rcases List.mem_append.mp ht with ht | ht
    · exact (hs.carries t ht).mono hcmd
    · rw [List.mem_singleton.mp ht]
      exact (hs.waiting hwaiting).mono hcmd
  · exact (hs.waiting (waiting_of_locked hwaiting')).mono hcmd
  · rw [hturns, List.countP_append, hs.count j]
    change _ = ((s.locked w).phase j).elim 0 Phase.locks
    rw [phase_locked]
    split
    · rename_i heq
      subst heq
      simp [waiting_drive.mp hwaiting, Phase.locks]
    · rename_i hne
      simp [hne]
  · cases hsec
    obtain rfl : w = .drive j := hwriter
    change (s.locked _).phase j = _
    rw [phase_locked, if_pos rfl, waiting_drive.mp hwaiting]
    rfl
  · have hj := hs.past ((past_locked w).subst ht) hwriter
    change (s.locked _).phase j = _
    rw [phase_locked, if_neg, hj]
    rintro rfl
    cases hj.symm.trans (waiting_drive.mp hwaiting)

theorem threads_write (hs : Threads s) {w : Writer} {bytes more : List UInt8} {r : WriteResult}
    (hmtx : s.mtx = some ⟨w, bytes, none⟩) :
    Threads { s with mtx := some ⟨w, bytes, some r⟩, accepted := s.accepted ++ more } := by
  have hturns : s.turns = s.past ++ [⟨w, bytes, 0⟩] := by simp [State.turns, hmtx, Section.turn]
  refine ⟨fun t ht => ?_, hs.waiting, fun j => ?_, fun {sec j} hsec hwriter => ?_, hs.past⟩
  · rcases List.mem_append.mp ht with ht | ht
    · exact hs.carries t (hturns ▸ List.mem_append_left _ ht)
    · cases List.mem_singleton.mp ht
      exact hs.carries ⟨w, bytes, 0⟩ (hturns ▸ List.mem_append_right _ List.mem_cons_self)
  · refine Eq.trans ?_ (hs.count j)
    rw [hturns]
    simp [State.turns, Section.turn]
  · cases hsec
    exact hs.holder hmtx hwriter

theorem threads_unlock (hs : Threads s) {w : Writer} {bytes : List UInt8} {r : WriteResult}
    (hmtx : s.mtx = some ⟨w, bytes, some r⟩) :
    Threads { s.unlocked r w with
      mtx := none, past := s.past ++ [Section.turn ⟨w, bytes, some r⟩] } := by
  have hcmd (j : Nat) (cmd : Twist2DStamped) (hj : s.cmd j = some cmd) :
      (s.unlocked r w).cmd j = some cmd := by
    rw [cmd_unlocked, hj]
  have hturns : State.turns { s.unlocked r w with
      mtx := none, past := s.past ++ [Section.turn ⟨w, bytes, some r⟩] } = s.turns := by
    simp [State.turns, hmtx]
  have hlocked {j : Nat} (heq : w = .drive j) : s.phase j = some .locked := hs.holder hmtx heq
  refine ⟨fun t ht => (hs.carries t (hturns ▸ ht)).mono hcmd,
    fun hwaiting => (hs.waiting (waiting_of_unlocked hwaiting)).mono hcmd, fun j => ?_, nofun,
    fun {t j} ht hwriter => ?_⟩
  · rw [hturns, hs.count j]
    change _ = ((s.unlocked r w).phase j).elim 0 Phase.locks
    rw [phase_unlocked]
    split
    · rename_i heq
      rw [hlocked heq]
      rfl
    · rfl
  · change (s.unlocked r w).phase j = _
    rw [phase_unlocked]
    split
    · rename_i heq
      rw [hlocked heq]
      rfl
    · rename_i hne
      rcases List.mem_append.mp ht with ht | ht
      · exact hs.past ht hwriter
      · cases List.mem_singleton.mp ht
        exact (hne hwriter).elim

theorem step_threads {e : Event} (hs : Threads s) (h : step s e = some s') : Threads s' := by
  cases e with
  | drive cmd msg =>
    obtain rfl := Option.some.inj h
    exact threads_drive hs cmd msg
  | timesync ts rospkt =>
    obtain ⟨loop, rfl, hloop⟩ := step_timesync h
    exact threads_timesync hs fun bytes heq => ⟨ts, hloop bytes heq⟩
  | lock w =>
    obtain ⟨bytes, hmtx, hwaiting, rfl⟩ := step_lock h
    exact threads_lock hs hmtx hwaiting
  | write r =>
    obtain ⟨w, bytes, hmtx, -, rfl⟩ := step_write h
    exact threads_write hs hmtx
  | unlock =>
    obtain ⟨w, bytes, r, hmtx, rfl⟩ := step_unlock h
    exact threads_unlock hs hmtx
  | stop =>
    obtain rfl := Option.some.inj h
    exact ⟨hs.carries, hs.waiting, hs.count, hs.holder, hs.past⟩

theorem run_invariants {stopFlag : Bool} {es : List Event} (hrun : (serial stopFlag).run es = some s) :
    Logged s ∧ Threads s := by
  refine (serial stopFlag).run_invariant (I := fun _ s => Logged s ∧ Threads s) ?_ ?_ hrun
  · refine ⟨⟨rfl, nofun⟩, nofun, fun {w bytes} hwaiting => ?_, fun _ => rfl, nofun, nofun⟩
    cases w with
    | drive call => cases hwaiting
    | timesync => cases hwaiting
  · intro es s e s' _ hinv hstep
    exact ⟨step_logged hinv.1 hstep, step_threads hinv.2 hstep⟩

-- ---------------------------------------------------------------------------
-- Delivery
-- ---------------------------------------------------------------------------

theorem State.Carries.isFrame {bytes : List UInt8} {w : Writer} (h : s.Carries bytes w) :
    rosserial.IsFrame bytes := by
  cases w with
  | drive call =>
    obtain ⟨cmd, -, rfl⟩ := h
    exact isFrame_packet (by simp) _
  | timesync =>
    obtain ⟨ts, rfl⟩ := h
    exact isFrame_packet (by simp) _

/-- The packets of drive commands are known by their length. -/
theorem State.Carries.length_eq {bytes : List UInt8} {w : Writer} (h : s.Carries bytes w) :
    bytes.length = 28 ↔ w ≠ .timesync := by
  cases w with
  | drive call =>
    obtain ⟨cmd, -, rfl⟩ := h
    simp [rosPkgLength, rosHeaderLength, rosFooterLength]
  | timesync =>
    obtain ⟨ts, rfl⟩ := h
    simp [rosPkgLength, rosHeaderLength, rosFooterLength]

theorem State.Returned.ne_timesync {w : Writer} (h : s.Returned w) : w ≠ .timesync := by
  rintro rfl
  exact h

theorem Threads.count_returned (hs : Threads s) {w : Writer} (hw : s.Returned w) :
    s.turns.countP (fun t => t.writer = w) = 1 := by
  cases w with
  | drive call =>
    rw [hs.count call, hw]
    rfl
  | timesync => exact hw.elim

/-- The turn of a call that has returned is over. -/
theorem Threads.mem_past (hs : Threads s) {t : Turn Writer UInt8} (ht : t ∈ s.turns)
    (hret : s.Returned t.writer) : t ∈ s.past := by
  rcases List.mem_append.mp ht with ht | ht
  · exact ht
  · obtain ⟨sec, hsec, rfl⟩ := Option.map_eq_some_iff.mp (Option.mem_toList.mp ht)
    cases hwriter : sec.writer with
    | drive call =>
      have hphase : s.phase call = some .returned := by
        simpa only [Section.turn, hwriter, State.Returned] using hret
      cases (hs.holder hsec hwriter).symm.trans hphase
    | timesync => exact (hret.ne_timesync hwriter).elim

theorem delivered_of_takenWhole (hlog : Logged s) (hs : Threads s) (htaken : s.TakenWhole) :
    s.Delivered := by
  refine ⟨?_, hs.carries⟩
  rw [hlog.stream]
  refine Turn.intact_of_untorn htaken.untorn (fun t ht hret => ?_) fun w => hs.count_returned
  exact htaken.drives t (hs.mem_past ht hret) hret.ne_timesync

/-- A write that tears its packet is seen at once, by the framing. A drive
command that was not written at all is missed when `drive` returns. -/
theorem takenWhole_of_delivered {e : Event} (htaken : s.TakenWhole) (hlog' : Logged s')
    (hs' : Threads s') (h : step s e = some s') (hdel : s'.Delivered) : s'.TakenWhole := by
  obtain ⟨huntorn, hdrives⟩ := htaken
  have hintact := hdel.intact
  rw [hlog'.stream] at hintact
  have hframes (t : Turn Writer UInt8) (ht : t ∈ s'.turns) : rosserial.IsFrame t.packet :=
    (hs'.carries t ht).isFrame
  obtain ⟨hpast, hturns, -⟩ | ⟨w, bytes, hpast, hturns, hturns', -⟩ |
    ⟨w, bytes, r, hr, hpast, hturns, hturns', -⟩ | ⟨hturns, hpast, -⟩ := step_turns h
  · exact ⟨hturns ▸ huntorn, hpast ▸ hdrives⟩
  · refine ⟨fun t ht => ?_, hpast ▸ hdrives⟩
    rw [hturns', ← hturns] at ht
    rcases List.mem_append.mp ht with ht | ht
    · exact huntorn t ht
    · exact .inl (List.mem_singleton.mp ht ▸ rfl)
  · have hbefore (t : Turn Writer UInt8) (ht : t ∈ s.past) : t.Untorn :=
      huntorn t (hturns ▸ List.mem_append_left _ ht)
    rw [hturns'] at hintact hframes
    have hlast := Turn.untorn_of_intact hframes hr hbefore hintact
    refine ⟨fun t ht => ?_, hpast ▸ hdrives⟩
    rw [hturns'] at ht
    rcases List.mem_append.mp ht with ht | ht
    · exact hbefore t ht
    · exact List.mem_singleton.mp ht ▸ hlast
  · have hreturned (t : Turn Writer UInt8) (ht : t ∈ s'.turns) :
        s'.Returned t.writer ↔ t.writer ≠ .timesync := by
      refine ⟨State.Returned.ne_timesync, fun hne => ?_⟩
      cases hwriter : t.writer with
      | drive call => exact hs'.past (hpast ▸ hturns ▸ ht) hwriter
      | timesync => exact (hne hwriter).elim
    have hmarked (t : Turn Writer UInt8) (ht : t ∈ s'.turns) :
        decide (t.packet.length = 28) = decide (s'.Returned t.writer) :=
      decide_eq_decide.mpr ((hs'.carries t ht).length_eq.trans (hreturned t ht).symm)
    have hwhole := Turn.whole_of_intact (fun bytes => decide (bytes.length = 28)) hframes
      (hturns ▸ huntorn) hmarked (fun w => hs'.count_returned) hintact
    refine ⟨hturns ▸ huntorn, fun t ht hne => ?_⟩
    have ht' : t ∈ s'.turns := hturns ▸ hpast ▸ ht
    exact hwhole t ht' ((hreturned t ht').mpr hne)

/-- The log only grows. -/
theorem takenWhole_of_step {e : Event} (h : step s e = some s') (htaken : s'.TakenWhole) :
    s.TakenWhole := by
  obtain ⟨huntorn, hdrives⟩ := htaken
  obtain ⟨hpast, hturns, -⟩ | ⟨w, bytes, hpast, hturns, hturns', -⟩ |
    ⟨w, bytes, r, -, hpast, hturns, hturns', -⟩ | ⟨hturns, hpast, -⟩ := step_turns h
  · exact ⟨hturns ▸ huntorn, hpast ▸ hdrives⟩
  · exact ⟨fun t ht => huntorn t (hturns' ▸ List.mem_append_left _ (hturns ▸ ht)), hpast ▸ hdrives⟩
  · refine ⟨fun t ht => ?_, hpast ▸ hdrives⟩
    rw [hturns] at ht
    rcases List.mem_append.mp ht with ht | ht
    · exact huntorn t (hturns' ▸ List.mem_append_left _ ht)
    · exact .inl (List.mem_singleton.mp ht ▸ rfl)
  · exact ⟨hturns ▸ huntorn, fun t ht => hdrives t (hpast ▸ List.mem_append_left _ ht)⟩

/-- In a run of any number of calls of `drive` and the timesync loop, the device
holds complete packets in the order of the mutex, one for each call that has
returned, in all states of the run, exactly when it took every write whole or
not at all and took whole the writes of the calls that have returned. -/
theorem drive_delivered_iff {stopFlag : Bool} {es : List Event}
    (hrun : (serial stopFlag).run es = some s) :
    (∀ es₁ s₁, es₁ <+: es → (serial stopFlag).run es₁ = some s₁ → s₁.Delivered) ↔ s.TakenWhole := by
  refine (serial stopFlag).run_invariant (I := fun es s =>
    (∀ es₁ s₁, es₁ <+: es → (serial stopFlag).run es₁ = some s₁ → s₁.Delivered) ↔ s.TakenWhole)
    ?_ ?_ hrun
  · have hinit : (serial stopFlag).init.TakenWhole := ⟨nofun, nofun⟩
    refine iff_of_true (fun es₁ s₁ hpre hrun₁ => ?_) hinit
    obtain rfl := List.prefix_nil.mp hpre
    obtain rfl := Option.some.inj hrun₁
    obtain ⟨hlog, hs⟩ := run_invariants hrun₁
    exact delivered_of_takenWhole hlog hs hinit
  · intro es s e s' hrun ih hstep
    have hrun' := (serial stopFlag).run_concat.mpr ⟨s, hrun, hstep⟩
    obtain ⟨hlog', hs'⟩ := run_invariants hrun'
    constructor
    · intro hall
      have htaken := ih.mp fun es₁ s₁ hpre => hall es₁ s₁ (hpre.trans (List.prefix_append ..))
      exact takenWhole_of_delivered htaken hlog' hs' hstep (hall _ _ List.prefix_rfl hrun')
    · intro htaken es₁ s₁ hpre hrun₁
      rcases List.prefix_concat_iff.mp hpre with rfl | hpre
      · obtain rfl := Option.some.inj (hrun₁.symm.trans hrun')
        exact delivered_of_takenWhole hlog' hs' htaken
      · exact ih.mpr (takenWhole_of_step hstep htaken) es₁ s₁ hpre hrun₁

/-- Two calls of `drive` around a round of `timesync` whose write fails. -/
theorem drive_delivered_iff_example :
    ∃ s, (serial false).run
        [.drive MBotDriver.stop fun _ => 0, .timesync ⟨1, 0⟩ fun _ => 7, .lock .timesync,
          .drive MBotDriver.stop fun _ => 0, .write (.failed .eagain), .unlock, .lock (.drive 1),
          .write (.wrote 28), .unlock, .lock (.drive 0), .write (.wrote 28), .unlock] = some s ∧
      s.accepted.length = 56 ∧ s.Delivered := by
  have hlog : ((serial false).run
        [.drive MBotDriver.stop fun _ => 0, .timesync ⟨1, 0⟩ fun _ => 7, .lock .timesync,
          .drive MBotDriver.stop fun _ => 0, .write (.failed .eagain), .unlock, .lock (.drive 1),
          .write (.wrote 28), .unlock, .lock (.drive 0), .write (.wrote 28), .unlock]).map
      (fun s => (s.accepted.length, decide (∀ t ∈ s.turns, t.Untorn),
        decide (∀ t ∈ s.past, t.writer ≠ .timesync → t.Whole))) = some (56, true, true) := by
    decide +kernel
  obtain ⟨s, hrun, heq⟩ := Option.map_eq_some_iff.mp hlog
  simp only [Prod.mk.injEq, decide_eq_true_eq] at heq
  obtain ⟨hlen, huntorn, hdrives⟩ := heq
  exact ⟨s, hrun, hlen,
    (drive_delivered_iff hrun).mpr ⟨huntorn, hdrives⟩ _ _ List.prefix_rfl hrun⟩

/-- The input of the driver ends, the device has no room for the stop command
that `spin` then sends, and `drive` returns all the same. -/
theorem drive_stop_lost :
    MBotDriver.spin.run [.poll false, .read .eof] = some ⟨.returned, [MBotDriver.stop]⟩ ∧
    ∃ s, (serial false).run
        [.drive MBotDriver.stop fun _ => 0, .lock (.drive 0), .write (.failed .eagain),
          .unlock] = some s ∧ s.Returned (.drive 0) ∧ s.accepted = [] ∧ ¬ s.Delivered := by
  have hlog : ((serial false).run
        [.drive MBotDriver.stop fun _ => 0, .lock (.drive 0), .write (.failed .eagain),
          .unlock]).map (fun s => (s.phase 0, s.accepted)) = some (some .returned, []) := by
    decide +kernel
  obtain ⟨s, hrun, heq⟩ := Option.map_eq_some_iff.mp hlog
  obtain ⟨hret, hnone⟩ := Prod.mk.inj heq
  refine ⟨by decide, s, hrun, hret, hnone, fun hdel => ?_⟩
  obtain ⟨kept, hsub, haccepted, hcount⟩ := hdel.intact
  obtain ⟨t, ht, hwriter⟩ := List.countP_pos_iff.mp
    (Nat.lt_of_lt_of_eq Nat.one_pos (hcount (.drive 0) hret).symm)
  have hlen : t.packet.length = 28 := (hdel.carries t (hsub.subset ht)).length_eq.mpr
    (of_decide_eq_true hwriter ▸ nofun)
  have hempty : t.packet = [] := by
    rw [hnone] at haccepted
    exact List.flatten_eq_nil_iff.mp haccepted.symm _ (List.mem_map_of_mem ht)
  rw [hempty] at hlen
  cases hlen

end MBot
