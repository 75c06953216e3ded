-- SUMMARY: Drive calls of one thread on the serial line: they take the mutex in order, and a receiver reads back the commands whose writes were accepted.
import MBotTeleop.MBot.Line
import MBotTeleop.MBot.Receiver

/-!
# The commands on the serial line

A thread that calls `drive` again only after `drive` has returned has its
packets on the line in the order of its calls, with packets of the timesync loop
between them. The receiver cuts the line into packets, and keeps those that it
accepts as a velocity command.
-/

namespace MBot

open Checksum
open Rix.Ipc
open Rix.Msg.Geometry (Twist2DStamped)

-- ---------------------------------------------------------------------------
-- The receiver
-- ---------------------------------------------------------------------------

instance (bytes : List UInt8) : Decidable (Checked bytes) :=
  decidable_of_iff (headerSum bytes % 256 = 255 ∧ bodySum bytes % 256 = 255)
    ⟨fun h => ⟨h.1, h.2⟩, fun h => ⟨h.header, h.body⟩⟩

/-- The velocity command in a packet, if a receiver accepts the packet as one. -/
def readCommand (bytes : List UInt8) : Option SerialTwist2D :=
  if segment bytes 0 2 = [syncFlag, versionFlag] ∧ bytes.length = 20 + rosPkgLength ∧
      LittleEndian.decode (segment bytes 2 4) = 20 ∧
      LittleEndian.decode (segment bytes 5 7) = TopicId.velCmd.value.toNat ∧ Checked bytes then
    some (SerialTwist2D.ofBytes (segment bytes 7 27))
  else
    none

/-- What a receiver reads from the line. -/
def received (line : List UInt8) : List SerialTwist2D :=
  (rosserial.split line).1.filterMap readCommand

theorem readCommand_velCmd (t : SerialTwist2D) :
    readCommand (packet t.bytes TopicId.velCmd.value) = some t := by
  have hsize : t.bytes.length = 20 := SerialTwist2D.length_bytes t
  have hshort : t.bytes.length < 2 ^ 16 := by
    rw [hsize]
    decide
  have haccepted := packet_accepted hshort TopicId.velCmd.value
  have hmessage := haccepted.message
  rw [hsize] at hmessage
  rw [readCommand, if_pos, hmessage, SerialTwist2D.ofBytes_bytes]
  refine ⟨haccepted.flags, ?_, haccepted.length.trans hsize, haccepted.topic, haccepted.checked⟩
  rw [haccepted.whole, hsize]

theorem readCommand_timesync (t : SerialTimestamp) :
    readCommand (packet t.bytes TopicId.timesync.value) = none := by
  rw [readCommand, if_neg]
  rintro ⟨-, hlen, -⟩
  rw [packet_length, SerialTimestamp.length_bytes] at hlen
  cases hlen

-- ---------------------------------------------------------------------------
-- Calls that do not overlap
-- ---------------------------------------------------------------------------

def Writer.call? : Writer → Option Nat
  | drive call => some call
  | timesync => none

/-- The calls of `drive` so far, by their commands. -/
def State.cmds (s : State) : List Twist2DStamped := s.calls.map Call.cmd

/-- No call of `drive` is in progress. -/
def State.Idle (s : State) : Prop := ∀ call ∈ s.calls, call.phase = .returned

instance (s : State) : Decidable s.Idle := inferInstanceAs (Decidable (∀ call ∈ s.calls, _))

/-- The calls of `drive` that have taken the mutex, in the order in which they did. -/
def State.entered (s : State) : List Nat := s.turns.filterMap (·.writer.call?)

/-- Every call was made after the one before it had returned. -/
structure InOrder (s : State) : Prop where
  returned : ∀ j, j + 1 < s.calls.length → s.phase j = some .returned
  entered : ∃ m, s.entered = List.range m

variable {s s' : State}

theorem State.Idle.phase (h : s.Idle) {j : Nat} (hj : j < s.calls.length) :
    s.phase j = some .returned := by
  rw [State.phase, List.getElem?_eq_getElem hj]
  exact congrArg some (h _ (List.getElem_mem hj))

theorem phase_isSome_iff {j : Nat} : (s.phase j).isSome ↔ j < s.calls.length := by
  rw [State.phase, Option.isSome_map, isSome_getElem?]

theorem phase_of_entered (hs : Threads s) {m : Nat} (hm : s.entered = List.range m) (j : Nat) :
    (s.phase j).elim 0 Phase.locks = if j < m then 1 else 0 := by
  have hcount : s.turns.countP (fun t => t.writer = .drive j) = s.entered.count j := by
    rw [State.entered, List.count, List.countP_filterMap]
    apply List.countP_congr
    intro t _
    cases hw : t.writer <;> simp [Writer.call?]
  rw [← hs.count j, hcount, hm, List.count_range]

@[simp] theorem length_calls_locked (w : Writer) : (s.locked w).calls.length = s.calls.length := by
  cases w <;> simp [State.locked, State.setPhase]

@[simp] theorem length_calls_unlocked (r : WriteResult) (w : Writer) :
    (s.unlocked r w).calls.length = s.calls.length := by
  cases w with
  | drive call => simp [State.unlocked, State.setPhase]
  | timesync => cases r <;> rfl

/-- Nothing happens to the calls and to the order of the mutex. -/
theorem InOrder.congr (ho : InOrder s) (hcalls : s'.calls = s.calls)
    (hentered : s'.entered = s.entered) : InOrder s' := by
  obtain ⟨hreturned, m, hm⟩ := ho
  refine ⟨fun j hj => ?_, m, hentered.trans hm⟩
  rw [hcalls] at hj
  simp only [State.phase, hcalls]
  exact hreturned j hj

theorem inOrder_drive (ho : InOrder s) (hidle : s.Idle) (cmd : Twist2DStamped) (msg : Memory) :
    InOrder (s.driven cmd msg) := by
  refine ⟨fun j hj => ?_, ho.entered⟩
  have hlt : j < s.calls.length := by
    simp only [State.driven, List.length_append, List.length_singleton] at hj
    omega
  rw [phase_driven, if_neg (Nat.ne_of_lt hlt)]
  exact hidle.phase hlt

/-- The call that takes the mutex is the next one in order: those before it have
returned, and it has not had the mutex before. -/
theorem inOrder_lock (hs : Threads s) (ho : InOrder s) {w : Writer} {bytes : List UInt8}
    (hmtx : s.mtx = none) (hwaiting : s.waiting w = some bytes) :
    InOrder { s.locked w with mtx := some ⟨w, bytes, none⟩ } := by
  obtain ⟨hreturned, m, hm⟩ := ho
  have hentered : State.entered { s.locked w with mtx := some ⟨w, bytes, none⟩ } =
      s.entered ++ w.call?.toList := by
    have hturns : State.turns { s.locked w with mtx := some ⟨w, bytes, none⟩ } =
        s.turns ++ [⟨w, bytes, 0⟩] := by
      simp [State.turns, hmtx, Section.turn]
    rw [State.entered, hturns, List.filterMap_append]
    cases w <;> rfl
  constructor
  · intro j hj
    change (s.locked w).phase j = _
    rw [phase_locked]
    have hphase : s.phase j = some .returned := hreturned j (by simpa using hj)
    split
    · rename_i hw
      subst hw
      cases hphase.symm.trans (waiting_drive.mp hwaiting)
    · exact hphase
  · cases w with
    | timesync => exact ⟨m, by rw [hentered, hm]; exact List.append_nil _⟩
    | drive call =>
      have hcall := waiting_drive.mp hwaiting
      have hlt : call < s.calls.length := phase_isSome_iff.mp (by rw [hcall]; rfl)
      have hlocks (j : Nat) := phase_of_entered hs hm j
      have hle : m ≤ call := by
        have := hlocks call
        rw [hcall] at this
        by_contra hnot
        rw [if_pos (by omega)] at this
        cases this
      have hge : call ≤ m := by
        by_contra hnot
        have := hlocks m
        rw [hreturned m (by omega), if_neg (Nat.lt_irrefl m)] at this
        cases this
      obtain rfl : m = call := Nat.le_antisymm hle hge
      exact ⟨m + 1, by rw [hentered, hm, List.range_succ]; rfl⟩

theorem inOrder_unlock (ho : InOrder s) {w : Writer} {bytes : List UInt8} {r : WriteResult}
    (hmtx : s.mtx = some ⟨w, bytes, some r⟩) :
    InOrder { s.unlocked r w with
      mtx := none, past := s.past ++ [Section.turn ⟨w, bytes, some r⟩] } := by
  obtain ⟨hreturned, m, hm⟩ := ho
  refine ⟨fun j hj => ?_, m, ?_⟩
  · change (s.unlocked r w).phase j = _
    rw [phase_unlocked, hreturned j (by simpa using hj)]
    split <;> rfl
  · rw [← hm]
    simp [State.entered, State.turns, hmtx]

theorem cmds_congr (h : ∀ j, s'.cmd j = s.cmd j) : s'.cmds = s.cmds := by
  apply List.ext_getElem?
  intro j
  rw [State.cmds, State.cmds, List.getElem?_map, List.getElem?_map]
  exact h j

/-- Only a call of `drive` adds a command. -/
theorem step_cmds {e : Event} (hdrive : ∀ cmd msg, e ≠ .drive cmd msg) (h : step s e = some s') :
    s'.cmds = s.cmds := by
  cases e with
  | drive cmd msg => exact (hdrive cmd msg rfl).elim
  | timesync ts rospkt =>
    obtain ⟨loop, rfl, -⟩ := step_timesync h
    rfl
  | lock w =>
    obtain ⟨bytes, -, -, rfl⟩ := step_lock h
    exact cmds_congr (cmd_locked w)
  | write r =>
    obtain ⟨w, bytes, -, -, rfl⟩ := step_write h
    rfl
  | unlock =>
    obtain ⟨w, bytes, r, -, rfl⟩ := step_unlock h
    exact cmds_congr (cmd_unlocked r w)
  | stop =>
    obtain rfl := Option.some.inj h
    rfl

/-- The calls stay in order if a call is made only when none is in progress. -/
theorem step_inOrder {e : Event} (hs : Threads s) (ho : InOrder s)
    (hidle : ∀ cmd msg, e = .drive cmd msg → s.Idle) (h : step s e = some s') : InOrder s' := by
  cases e with
  | drive cmd msg =>
    obtain rfl := Option.some.inj h
    exact inOrder_drive ho (hidle cmd msg rfl) cmd msg
  | timesync ts rospkt =>
    obtain ⟨loop, rfl, -⟩ := step_timesync h
    exact ho.congr rfl rfl
  | lock w =>
    obtain ⟨bytes, hmtx, hwaiting, rfl⟩ := step_lock h
    exact inOrder_lock hs ho hmtx hwaiting
  | write r =>
    obtain ⟨w, bytes, hmtx, -, rfl⟩ := step_write h
    refine ho.congr rfl ?_
    simp only [State.entered, State.turns, hmtx, List.filterMap_append]
    cases w <;> rfl
  | unlock =>
    obtain ⟨w, bytes, r, hmtx, rfl⟩ := step_unlock h
    exact inOrder_unlock ho hmtx
  | stop =>
    obtain rfl := Option.some.inj h
    exact ho.congr rfl rfl

theorem idle_iff : s.Idle ↔ ∀ j phase, s.phase j = some phase → phase = .returned := by
  constructor
  · intro h j phase hphase
    obtain ⟨call, hcall, rfl⟩ := Option.map_eq_some_iff.mp hphase
    exact h call (List.mem_of_getElem? hcall)
  · intro h call hcall
    obtain ⟨j, hj, rfl⟩ := List.mem_iff_getElem.mp hcall
    exact h j _ (by rw [State.phase, List.getElem?_eq_getElem hj]; rfl)

/-- Without a new call there is still none in progress. -/
theorem step_idle {e : Event} (hidle : s.Idle) (hdrive : ∀ cmd msg, e ≠ .drive cmd msg)
    (h : step s e = some s') : s'.Idle := by
  cases e with
  | drive cmd msg => exact (hdrive cmd msg rfl).elim
  | timesync ts rospkt =>
    obtain ⟨loop, rfl, -⟩ := step_timesync h
    exact hidle
  | lock w =>
    obtain ⟨bytes, -, hwaiting, rfl⟩ := step_lock h
    cases w with
    | timesync => exact hidle
    | drive call => cases idle_iff.mp hidle call _ (waiting_drive.mp hwaiting)
  | write r =>
    obtain ⟨w, bytes, -, -, rfl⟩ := step_write h
    exact hidle
  | unlock =>
    obtain ⟨w, bytes, r, -, rfl⟩ := step_unlock h
    refine idle_iff.mpr fun j phase hphase => ?_
    change (s.unlocked r w).phase j = some phase at hphase
    rw [phase_unlocked] at hphase
    split at hphase
    · obtain ⟨-, -, rfl⟩ := Option.map_eq_some_iff.mp hphase
      rfl
    · exact idle_iff.mp hidle j phase hphase
  | stop =>
    obtain rfl := Option.some.inj h
    exact hidle

-- ---------------------------------------------------------------------------
-- What the receiver reads
-- ---------------------------------------------------------------------------

/-- The commands whose packets the device accepted, in the order of the mutex. -/
def State.acceptedCmds (s : State) : List Twist2DStamped :=
  ((s.turns.filter fun t => t.Whole).filterMap (·.writer.call?)).filterMap s.cmd

theorem State.Carries.readCommand {bytes : List UInt8} {w : Writer} (h : s.Carries bytes w) :
    readCommand bytes = (w.call?.bind s.cmd).map mbotCmd := by
  cases w with
  | drive call =>
    obtain ⟨cmd, hcmd, rfl⟩ := h
    rw [readCommand_velCmd, Writer.call?, Option.bind_some, hcmd]
    rfl
  | timesync =>
    obtain ⟨ts, rfl⟩ := h
    exact readCommand_timesync _

/-- Where no write was torn, the receiver reads the accepted commands. -/
theorem received_accepted (hlog : Logged s) (hs : Threads s) (huntorn : ∀ t ∈ s.turns, t.Untorn) :
    received s.accepted = s.acceptedCmds.map mbotCmd := by
  have hsub : (s.turns.filter fun t => t.Whole).Sublist s.turns := List.filter_sublist
  have hsplit : rosserial.split s.accepted =
      ((s.turns.filter fun t => t.Whole).map Turn.packet, []) := by
    apply Framing.Splits.split_eq
    refine ⟨?_, ?_, Framing.incomplete_nil⟩
    · rw [hlog.stream, Turn.stream_of_untorn huntorn, List.append_nil]
    · exact Turn.isFrame_of_sublist hsub fun t ht => (hs.carries t ht).isFrame
  rw [received, hsplit, State.acceptedCmds, List.filterMap_map, List.filterMap_filterMap,
    List.map_filterMap]
  apply List.filterMap_congr
  intro t ht
  exact (hs.carries t (hsub.subset ht)).readCommand

theorem filterMap_cmd_range {m : Nat} (h : m ≤ s.calls.length) :
    (List.range m).filterMap s.cmd = s.cmds.take m := by
  induction m with
  | zero => rfl
  | succ m ih =>
    have hlt : m < s.calls.length := h
    have hcmd : s.cmd m = some s.calls[m].cmd := by
      rw [State.cmd, List.getElem?_eq_getElem hlt]
      rfl
    rw [List.range_succ, List.filterMap_append, ih (Nat.le_of_lt hlt), List.filterMap_cons_some hcmd,
      List.filterMap_nil, State.cmds, ← List.map_take, ← List.map_take, List.take_succ_eq_append_getElem hlt,
      List.map_append]
    rfl

theorem entered_le (hs : Threads s) {m : Nat} (hm : s.entered = List.range m) :
    m ≤ s.calls.length := by
  by_contra hnot
  have hlocks := phase_of_entered hs hm s.calls.length
  rw [phase_length, if_pos (Nat.lt_of_not_le hnot)] at hlocks
  cases hlocks

/-- When no call is in progress, all have had the mutex. -/
theorem entered_of_idle (hs : Threads s) (ho : InOrder s) (hidle : s.Idle) :
    s.entered = List.range s.cmds.length := by
  obtain ⟨-, m, hm⟩ := ho
  have hle := entered_le hs hm
  have hge : s.calls.length ≤ m := by
    by_contra hlt
    have hlocks := phase_of_entered hs hm m
    rw [hidle.phase (Nat.lt_of_not_le hlt), if_neg (Nat.lt_irrefl m)] at hlocks
    cases hlocks
  rw [hm, State.cmds, List.length_map, Nat.le_antisymm hle hge]

/-- The accepted commands are among the commands of the calls, in order. -/
theorem acceptedCmds_sublist (hs : Threads s) (ho : InOrder s) :
    s.acceptedCmds.Sublist s.cmds := by
  obtain ⟨-, m, hm⟩ := ho
  have hsub : ((s.turns.filter fun t => t.Whole).filterMap (·.writer.call?)).Sublist
      (List.range m) := hm ▸ List.filter_sublist.filterMap _
  have hcmds := hsub.filterMap s.cmd
  rw [filterMap_cmd_range (entered_le hs hm)] at hcmds
  exact hcmds.trans (List.take_sublist ..)

/-- Where the device took the writes of `drive` whole, the accepted commands are
the first ones, and none of a call that has returned is missing. -/
theorem acceptedCmds_takenWhole (hs : Threads s) (ho : InOrder s) (htaken : s.TakenWhole) :
    ∃ k, s.acceptedCmds = s.cmds.take k ∧ ∀ j, s.phase j = some .returned → j < k := by
  obtain ⟨-, m, hm⟩ := ho
  have hpast : (s.past.filter fun t => t.Whole).filterMap (·.writer.call?) =
      s.past.filterMap (·.writer.call?) := by
    rw [List.filterMap_filter]
    apply List.filterMap_congr
    intro t ht
    cases hw : t.writer with
    | timesync => simp [Writer.call?]
    | drive call => simp [htaken.drives t ht (by simp [hw])]
  -- the last turn may still be going on
  have hprefix : (s.turns.filter fun t => t.Whole).filterMap (·.writer.call?) <+: s.entered := by
    rw [State.entered, State.turns, List.filter_append, List.filterMap_append,
      List.filterMap_append, hpast]
    apply List.prefix_append_right_inj _ |>.mpr
    cases s.mtx with
    | none => exact List.prefix_rfl
    | some sec =>
      simp only [Option.map_some, Option.toList_some, List.filter_cons, List.filter_nil]
      split
      · exact List.prefix_rfl
      · exact List.nil_prefix
  obtain ⟨k, hle, hrange⟩ : ∃ k, k ≤ s.calls.length ∧
      (s.turns.filter fun t => t.Whole).filterMap (·.writer.call?) = List.range k := by
    have htake := List.prefix_iff_eq_take.mp hprefix
    rw [hm, List.take_range] at htake
    exact ⟨_, Nat.le_trans (Nat.min_le_right ..) (entered_le hs hm), htake⟩
  refine ⟨k, by rw [State.acceptedCmds, hrange, filterMap_cmd_range hle], fun j hj => ?_⟩
  have hpos : 0 < s.turns.countP (fun t => t.writer = .drive j) := by
    rw [hs.count j, hj]
    exact Nat.one_pos
  obtain ⟨t, ht, hw⟩ := List.countP_pos_iff.mp hpos
  have hw : t.writer = .drive j := of_decide_eq_true hw
  have hmem : t ∈ s.past := hs.mem_past ht (hw ▸ hj)
  have hwhole : t.Whole := htaken.drives t hmem (by simp [hw])
  have hin : j ∈ (s.turns.filter fun t => t.Whole).filterMap (·.writer.call?) :=
    List.mem_filterMap.mpr ⟨t, List.mem_filter.mpr ⟨ht, decide_eq_true hwhole⟩, by rw [hw]; rfl⟩
  rw [hrange] at hin
  exact List.mem_range.mp hin

end MBot
