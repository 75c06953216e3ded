-- SUMMARY: From what is typed to what the base receives: the command line, the keys and the clock determine the packets.
import MBotTeleop.Lib.Widen
import MBotTeleop.System
import MBotTeleop.Teleop.Main
import MBotTeleop.Teleop.Stamps
import MBotTeleop.Util.Conversion

/-!
# What is typed

The speeds of a command line go through a float, a double and a float again, the
time of a key through a message of seconds and nanoseconds. Both come out as they
went in, so the base receives the speeds that were typed at the times of the clock.
-/

namespace MBotTeleop.System

open Rix.Msg Rix.Util
open Rix.Msg.Geometry (Twist2D Twist2DStamped)
open TeleopKeyboard (Speed Setting Sets speedOf times)
open MBot (SerialTwist2D)

-- ---------------------------------------------------------------------------
-- Speeds
-- ---------------------------------------------------------------------------

/-- `std::stof(str, &index)` with its float as it is. -/
abbrev StofFloat := CString → Except ConversionError (BitVec 32 × Nat)

/-- The float becomes a double when it is assigned. -/
def widened (stof : StofFloat) : Stof := fun str =>
  (stof str).map fun r => (Ieee.widen r.1, r.2)

/-- The float that the last of the settings of a speed makes of it. -/
def speedFloat (stof : StofFloat) (settings : List Setting) (speed : Speed) : BitVec 32 :=
  ((settings.filter (·.speed = speed)).getLast?.bind fun s => detail.convert stof s.value).getD
    (Ieee.narrow speed.default)

theorem convert_widened (stof : StofFloat) (str : CString) :
    detail.convert (widened stof) str = (detail.convert stof str).map Ieee.widen := by
  unfold detail.convert widened
  cases stof str with
  | ok r => rfl
  | error e => cases e <;> rfl

theorem convert_mem {stof : StofFloat} {str : CString} {f : BitVec 32}
    (h : detail.convert stof str = some f) : ∃ index, stof str = .ok (f, index) := by
  unfold detail.convert at h
  split at h
  · rename_i value index hstof
    cases h
    exact ⟨index, hstof⟩
  · cases h
  · cases h

/-- The messages carry the float of the setting. -/
theorem narrow_speedOf {stof : StofFloat}
    (hquiet : ∀ str f index, stof str = .ok (f, index) → Ieee.isSignalling f = false)
    (settings : List Setting) (speed : Speed) :
    Ieee.narrow (speedOf (widened stof) settings speed) = speedFloat stof settings speed := by
  unfold speedOf speedFloat
  cases (settings.filter (·.speed = speed)).getLast? with
  | none => rfl
  | some s =>
    rw [Option.bind_some, Option.bind_some, convert_widened]
    cases hconvert : detail.convert stof s.value with
    | none => rfl
    | some f =>
      obtain ⟨index, hstof⟩ := convert_mem hconvert
      exact Ieee.narrow_widen (hquiet _ f index hstof)

-- ---------------------------------------------------------------------------
-- Keys
-- ---------------------------------------------------------------------------

/-- The twist of a key at a linear speed `l` and an angular speed `a`. -/
def keyTwist (l a : BitVec 32) (key : UInt8) : Option Twist2D :=
  if key = 'w'.toUInt8 ∨ key = 'W'.toUInt8 then some ⟨l, 0, 0⟩
  else if key = 'a'.toUInt8 ∨ key = 'A'.toUInt8 then some ⟨0, l, 0⟩
  else if key = 's'.toUInt8 ∨ key = 'S'.toUInt8 then some ⟨Ieee.negFloat l, 0, 0⟩
  else if key = 'd'.toUInt8 ∨ key = 'D'.toUInt8 then some ⟨0, Ieee.negFloat l, 0⟩
  else if key = 'q'.toUInt8 ∨ key = 'Q'.toUInt8 then some ⟨0, 0, a⟩
  else if key = 'e'.toUInt8 ∨ key = 'E'.toUInt8 then some ⟨0, 0, Ieee.negFloat a⟩
  else if key = ' '.toUInt8 then some ⟨0, 0, 0⟩
  else none

theorem toNat_upper (key : UInt8) (hlo : 97 ≤ key.toNat) : (key - 32).toNat = key.toNat - 32 := by
  apply UInt8.toNat_sub_of_le
  rw [UInt8.le_iff_toNat_le]
  change 32 ≤ key.toNat
  omega

/-- A capital letter stands for itself and for the small one. -/
theorem normalized_letter {u : UInt8} (hlo : 'A'.toUInt8 ≤ u) (hhi : u ≤ 'Z'.toUInt8)
    (key : UInt8) :
    (if TeleopKeyboard.isalpha key then TeleopKeyboard.toupper key else key) = u ↔
      key = u + 32 ∨ key = u := by
  have ha : 'a'.toUInt8.toNat = 97 ∧ 'z'.toUInt8.toNat = 122 := ⟨rfl, rfl⟩
  have hA : 'A'.toUInt8.toNat = 65 ∧ 'Z'.toUInt8.toNat = 90 := ⟨rfl, rfl⟩
  rw [UInt8.le_iff_toNat_le] at hlo hhi
  have hsmall : (u + 32).toNat = u.toNat + 32 := by
    rw [UInt8.toNat_add]
    apply Nat.mod_eq_of_lt
    change u.toNat + 32 < 256
    omega
  simp only [TeleopKeyboard.isalpha, TeleopKeyboard.toupper, decide_eq_true_eq,
    UInt8.le_iff_toNat_le, ← UInt8.toNat_inj, hsmall]
  split
  · split
    · rw [toNat_upper key (by omega)]
      omega
    · omega
  · omega

theorem normalized_space (key : UInt8) :
    (if TeleopKeyboard.isalpha key then TeleopKeyboard.toupper key else key) = ' '.toUInt8 ↔
      key = ' '.toUInt8 := by
  have ha : 'a'.toUInt8.toNat = 97 ∧ 'z'.toUInt8.toNat = 122 := ⟨rfl, rfl⟩
  have hA : 'A'.toUInt8.toNat = 65 ∧ 'Z'.toUInt8.toNat = 90 := ⟨rfl, rfl⟩
  have hspace : ' '.toUInt8.toNat = 32 := rfl
  simp only [TeleopKeyboard.isalpha, TeleopKeyboard.toupper, decide_eq_true_eq,
    UInt8.le_iff_toNat_le, ← UInt8.toNat_inj]
  split
  · split
    · rw [toNat_upper key (by omega)]
      omega
    · omega
  · omega

theorem twist_velocity (cfg : TeleopKeyboard.Config) (key : UInt8) :
    (TeleopKeyboard.velocity cfg key).map TeleopKeyboard.Velocity.twist =
      keyTwist (Ieee.narrow cfg.linearSpeed) (Ieee.narrow cfg.angularSpeed) key := by
  have hw := normalized_letter (u := 'W'.toUInt8) (by decide) (by decide) key
  have ha := normalized_letter (u := 'A'.toUInt8) (by decide) (by decide) key
  have hs := normalized_letter (u := 'S'.toUInt8) (by decide) (by decide) key
  have hd := normalized_letter (u := 'D'.toUInt8) (by decide) (by decide) key
  have hq := normalized_letter (u := 'Q'.toUInt8) (by decide) (by decide) key
  have he := normalized_letter (u := 'E'.toUInt8) (by decide) (by decide) key
  have hspace := normalized_space key
  have hzero : Ieee.narrow 0 = 0 := by decide
  simp only [TeleopKeyboard.velocity, keyTwist, hw, ha, hs, hd, hq, he, hspace,
    apply_ite (Option.map TeleopKeyboard.Velocity.twist), Option.map_some, Option.map_none,
    TeleopKeyboard.Velocity.twist, hzero, Ieee.narrow_neg]
  rfl

-- ---------------------------------------------------------------------------
-- Packets
-- ---------------------------------------------------------------------------

/-- The packet for a twist at a time of the clock. -/
def commandAt (t : Time) (twist : Twist2D) : SerialTwist2D where
  utime := t.toMicroseconds
  vx := twist.vx
  vy := twist.vy
  wz := twist.wz

/-- The valid keys, at the times that the clock gave for them. -/
def typed (l a : BitVec 32) (es : List TeleopKeyboard.Event) : List SerialTwist2D :=
  List.zipWith commandAt (times es)
    ((es.filterMap TeleopKeyboard.Event.key?).filterMap (keyTwist l a))

theorem commanded_eq (cfg : TeleopKeyboard.Config) (es : List TeleopKeyboard.Event) :
    TeleopKeyboard.commanded cfg es = (es.filterMap TeleopKeyboard.Event.key?).filterMap
      (keyTwist (Ieee.narrow cfg.linearSpeed) (Ieee.narrow cfg.angularSpeed)) :=
  List.filterMap_congr fun key _ => twist_velocity cfg key

/-- A message gives its stamp and its twist to the packet. -/
theorem map_mbotCmd (msgs : List Twist2DStamped) : msgs.map MBot.mbotCmd =
    List.zipWith (fun stamp twist => commandAt (Time.ofMsg stamp) twist)
      (msgs.map (·.header.stamp)) (msgs.map (·.twist)) := by
  rw [List.zipWith_map, List.zipWith_self]
  rfl

theorem map_mbotCmd_typed {ms : List Twist2DStamped} {ts : List Time} {twists : List Twist2D}
    (hstamps : ms.map (·.header.stamp) <+: ts.map Time.toMsg)
    (htwists : ms.map (·.twist) <+: twists) (hclock : ∀ t ∈ ts, Fits t.tp.toInt) :
    ms.map MBot.mbotCmd = (List.zipWith commandAt ts twists).take ms.length := by
  have hofMsg : (ts.map Time.toMsg).map Time.ofMsg = ts := by
    rw [List.map_map]
    refine (List.map_congr_left fun t ht => ?_).trans (List.map_id ts)
    rw [Function.comp_apply, Time.toMsg_eq, Time.ofMsg_eq, (ofParts_split t.tp).mpr (hclock t ht)]
    rfl
  have hstamps := List.prefix_iff_eq_take.mp hstamps
  have htwists := List.prefix_iff_eq_take.mp htwists
  rw [List.length_map] at hstamps htwists
  rw [map_mbotCmd, hstamps, htwists, List.take_zipWith,
    ← List.zipWith_map_left, List.map_take, hofMsg]

-- ---------------------------------------------------------------------------
-- The system
-- ---------------------------------------------------------------------------

/-- The calls of `drive` are for what was typed. -/
theorem Served.typed {cfg : TeleopKeyboard.Config} {flag : Bool} {es : List Event} {s : State}
    {msgs : List Twist2DStamped} {n : Nat} (hrun : (system cfg flag).run es = some s)
    (h : Served cfg es s msgs n) (hclock : ∀ t ∈ times (keyboardEvents es), Fits t.tp.toInt) :
    s.line.cmds.map MBot.mbotCmd =
      (System.typed (Ieee.narrow cfg.linearSpeed) (Ieee.narrow cfg.angularSpeed)
        (keyboardEvents es)).take n ++
      (if s.driver.pc = .returned then [⟨0, 0, 0, 0⟩] else []) := by
  have hn : n ≤ msgs.length := by
    by_contra hlt
    have hlt : msgs.length < n := Nat.lt_of_not_le hlt
    exact Nat.lt_irrefl _ ((h.read msgs.length).mp hlt).1
  have hlength : (msgs.take n).length = n := List.length_take_of_le hn
  have hnumbered : TeleopKeyboard.Numbered (msgs.take n) := by
    intro i hi
    rw [List.getElem_take]
    exact h.numbered i _
  have hwhole : (msgs.take n).flatMap Message.frame <+: s.keyboard.output := by
    have hprefix : (msgs.take n).flatMap Message.frame <+: msgs.flatMap Message.frame :=
      (List.take_prefix n msgs).flatMap Message.frame
    apply List.prefix_of_prefix_length_le hprefix h.output
    cases n with
    | zero => exact Nat.zero_le _
    | succ k => exact Nat.le_of_add_right_le ((h.read k).mp (Nat.lt_succ_self k)).2
  have hstamps := TeleopKeyboard.stamps_of_output (run_keyboard hrun) hnumbered hwhole
  have htwists : (msgs.take n).map (·.twist) <+:
      (List.filterMap TeleopKeyboard.Event.key? (keyboardEvents es)).filterMap
        (keyTwist (Ieee.narrow cfg.linearSpeed) (Ieee.narrow cfg.angularSpeed)) := by
    rw [← commanded_eq, ← h.twists]
    exact (List.take_prefix n msgs).map _
  have hcommands := map_mbotCmd_typed hstamps htwists hclock
  rw [hlength] at hcommands
  rw [h.calls, List.map_append, hcommands]
  split <;> rfl

/-- The base receives what was typed. The speeds of the command line arrive as the
floats that `stof` made of them, forward and backward, and the commands in the
order of their keys and with the times of the clock, which is taken to be before
the seconds overflow. Here `n` counts the frames that the driver has read. -/
theorem received_follows_typing {stof : StofFloat}
    (hquiet : ∀ str f index, stof str = .ok (f, index) → Ieee.isSignalling f = false)
    {order argv : List CString} (hargc : 1 ≤ argv.length) {cfg : TeleopKeyboard.Config}
    (hmain : TeleopKeyboard.main (widened stof) order argv = .ok (.spins cfg))
    (stopTimesyncFlag : Bool) {es : List Event} {s : State}
    (hrun : (system cfg stopTimesyncFlag).run es = some s)
    (hclock : ∀ t ∈ times (keyboardEvents es), Fits t.tp.toInt) :
    ∃ settings msgs n sent, Sets (widened stof) argv settings ∧ Served cfg es s msgs n ∧
      sent = (typed (speedFloat stof settings .linear) (speedFloat stof settings .angular)
        (keyboardEvents es)).take n ++
          (if s.driver.pc = .returned then [⟨0, 0, 0, 0⟩] else []) ∧
      s.line.cmds.map MBot.mbotCmd = sent ∧
      ((∀ t ∈ s.line.turns, t.Untorn) → (MBot.received s.line.accepted).Sublist sent) ∧
      (s.line.TakenWhole → MBot.received s.line.accepted <+: sent ∧
        (s.line.Idle → MBot.received s.line.accepted = sent)) := by
  obtain ⟨settings, hsets, rfl⟩ := TeleopKeyboard.sets_of_spins hargc hmain
  obtain ⟨msgs, n, hserved⟩ := run_served hrun
  obtain ⟨huntorn, htaken⟩ := (run_coupled hrun).received
  have hsent := hserved.typed hrun hclock
  simp only [narrow_speedOf hquiet] at hsent
  rw [hsent] at htaken
  refine ⟨settings, msgs, n, _, hsets, hserved, rfl, hsent, fun h => ?_, htaken⟩
  obtain ⟨kept, hkept, hreceived⟩ := huntorn h
  rw [hreceived, ← hsent]
  exact hkept.map _

/-- One key at the speed of an option, and the stop command. -/
theorem received_follows_typing_oneKey :
    ∃ (s : State) (sent : List SerialTwist2D),
      (system ⟨0x3fd0000000000000, Speed.angular.default⟩ false).run oneKey = some s ∧
      sent.length = 2 ∧ MBot.received s.line.accepted = sent := by
  let stof : StofFloat := fun str =>
    if str = .ofString "0.25" then .ok (0x3e800000, 4) else .error .invalidArgument
  have hquiet : ∀ str f index, stof str = .ok (f, index) → Ieee.isSignalling f = false := by
    intro str f index hstof
    simp only [stof] at hstof
    split at hstof
    · cases hstof
      decide
    · cases hstof
  have hmain : TeleopKeyboard.main (widened stof) [] (["prog", "-l", "0.25"].map .ofString) =
      .ok (.spins ⟨0x3fd0000000000000, Speed.angular.default⟩) := by
    have hsets : Sets (widened stof) (["prog", "-l", "0.25"].map .ofString)
        [⟨.linear, false, .ofString "0.25"⟩] :=
      ⟨by decide, List.forall_mem_singleton.mpr (by decide)⟩
    exact TeleopKeyboard.main_of_sets _ _ (by decide) hsets
  have hlog : ((system ⟨0x3fd0000000000000, Speed.angular.default⟩ false).run oneKey).map
      (fun s => (s.line.cmds.length, decide s.line.Idle, decide (∀ t ∈ s.line.turns, t.Untorn),
        decide (∀ t ∈ s.line.past, t.writer ≠ .timesync → t.Whole))) =
      some (2, true, true, true) := by
    decide +kernel
  obtain ⟨s, hrun, heq⟩ := Option.map_eq_some_iff.mp hlog
  simp only [Prod.mk.injEq, decide_eq_true_eq] at heq
  obtain ⟨hlen, hidle, huntorn, hdrives⟩ := heq
  have hclock : ∀ t ∈ times (keyboardEvents oneKey), Fits t.tp.toInt :=
    List.forall_mem_singleton.mpr ⟨by decide, by decide⟩
  obtain ⟨settings, msgs, n, sent, -, -, -, hcmds, -, htaken⟩ :=
    received_follows_typing hquiet (by decide) hmain false hrun hclock
  refine ⟨s, sent, hrun, ?_, (htaken ⟨huntorn, hdrives⟩).2 hidle⟩
  rw [← hcmds, List.length_map]
  exact hlen

end MBotTeleop.System
