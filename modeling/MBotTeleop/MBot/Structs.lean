-- SUMMARY: The packed structs that can be sent over the serial line, and what a receiver has of a stream of their packets after any number of bytes.
import Mathlib.Data.List.Forall2
import MBotTeleop.Lib.Packed
import MBotTeleop.MBot.Receiver

/-!
# The structs of the serial line

`mbot/messages.hpp` was generated from 17 message types. Each has a packed
struct, and two functions that copy the struct to and from a byte buffer.
-/

namespace MBot

open CType (struct word array)

-- ---------------------------------------------------------------------------
-- The types
-- ---------------------------------------------------------------------------

abbrev int8T : CType := word 1
abbrev int32T : CType := word 4
abbrev int64T : CType := word 8
abbrev float : CType := word 4
abbrev double : CType := word 8
abbrev char : CType := word 1

/-- `bool`, as the byte that stands for it, which is copied like any other. -/
abbrev bool : CType := word 1

def serialPose2D : CType := struct
  [("utime", int64T), ("x", float), ("y", float), ("theta", float)]

def serialMbotMotorVel : CType := struct
  [("utime", int64T), ("velocity", array float 3)]

def serialMbotMessageReceived : CType := struct
  [("utime", int64T), ("creation_time", int64T), ("channel", array char 256)]

def serialTwist3D : CType := struct
  [("utime", int64T), ("vx", float), ("vy", float), ("vz", float), ("wx", float), ("wy", float),
    ("wz", float)]

def serialMbotImu : CType := struct
  [("utime", int64T), ("gyro", array float 3), ("accel", array float 3), ("mag", array float 3),
    ("angles_rpy", array float 3), ("angles_quat", array float 4), ("temp", float)]

def serialSlamStatus : CType := struct
  [("utime", int64T), ("slam_mode", int32T), ("map_path", array char 256)]

def serialMbotMotorPwm : CType := struct
  [("utime", int64T), ("pwm", array float 3)]

def serialPose3D : CType := struct
  [("utime", int64T), ("x", float), ("y", float), ("z", float), ("angles_rpy", array float 3),
    ("angles_quat", array float 4)]

def serialTimestamp : CType := struct
  [("utime", int64T)]

def serialParticle : CType := struct
  [("pose", serialPose2D), ("parent_pose", serialPose2D), ("weight", double)]

def serialTwist2D : CType := struct
  [("utime", int64T), ("vx", float), ("vy", float), ("wz", float)]

def serialPlannerRequest : CType := struct
  [("utime", int64T), ("goal", serialPose2D), ("require_plan", bool)]

def serialMbotEncoders : CType := struct
  [("utime", int64T), ("ticks", array int64T 3), ("delta_ticks", array int32T 3),
    ("delta_time", int32T)]

def serialExplorationStatus : CType := struct
  [("utime", int64T), ("state", int8T), ("status", int8T)]

def serialJoy : CType := struct
  [("timestamp", int64T), ("left_analog_X", float), ("left_analog_Y", float),
    ("right_analog_X", float), ("right_analog_Y", float), ("right_trigger", float),
    ("left_trigger", float), ("dpad_X", float), ("dpad_Y", float), ("button_A", int8T),
    ("button_B", int8T), ("button_2", int8T), ("button_X", int8T), ("button_Y", int8T),
    ("button_5", int8T), ("button_l1", int8T), ("button_r1", int8T), ("button_l2", int8T),
    ("button_r2", int8T), ("button_select", int8T), ("button_start", int8T),
    ("button_12", int8T), ("button_left_analog", int8T), ("button_right_analog", int8T),
    ("button_15", int8T)]

def serialPoint3D : CType := struct
  [("utime", int64T), ("x", float), ("y", float), ("z", float)]

def serialMbotSlamReset : CType := struct
  [("utime", int64T), ("slam_mode", int32T), ("slam_map_location", array char 256),
    ("retain_pose", bool)]

/-- The message types. -/
inductive SerialType where
  | pose2D
  | mbotMotorVel
  | mbotMessageReceived
  | twist3D
  | mbotImu
  | slamStatus
  | mbotMotorPwm
  | pose3D
  | timestamp
  | particle
  | twist2D
  | plannerRequest
  | mbotEncoders
  | explorationStatus
  | joy
  | point3D
  | mbotSlamReset
  deriving DecidableEq, Repr

namespace SerialType

/-- The struct of a message type. -/
def ctype : SerialType → CType
  | pose2D => serialPose2D
  | mbotMotorVel => serialMbotMotorVel
  | mbotMessageReceived => serialMbotMessageReceived
  | twist3D => serialTwist3D
  | mbotImu => serialMbotImu
  | slamStatus => serialSlamStatus
  | mbotMotorPwm => serialMbotMotorPwm
  | pose3D => serialPose3D
  | timestamp => serialTimestamp
  | particle => serialParticle
  | twist2D => serialTwist2D
  | plannerRequest => serialPlannerRequest
  | mbotEncoders => serialMbotEncoders
  | explorationStatus => serialExplorationStatus
  | joy => serialJoy
  | point3D => serialPoint3D
  | mbotSlamReset => serialMbotSlamReset

abbrev Val (t : SerialType) : Type := t.ctype.Val

/-- `pose2D_t_serialize` and the others, each for its own struct: the result, and
`dest` after the `memcpy`. -/
def serialize (t : SerialType) (src : t.Val) (dest : Memory) : Int × Memory :=
  (1, dest.write 0 (t.ctype.bytes src))

/-- `pose2D_t_deserialize` and the others: the result, and the struct after the
`memcpy`. -/
def deserialize (t : SerialType) (src : Memory) : Int × t.Val := (1, t.ctype.read src 0)

/-- The length of every struct fits its field in a packet. -/
theorem sizeof_lt (t : SerialType) : t.ctype.sizeof < 2 ^ 16 := by
  cases t <;> decide

end SerialType

-- ---------------------------------------------------------------------------
-- Packets of structs
-- ---------------------------------------------------------------------------

/-- A struct to be sent on a topic. -/
structure Message where
  type : SerialType
  value : type.Val
  topic : BitVec 16

/-- The packet that `*_serialize` into `msg` and `encode_msg` into `rospkt` make
of a struct. Neither array is initialised. -/
def Message.send (m : Message) (msg rospkt : Memory) : List UInt8 :=
  let msgLen := m.type.ctype.sizeof
  let msg := (m.type.serialize m.value msg).2
  let rospktLen := msgLen + rosPkgLength
  let r := encodeMsg (msg.slice 0 msgLen) m.topic rospkt rospktLen
  r.2.slice 0 rospktLen

/-- The bytes of the struct. -/
def Message.bytes (m : Message) : List UInt8 := m.type.ctype.bytes m.value

@[simp] theorem Message.length_bytes (m : Message) : m.bytes.length = m.type.ctype.sizeof :=
  CType.length_bytes ..

theorem Message.short (m : Message) : m.bytes.length < 2 ^ 16 := by
  rw [m.length_bytes]
  exact m.type.sizeof_lt

theorem Message.send_eq (m : Message) (msg rospkt : Memory) :
    m.send msg rospkt = packet m.bytes m.topic := by
  have hslice : (msg.write 0 m.bytes).slice 0 m.bytes.length = m.bytes := Memory.slice_write ..
  rw [send]
  simp only [SerialType.serialize, ← m.length_bytes]
  rw [show m.type.ctype.bytes m.value = m.bytes from rfl, hslice, encodeMsg_eq _ _ _ rfl,
    slice_write_packet]

/-- The packets of `MBot::drive` are those of `serial_twist2D_t`. -/
theorem drivePacket_eq_send (cmd : Rix.Msg.Geometry.Twist2DStamped) (msg buffer rospkt : Memory) :
    drivePacket cmd msg =
      Message.send ⟨.twist2D, ((mbotCmd cmd).utime, (mbotCmd cmd).vx, (mbotCmd cmd).vy,
        (mbotCmd cmd).wz, ()), TopicId.velCmd.value⟩ buffer rospkt := by
  rw [drivePacket_eq, Message.send_eq]
  simp only [SerialTwist2D.bytes, List.append_assoc]
  rfl

/-- The packets of the timesync loop are those of `serial_timestamp_t`. -/
theorem timesyncPacket_eq_send (ts : Timespec) (msg buffer rospkt : Memory) :
    timesyncPacket ts msg =
      some (Message.send ⟨.timestamp, ((timesyncMsg ts).utime, ()), TopicId.timesync.value⟩
        buffer rospkt) := by
  rw [timesyncPacket_eq, Message.send_eq]
  rfl

-- ---------------------------------------------------------------------------
-- What arrives
-- ---------------------------------------------------------------------------

/-- A frame brings a receiver a struct. -/
structure Delivers (m : Message) (frame : List UInt8) : Prop where
  /-- The sums are right, and `*_deserialize` gives the struct that was sent. -/
  accepted : ∃ msg, Accepted frame m.topic msg ∧
    m.type.deserialize (Memory.ofList msg) = (1, m.value)
  /-- Every member can be read from the frame alone, at its offset. -/
  members : ∀ {u : CType} (p : CType.Path m.type.ctype u),
    rosHeaderLength + p.offset + u.sizeof < frame.length ∧
      u.read (Memory.ofList frame) (rosHeaderLength + p.offset) = p.get m.value
  /-- No change of a single byte after the flags gets past the sums. -/
  guarded : ∀ {i : Nat} {b : UInt8} (hi : i < frame.length), 2 ≤ i → b ≠ frame[i] →
    ¬ Checked (frame.set i b)

/-- A packet brings the struct that it was made from. -/
theorem delivers_send (m : Message) (msg rospkt : Memory) : Delivers m (m.send msg rospkt) := by
  rw [m.send_eq]
  have haccepted := packet_accepted m.short m.topic
  constructor
  case accepted =>
    refine ⟨m.bytes, haccepted, congrArg (Prod.mk 1) ?_⟩
    apply CType.read_of_slice
    rw [← m.length_bytes]
    exact Memory.slice_ofList m.bytes
  case members =>
    intro u p
    have hinside := CType.offset_le p
    have hwhole : rosHeaderLength + m.bytes.length < (packet m.bytes m.topic).length := by
      rw [packet_length, rosPkgLength, rosFooterLength]
      omega
    have hslice : (Memory.ofList (packet m.bytes m.topic)).slice rosHeaderLength
        m.type.ctype.sizeof = m.bytes := by
      rw [← m.length_bytes, Memory.slice_ofList_of_le (Nat.le_of_lt hwhole)]
      have hmessage := haccepted.message
      rwa [Checksum.segment, List.drop_take, Nat.add_sub_cancel_left] at hmessage
    constructor
    · rw [m.length_bytes] at hwhole
      omega
    · rw [CType.read_path, CType.read_of_slice hslice]
  case guarded =>
    intro i b hi h2 hb
    exact haccepted.checked.set h2 hi hb

theorem isFrame_send (m : Message) (msg rospkt : Memory) :
    rosserial.IsFrame (m.send msg rospkt) := by
  rw [m.send_eq]
  exact isFrame_packet m.short m.topic

/-- Structs of any types are sent one after another, and their packets arrive in
pieces: after any number of bytes a receiver has exactly those structs whose
packets have arrived completely. -/
theorem structs_received (sent : List (Message × Memory × Memory)) (pos : Nat) :
    let packets := sent.map fun m => m.1.send m.2.1 m.2.2
    let frames := (rosserial.split (packets.flatten.take pos)).1
    List.Forall₂ (fun m frame => Delivers m.1 frame) (sent.take frames.length) frames ∧
      ∀ i, i < frames.length ↔
        i < sent.length ∧ (packets.take (i + 1)).flatten.length ≤ pos := by
  intro packets frames
  have hpackets : ∀ f ∈ packets, rosserial.IsFrame f := by
    intro f hf
    obtain ⟨m, -, rfl⟩ := List.mem_map.mp hf
    exact isFrame_send ..
  obtain ⟨rest, hsplits⟩ := Framing.splits_take hpackets pos
  have hframes : frames = packets.take (Framing.completeBefore packets pos) :=
    congrArg Prod.fst hsplits.split_eq
  have hsame : frames = (sent.take frames.length).map fun m => m.1.send m.2.1 m.2.2 := by
    rw [List.map_take, hframes, List.length_take, List.take_eq_take_min]
  constructor
  · conv =>
      arg 3
      rw [hsame]
    rw [List.forall₂_map_right_iff]
    exact List.forall₂_same.mpr fun m _ => delivers_send ..
  · intro i
    have hcount := @Framing.lt_completeBefore_iff _ packets pos i
    rw [List.length_map] at hcount
    rw [← hcount, hframes, List.length_take, List.length_map, Nat.lt_min]
    exact and_iff_left_of_imp fun h => (hcount.mp h).1

end MBot
