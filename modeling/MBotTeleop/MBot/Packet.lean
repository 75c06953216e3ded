-- SUMMARY: The packets of the serial line: encode_msg with its checksums, and the packets of MBot::drive and of the timesync loop.
import MBotTeleop.Lib.Framing
import MBotTeleop.Util.Time

/-!
# Packets of the serial line

`mbot/messages.hpp` wraps a packed struct in a header of seven bytes and a
checksum. `MBot::drive` and `MBot::timesync` each build one packet in an array
of their own and pass it to a single `write`.
-/

namespace MBot

open Rix.Util
open Rix.Msg.Geometry (Twist2DStamped)

-- ---------------------------------------------------------------------------
-- encode_msg
-- ---------------------------------------------------------------------------

def syncFlag : UInt8 := 0xff
def versionFlag : UInt8 := 0xfe
def rosHeaderLength : Nat := 7
def rosFooterLength : Nat := 1
def rosPkgLength : Nat := rosHeaderLength + rosFooterLength

/-- The topics that are sent. -/
inductive TopicId where
  | timesync
  | velCmd
  deriving DecidableEq, Repr

def TopicId.value : TopicId → BitVec 16
  | timesync => 201
  | velCmd => 214

def checksum (addends : List UInt8) : UInt8 :=
  let sum := addends.foldl (fun sum addend => sum + addend.toNat) 0
  UInt8.ofNat (255 - sum % 256)

/-- `encode_msg`: its result, and the array `rospkt` after it. -/
def encodeMsg (msg : List UInt8) (topic : BitVec 16) (rospkt : Memory) (rospktLen : Nat) :
    Int × Memory :=
  let msgLen := msg.length
  if msgLen + rosPkgLength ≠ rospktLen then
    (-1, rospkt)
  else
    let rospkt := rospkt.write 0 [syncFlag]
    let rospkt := rospkt.write 1 [versionFlag]
    let rospkt := rospkt.write 2 [UInt8.ofNat (msgLen &&& 0xFF)]
    let rospkt := rospkt.write 3 [UInt8.ofNat (msgLen >>> 8)]
    let cs1Addends := [rospkt 2, rospkt 3]
    let rospkt := rospkt.write 4 [checksum cs1Addends]
    let rospkt := rospkt.write 5 [UInt8.ofNat (topic.toNat &&& 0xFF)]
    let rospkt := rospkt.write 6 [UInt8.ofNat (topic.toNat >>> 8)]
    let rospkt := rospkt.write rosHeaderLength msg
    let cs2Addends := rospkt 5 :: rospkt 6 :: msg
    (0, rospkt.write (rospktLen - 1) [checksum cs2Addends])

/-- The bytes before the message. -/
def header (msgLen : Nat) (topic : BitVec 16) : List UInt8 :=
  [syncFlag, versionFlag] ++ LittleEndian.encode 2 msgLen ++
    [checksum (LittleEndian.encode 2 msgLen)] ++ LittleEndian.encode 2 topic.toNat

/-- The bytes of a packet. -/
def packet (msg : List UInt8) (topic : BitVec 16) : List UInt8 :=
  header msg.length topic ++ msg ++ [checksum (LittleEndian.encode 2 topic.toNat ++ msg)]

@[simp] theorem header_length (msgLen : Nat) (topic : BitVec 16) :
    (header msgLen topic).length = rosHeaderLength := by
  simp [header, rosHeaderLength]

@[simp] theorem packet_length (msg : List UInt8) (topic : BitVec 16) :
    (packet msg topic).length = msg.length + rosPkgLength := by
  simp only [packet, List.length_append, header_length, List.length_singleton, rosPkgLength,
    rosFooterLength]
  omega

/-- The two bytes of a 16-bit field, by mask and shift. -/
theorem encode_two (n : Nat) :
    LittleEndian.encode 2 n = [UInt8.ofNat (n &&& 0xFF), UInt8.ofNat (n >>> 8)] := by
  have hlow : UInt8.ofNat (n &&& 0xFF) = UInt8.ofNat n := by
    rw [show (0xFF : Nat) = 2 ^ 8 - 1 from rfl, Nat.and_two_pow_sub_one_eq_mod]
    exact UInt8.ofNat_mod_size
  simp only [LittleEndian.encode, hlow, Nat.shiftRight_eq_div_pow, Nat.reducePow]

/-- Into an array of the right size `encode_msg` stores a packet, whatever was
in the array. -/
theorem encodeMsg_eq (msg : List UInt8) (topic : BitVec 16) (rospkt : Memory) {rospktLen : Nat}
    (hlen : rospktLen = msg.length + rosPkgLength) :
    encodeMsg msg topic rospkt rospktLen = (0, rospkt.write 0 (packet msg topic)) := by
  have hlast : rospktLen - 1 = rosHeaderLength + msg.length := by
    rw [hlen, rosPkgLength, rosFooterLength]
    omega
  -- the header is stored before the message, so bytes 5 and 6 still hold the topic
  have hframe (m : Memory) {i : Nat} (hi : i < rosHeaderLength) :
      m.write rosHeaderLength msg i = m i := m.write_frame _ _ (.inl hi)
  unfold encodeMsg packet
  simp only [ne_eq, hlen.symm, not_true_eq_false, if_false, hlast]
  rw [hframe _ (by decide), hframe _ (by decide), Memory.write_append, Memory.write_append,
    List.length_append, header_length, Nat.zero_add, Nat.zero_add, header, encode_two, encode_two]
  rfl

-- ---------------------------------------------------------------------------
-- Packets as frames
-- ---------------------------------------------------------------------------

/-- The framing of the serial line: bytes 2 and 3 give the length of the message. -/
def rosserial : Framing UInt8 where
  headerLen := rosHeaderLength
  headerLen_pos := by decide
  bodyLen header := LittleEndian.decode ((header.drop 2).take 2) + rosFooterLength

theorem isFrame_packet {msg : List UInt8} (hshort : msg.length < 2 ^ 16) (topic : BitVec 16) :
    rosserial.IsFrame (packet msg topic) := by
  have hhead : (packet msg topic).take rosHeaderLength = header msg.length topic := by
    rw [packet, List.append_assoc]
    exact List.take_left' (header_length ..)
  have hfield : ((header msg.length topic).drop 2).take 2 = LittleEndian.encode 2 msg.length := rfl
  have hmod : msg.length % 256 ^ 2 = msg.length := Nat.mod_eq_of_lt hshort
  unfold Framing.IsFrame Framing.frameLen
  simp only [rosserial, hhead, hfield, LittleEndian.decode_encode, hmod, packet_length, rosPkgLength]
  omega

-- ---------------------------------------------------------------------------
-- The two packets
-- ---------------------------------------------------------------------------

/-- `serial_twist2D_t`. -/
structure SerialTwist2D where
  utime : BitVec 64
  vx : BitVec 32
  vy : BitVec 32
  wz : BitVec 32
  deriving DecidableEq, Repr

/-- The bytes of the packed struct on a little-endian machine. -/
def SerialTwist2D.bytes (t : SerialTwist2D) : List UInt8 :=
  LittleEndian.encode 8 t.utime.toNat ++ LittleEndian.encode 4 t.vx.toNat ++
    LittleEndian.encode 4 t.vy.toNat ++ LittleEndian.encode 4 t.wz.toNat

/-- `serial_timestamp_t`. -/
structure SerialTimestamp where
  utime : BitVec 64
  deriving DecidableEq, Repr

def SerialTimestamp.bytes (t : SerialTimestamp) : List UInt8 :=
  LittleEndian.encode 8 t.utime.toNat

/-- `mbot_cmd` in `MBot::drive`. -/
def mbotCmd (cmd : Twist2DStamped) : SerialTwist2D where
  utime := (Time.ofMsg cmd.header.stamp).toMicroseconds
  vx := cmd.twist.vx
  vy := cmd.twist.vy
  wz := cmd.twist.wz

/-- What `MBot::drive` passes to `write`. The array `msg` is not initialised,
and the result of `encode_msg` is not looked at. -/
def drivePacket (cmd : Twist2DStamped) (msg : Memory) : List UInt8 :=
  let bytes := (mbotCmd cmd).bytes
  let msgSize := bytes.length + rosPkgLength
  let r := encodeMsg bytes TopicId.velCmd.value msg msgSize
  r.2.slice 0 msgSize

/-- `struct timespec`. -/
structure Timespec where
  tvSec : BitVec 64
  tvNsec : BitVec 64
  deriving DecidableEq, Repr

/-- `msg` in `MBot::timesync`. -/
def timesyncMsg (ts : Timespec) : SerialTimestamp where
  utime := ts.tvSec * 1000000 + ts.tvNsec.sdiv 1000

/-- The packet of a round of `MBot::timesync`, or none where `encode_msg` fails. -/
def timesyncPacket (ts : Timespec) (rospkt : Memory) : Option (List UInt8) :=
  let bytes := (timesyncMsg ts).bytes
  let msgSize := bytes.length + rosPkgLength
  let r := encodeMsg bytes TopicId.timesync.value rospkt msgSize
  if r.1 < 0 then none else some (r.2.slice 0 msgSize)

@[simp] theorem SerialTwist2D.length_bytes (t : SerialTwist2D) : t.bytes.length = 20 := by
  simp [bytes]

@[simp] theorem SerialTimestamp.length_bytes (t : SerialTimestamp) : t.bytes.length = 8 :=
  LittleEndian.encode_length ..

/-- A packet that was stored reads back. -/
theorem slice_write_packet (msg : List UInt8) (topic : BitVec 16) (rospkt : Memory) :
    (rospkt.write 0 (packet msg topic)).slice 0 (msg.length + rosPkgLength) = packet msg topic := by
  rw [← packet_length msg topic]
  exact Memory.slice_write ..

theorem drivePacket_eq (cmd : Twist2DStamped) (msg : Memory) :
    drivePacket cmd msg = packet (mbotCmd cmd).bytes TopicId.velCmd.value := by
  simp only [drivePacket, encodeMsg_eq _ _ _ rfl, slice_write_packet]

/-- In the timesync loop `encode_msg` does not fail. -/
theorem timesyncPacket_eq (ts : Timespec) (rospkt : Memory) :
    timesyncPacket ts rospkt = some (packet (timesyncMsg ts).bytes TopicId.timesync.value) := by
  simp only [timesyncPacket, encodeMsg_eq _ _ _ rfl, slice_write_packet, Int.lt_irrefl, if_false]

end MBot
