-- SUMMARY: What a receiver that checks its packets sees of a drive packet: it accepts the packet, reads the command from it and notices every change of a single byte.
import MBotTeleop.Lib.Checksum
import MBotTeleop.MBot.Packet
import MBotTeleop.Util.Conversion

/-!
# The receiving end of the serial line

A receiver checks the flags and the two sums and reads the length, the topic
and the message out of the bytes it gets. It knows the layout of a packet and
nothing of how `encode_msg` builds one.
-/

namespace MBot

open Checksum
open Rix.Util
open Rix.Msg.Geometry (Twist2DStamped)

/-- The sum over the length field and its check byte. -/
def headerSum (bytes : List UInt8) : Nat := sum (segment bytes 2 5)

/-- The sum over the topic, the message and their check byte. -/
def bodySum (bytes : List UInt8) : Nat := sum (segment bytes 5 bytes.length)

/-- The sums a receiver checks. -/
structure Checked (bytes : List UInt8) : Prop where
  header : headerSum bytes % 256 = 255
  body : bodySum bytes % 256 = 255

/-- A receiver accepts the bytes, as the message `msg` on `topic`. -/
structure Accepted (bytes : List UInt8) (topic : BitVec 16) (msg : List UInt8) : Prop where
  flags : segment bytes 0 2 = [syncFlag, versionFlag]
  length : LittleEndian.decode (segment bytes 2 4) = msg.length
  whole : bytes.length = msg.length + rosPkgLength
  topic : LittleEndian.decode (segment bytes 5 7) = topic.toNat
  message : segment bytes 7 (7 + msg.length) = msg
  checked : Checked bytes

theorem checksum_eq (addends : List UInt8) : checksum addends = complement addends := by
  rw [checksum, complement, sum_eq_foldl]

/-- A packet is made of two blocks with a check byte each. -/
theorem packet_blocks (msg : List UInt8) (topic : BitVec 16) :
    packet msg topic = [syncFlag, versionFlag] ++
      (LittleEndian.encode 2 msg.length ++ [complement (LittleEndian.encode 2 msg.length)]) ++
      (LittleEndian.encode 2 topic.toNat ++ msg ++
        [complement (LittleEndian.encode 2 topic.toNat ++ msg)]) := by
  simp only [packet, header, checksum_eq, List.append_assoc]

/-- A packet is accepted as the message it was built from. -/
theorem packet_accepted {msg : List UInt8} (hshort : msg.length < 2 ^ 16) (topic : BitVec 16) :
    Accepted (packet msg topic) topic msg := by
  have hlen : (packet msg topic).length = msg.length + rosPkgLength := packet_length msg topic
  have htotal : rosPkgLength = 8 := rfl
  have hmod : msg.length % 256 ^ 2 = msg.length := Nat.mod_eq_of_lt hshort
  have htopic : topic.toNat % 256 ^ 2 = topic.toNat := Nat.mod_eq_of_lt topic.isLt
  constructor
  case flags => rfl
  case length =>
    rw [show segment (packet msg topic) 2 4 = LittleEndian.encode 2 msg.length from rfl,
      LittleEndian.decode_encode, hmod]
  case whole => exact hlen
  case topic =>
    rw [show segment (packet msg topic) 5 7 = LittleEndian.encode 2 topic.toNat from rfl,
      LittleEndian.decode_encode, htopic]
  case message => exact segment_append _ _ _ (header_length ..) (by rw [header_length]; rfl)
  case checked =>
    have hheader : segment (packet msg topic) 2 5 =
        LittleEndian.encode 2 msg.length ++ [complement (LittleEndian.encode 2 msg.length)] := by
      rw [packet_blocks]
      rfl
    have hbody : segment (packet msg topic) 5 (packet msg topic).length =
        LittleEndian.encode 2 topic.toNat ++ msg ++
          [complement (LittleEndian.encode 2 topic.toNat ++ msg)] := by
      rw [hlen, packet_blocks, ← List.append_nil (_ ++ _)]
      apply segment_append
      · simp
      · simp
        omega
    constructor
    · rw [headerSum, hheader]
      exact sum_append_complement _
    · rw [bodySum, hbody]
      exact sum_append_complement _

/-- The two sums cover every byte after the flags, so a change of one byte there
breaks one of them. -/
theorem Checked.set {bytes : List UInt8} (h : Checked bytes) {i : Nat} (hi : 2 ≤ i)
    (hlt : i < bytes.length) {b : UInt8} (hb : b ≠ bytes[i]) : ¬ Checked (bytes.set i b) := by
  intro hset
  by_cases hheader : i < 5
  · apply segment_set_ne hlt hi hheader hb
    exact hset.header.trans h.header.symm
  · have hbody := hset.body
    rw [bodySum, List.length_set] at hbody
    apply segment_set_ne hlt (Nat.le_of_not_lt hheader) hlt hb
    exact hbody.trans h.body.symm

-- ---------------------------------------------------------------------------
-- The command in a packet
-- ---------------------------------------------------------------------------

/-- The packed struct in a message, as the receiver reads it back. -/
def SerialTwist2D.ofBytes (msg : List UInt8) : SerialTwist2D where
  utime := BitVec.ofNat 64 (LittleEndian.decode (segment msg 0 8))
  vx := BitVec.ofNat 32 (LittleEndian.decode (segment msg 8 12))
  vy := BitVec.ofNat 32 (LittleEndian.decode (segment msg 12 16))
  wz := BitVec.ofNat 32 (LittleEndian.decode (segment msg 16 20))

theorem SerialTwist2D.ofBytes_bytes (t : SerialTwist2D) : ofBytes t.bytes = t := by
  have hutime : segment t.bytes 0 8 = LittleEndian.encode 8 t.utime.toNat := rfl
  have hvx : segment t.bytes 8 12 = LittleEndian.encode 4 t.vx.toNat := rfl
  have hvy : segment t.bytes 12 16 = LittleEndian.encode 4 t.vy.toNat := rfl
  have hwz : segment t.bytes 16 20 = LittleEndian.encode 4 t.wz.toNat := rfl
  unfold ofBytes
  rw [hutime, hvx, hvy, hwz]
  have hword := @LittleEndian.ofNat_decode_encode 4 32 (by decide)
  rw [LittleEndian.ofNat_decode_encode (by decide), hword, hword, hword]

/-- The time stamp of a command in microseconds, rounded toward zero. -/
theorem toInt_utime (cmd : Twist2DStamped) :
    (mbotCmd cmd).utime.toInt =
      (cmd.header.stamp.sec.toInt * 1000000000 + cmd.header.stamp.nsec.toInt).tdiv 1000 := by
  have hconvert := (toInt_convert (u := 1000) (by decide) (Time.ofMsg cmd.header.stamp).tp).1
  rw [← toInt_ofParts]
  exact hconvert

/-- What `drive` writes for a command is accepted, reads back as the command and
is rejected after any change of a byte that the sums cover. -/
theorem drive_accepted (cmd : Twist2DStamped) (msg : Memory) :
    (drivePacket cmd msg).length = 28 ∧
    segment (drivePacket cmd msg) 0 2 = [syncFlag, versionFlag] ∧
    LittleEndian.decode (segment (drivePacket cmd msg) 2 4) = 20 ∧
    LittleEndian.decode (segment (drivePacket cmd msg) 5 7) = 214 ∧
    sum (segment (drivePacket cmd msg) 2 5) % 256 = 255 ∧
    sum (segment (drivePacket cmd msg) 5 28) % 256 = 255 ∧
    (∃ t, t = SerialTwist2D.ofBytes (segment (drivePacket cmd msg) 7 27) ∧
      t.utime.toInt =
        (cmd.header.stamp.sec.toInt * 1000000000 + cmd.header.stamp.nsec.toInt).tdiv 1000 ∧
      t.vx = cmd.twist.vx ∧ t.vy = cmd.twist.vy ∧ t.wz = cmd.twist.wz) ∧
    (encodeMsg (mbotCmd cmd).bytes TopicId.velCmd.value msg
      ((mbotCmd cmd).bytes.length + rosPkgLength)).1 = 0 ∧
    ∀ (i : Nat) (b : UInt8), 2 ≤ i → i < 28 → (drivePacket cmd msg)[i]? ≠ some b →
      ¬ (sum (segment ((drivePacket cmd msg).set i b) 2 5) % 256 = 255 ∧
        sum (segment ((drivePacket cmd msg).set i b) 5 28) % 256 = 255) := by
  have hsize : (mbotCmd cmd).bytes.length = 20 := SerialTwist2D.length_bytes _
  have hshort : (mbotCmd cmd).bytes.length < 2 ^ 16 := by
    rw [hsize]
    decide
  have haccepted := packet_accepted hshort TopicId.velCmd.value
  rw [← drivePacket_eq cmd msg] at haccepted
  have hlen : (drivePacket cmd msg).length = 28 := by
    rw [haccepted.whole, hsize]
    rfl
  have hchecked := haccepted.checked
  refine ⟨hlen, haccepted.flags, haccepted.length.trans hsize, haccepted.topic,
    hchecked.header, ?body, ?command, ?result, ?changes⟩
  case body =>
    have hbody := hchecked.body
    rwa [bodySum, hlen] at hbody
  case command =>
    have hmessage := haccepted.message
    rw [hsize] at hmessage
    refine ⟨mbotCmd cmd, ?_, toInt_utime cmd, rfl, rfl, rfl⟩
    rw [hmessage, SerialTwist2D.ofBytes_bytes]
  case result => rw [encodeMsg_eq _ _ _ rfl]
  case changes =>
    intro i b hi hlt hb hsums
    have hindex : i < (drivePacket cmd msg).length := by omega
    rw [List.getElem?_eq_getElem hindex] at hb
    apply hchecked.set hi hindex fun heq => hb (congrArg some heq.symm)
    refine ⟨hsums.1, ?_⟩
    rw [bodySum, List.length_set, hlen]
    exact hsums.2

end MBot
