-- SUMMARY: The message classes of rix/msg/standard and rix/msg/geometry, and how a payload of bytes is encoded and decoded.
import MBotTeleop.Msg.Decoding

/-!
# Message classes

The generated classes all have the same three member functions: `size` adds up
the fields, `serialize` and `deserialize` go through them in declaration order.
A class is therefore given by its fields, and the member functions are those of
its shape.
-/

namespace Rix.Msg

/-- `rix::msg::Message`: a class as the list of its fields. -/
class Message (T : Type) where
  shape : Shape
  toValue : T → shape.Value
  ofValue : shape.Value → T
  ofValue_toValue : ∀ m, ofValue (toValue m) = m
  toValue_ofValue : ∀ v, toValue (ofValue v) = v

namespace Standard

structure UInt32 where
  data : BitVec 32 := 0
  deriving DecidableEq, Repr

instance : Message UInt32 where
  shape := .field (.number .uint32) .done
  toValue m := (m.data, ())
  ofValue v := ⟨v.1⟩
  ofValue_toValue _ := rfl
  toValue_ofValue _ := rfl

/-- Two `int32_t`, as two's complement. -/
structure Time where
  sec : BitVec 32 := 0
  nsec : BitVec 32 := 0
  deriving DecidableEq, Repr

instance : Message Time where
  shape := .field (.number .int32) (.field (.number .int32) .done)
  toValue m := (m.sec, m.nsec, ())
  ofValue v := ⟨v.1, v.2.1⟩
  ofValue_toValue _ := rfl
  toValue_ofValue _ := rfl

structure Duration where
  sec : BitVec 32
  nsec : BitVec 32
  deriving DecidableEq, Repr

instance : Message Duration where
  shape := .field (.number .int32) (.field (.number .int32) .done)
  toValue m := (m.sec, m.nsec, ())
  ofValue v := ⟨v.1, v.2.1⟩
  ofValue_toValue _ := rfl
  toValue_ofValue _ := rfl

structure Header where
  seq : BitVec 32 := 0
  stamp : Time := {}
  frameId : List UInt8 := []
  deriving DecidableEq, Repr

instance : Message Header where
  shape := .field (.number .uint32) (.field (Message.shape Time) (.field .string .done))
  toValue m := (m.seq, Message.toValue m.stamp, m.frameId, ())
  ofValue v := ⟨v.1, Message.ofValue v.2.1, v.2.2.1⟩
  ofValue_toValue _ := rfl
  toValue_ofValue _ := rfl

end Standard

namespace Geometry

/-- Three `float`, as bit patterns. -/
structure Twist2D where
  vx : BitVec 32 := 0
  vy : BitVec 32 := 0
  wz : BitVec 32 := 0
  deriving DecidableEq, Repr

instance : Message Twist2D where
  shape := .field (.number .float) (.field (.number .float) (.field (.number .float) .done))
  toValue m := (m.vx, m.vy, m.wz, ())
  ofValue v := ⟨v.1, v.2.1, v.2.2.1⟩
  ofValue_toValue _ := rfl
  toValue_ofValue _ := rfl

structure Twist2DStamped where
  header : Standard.Header := {}
  twist : Twist2D := {}
  deriving DecidableEq, Repr

instance : Message Twist2DStamped where
  shape := .field (Message.shape Standard.Header) (.field (Message.shape Twist2D) .done)
  toValue m := (Message.toValue m.header, Message.toValue m.twist, ())
  ofValue v := ⟨Message.ofValue v.1, Message.ofValue v.2.1⟩
  ofValue_toValue _ := rfl
  toValue_ofValue _ := rfl

end Geometry

namespace Message

variable {T : Type} [Message T]

/-- `size() const`. -/
def size (m : T) : Nat := (shape T).size (toValue m)

/-- `serialize(dst, offset) const`. -/
def serialize (dst : Memory) (offset : Nat) (m : T) : Written :=
  (shape T).serialize dst offset (toValue m)

/-- `deserialize(src, size, offset)` on the object `dst`. -/
def deserialize (src : Memory) (size : Nat) (dst : T) (c : Cursor) : Result T :=
  let r := (shape T).deserialize src size (toValue dst) c
  ⟨r.ok, ofValue r.dst, r.cursor⟩

/-- The bytes a message is serialized to. -/
def encode (m : T) : List UInt8 := (shape T).encode (toValue m)

/-- A payload buffer holds the encoding of a message after `serialize` ran on
a buffer of `size()` bytes. -/
theorem serialize_payload {m : T} (hshort : (encode m).length < 2 ^ 32) (buffer : Memory) :
    size m = (encode m).length ∧ (serialize buffer 0 m).1.slice 0 (size m) = encode m := by
  have hsize : size m = (encode m).length := (shape T).size_measures.exact _ hshort
  have hwritten := (shape T).serialize_spec buffer 0 (toValue m) (.inr hshort)
    (by change 0 + (encode m).length < 2 ^ 64; omega)
  refine ⟨hsize, ?_⟩
  rw [hsize, serialize, hwritten]
  exact Memory.slice_write ..

/-- The message in a payload, if `deserialize` on a default object accepts it. -/
def decode (fresh : T) (payload : List UInt8) : Option T :=
  let r := deserialize (Memory.ofList payload) payload.length fresh ⟨0, []⟩
  if r.ok then some r.dst else none

/-- An encoded payload is accepted and consumed whole. -/
theorem deserialize_encode {m : T} (hm : (shape T).Bounded (toValue m)) (fresh : T)
    (hlen : (encode m).length < 2 ^ 64) :
    let r := deserialize (Memory.ofList (encode m)) (encode m).length fresh ⟨0, []⟩
    r.ok = true ∧ r.dst = m ∧ r.cursor.offset = (encode m).length := by
  have hsrc : (Memory.ofList (encode m)).slice 0 (encode m).length = encode m :=
    Memory.slice_ofList _
  have hfit : 0 + (encode m).length ≤ (encode m).length := Nat.le_of_eq (Nat.zero_add _)
  obtain ⟨hok, hdst, hoffset⟩ :=
    Shape.deserialize_encode (c := ⟨0, []⟩) hm (toValue fresh) hsrc hfit hlen
  refine ⟨hok, ?_, hoffset.trans (Nat.zero_add _)⟩
  simp only [deserialize, hdst, ofValue_toValue]

/-- An encoded payload decodes to its message. -/
theorem decode_encode {m : T} (hm : (shape T).Bounded (toValue m)) (fresh : T)
    (hlen : (encode m).length < 2 ^ 64) : decode fresh (encode m) = some m := by
  obtain ⟨hok, hdst, -⟩ := deserialize_encode hm fresh hlen
  simp only [decode, hok, if_true, hdst]

/-- A payload that holds a value of its own length is the encoding of a message. -/
theorem exists_encode_of_extent {payload : List UInt8}
    (h : (shape T).layout.extent (Memory.ofList payload) 0 = payload.length) :
    ∃ m : T, (shape T).Bounded (toValue m) ∧ payload = encode m := by
  refine ⟨ofValue ((shape T).layout.value (Memory.ofList payload) 0), ?_, ?_⟩
  · rw [toValue_ofValue]
    exact Shape.layout_fits.mp ((shape T).layout.fits_view _ _)
  · rw [encode, toValue_ofValue, Shape.encode, Layout.encode_value, h, Memory.slice_ofList]

end Message

namespace Geometry

/-- The fields of a `Twist2DStamped` on the wire. -/
theorem Twist2DStamped.encode_eq (m : Twist2DStamped) :
    Message.encode m =
      (LittleEndian.encode 4 m.header.seq.toNat ++
        ((LittleEndian.encode 4 m.header.stamp.sec.toNat ++
            (LittleEndian.encode 4 m.header.stamp.nsec.toNat ++ [])) ++
          ((LittleEndian.encode 4 m.header.frameId.length ++ m.header.frameId) ++ []))) ++
      ((LittleEndian.encode 4 m.twist.vx.toNat ++
          (LittleEndian.encode 4 m.twist.vy.toNat ++
            (LittleEndian.encode 4 m.twist.wz.toNat ++ []))) ++ []) := rfl

theorem Twist2DStamped.length_encode (m : Twist2DStamped) :
    (Message.encode m).length = 28 + m.header.frameId.length := by
  simp only [encode_eq, List.length_append, LittleEndian.encode_length, List.length_nil]
  omega

/-- Only the frame id has a length that could be too large. -/
theorem Twist2DStamped.bounded_iff (m : Twist2DStamped) :
    (Message.shape Twist2DStamped).Bounded (Message.toValue m) ↔ m.header.frameId.length < 2 ^ 32 :=
  ⟨fun h => h.1.2.2.1,
    fun h => ⟨⟨trivial, ⟨trivial, trivial, trivial⟩, h, trivial⟩, ⟨trivial, trivial, trivial, trivial⟩,
      trivial⟩⟩

end Geometry

end Rix.Msg
