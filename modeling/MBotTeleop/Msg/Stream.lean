-- SUMMARY: The stream between the two programs: frames of a 4-byte size prefix and a serialized message.
import MBotTeleop.Lib.Framing
import MBotTeleop.Msg.Messages

/-!
# The command stream

The keyboard writes its commands to a stream of bytes and the driver reads them
from it. A command is a frame: the size of the payload as a `uint32_t`, and the
payload.
-/

namespace Rix.Msg

/-- Frames announced by a 4-byte little-endian size. -/
def sizePrefixed : Framing UInt8 where
  headerLen := 4
  headerLen_pos := by decide
  bodyLen := LittleEndian.decode

@[simp] theorem sizePrefixed_headerLen : sizePrefixed.headerLen = 4 := rfl

/-- A number read from a buffer of its own size. -/
theorem deserializeNumber_buffer (t : NumType) {bytes : List UInt8} (h : bytes.length = t.sizeof)
    (dst : t.Value) :
    (deserializeNumber t (Memory.ofList bytes) t.sizeof dst ⟨0, []⟩).ok = true ∧
      (deserializeNumber t (Memory.ofList bytes) t.sizeof dst ⟨0, []⟩).dst = t.ofBytes bytes := by
  have hsize : ¬ sizeT (0 + t.sizeof) > t.sizeof := by
    rw [Nat.zero_add]
    exact Nat.not_lt.mpr (Nat.mod_le _ _)
  have hslice : (Memory.ofList bytes).slice 0 t.sizeof = bytes := h ▸ Memory.slice_ofList bytes
  simp only [deserializeNumber, fetch, if_neg hsize, hslice, if_true, and_self]

namespace Message

variable {T : Type} [Message T]

/-- The frame of a message. -/
def frame (m : T) : List UInt8 := LittleEndian.encode 4 (encode m).length ++ encode m

@[simp] theorem length_frame (m : T) : (frame m).length = 4 + (encode m).length := by
  simp [frame]

theorem body_frame (m : T) : sizePrefixed.body (frame m) = encode m :=
  List.drop_left' (LittleEndian.encode_length ..)

/-- The size prefix of a frame announces the payload after it. -/
theorem isFrame_frame {m : T} (hshort : (encode m).length < 2 ^ 32) :
    sizePrefixed.IsFrame (frame m) := by
  have hhead : (frame m).take 4 = LittleEndian.encode 4 (encode m).length :=
    List.take_left' (LittleEndian.encode_length ..)
  have hbody : LittleEndian.decode ((frame m).take 4) = (encode m).length := by
    rw [hhead, LittleEndian.decode_encode]
    exact Nat.mod_eq_of_lt hshort
  rw [Framing.IsFrame, Framing.frameLen, length_frame]
  exact congrArg (4 + ·) hbody.symm

/-- A frame carries its message. -/
theorem decode_body_frame {m : T} (hm : (shape T).Bounded (toValue m)) (fresh : T)
    (hlen : (encode m).length < 2 ^ 64) :
    decode fresh (sizePrefixed.body (frame m)) = some m := by
  rw [body_frame]
  exact decode_encode hm fresh hlen

end Message

end Rix.Msg
