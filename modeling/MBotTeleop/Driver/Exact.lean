-- SUMMARY: Which frames MBotDriver::spin drives although their payload is more than one message.
import MBotTeleop.Driver.Refinement

/-!
# Exact frames

A payload is exact when `deserialize` consumes all of it. `spin` does not look
at the offset that `deserialize` left, so a payload that begins with a message
is driven whatever follows the message.
-/

namespace MBotDriver

open Rix.Ipc Rix.Msg
open Rix.Msg.Geometry (Twist2DStamped)

/-- What `cmd.deserialize(payload.data(), payload.size(), off)` leaves. -/
def deserialized (payload : List UInt8) : Result Twist2DStamped :=
  Message.deserialize (Memory.ofList payload) payload.length {} ⟨0, []⟩

/-- `deserialize` succeeds and consumes the whole payload. -/
def Exact (payload : List UInt8) : Prop :=
  (deserialized payload).ok = true ∧ (deserialized payload).cursor.offset = payload.length

instance (payload : List UInt8) : Decidable (Exact payload) := inferInstanceAs (Decidable (_ ∧ _))

/-- The length of the frame id that a payload announces, in bytes 12 to 15. -/
def frameIdLength (payload : List UInt8) : Nat := LittleEndian.decode ((payload.drop 12).take 4)

/-- The payload is not longer than the message it announces. -/
def NoSurplus (payload : List UInt8) : Prop := payload.length ≤ 28 + frameIdLength payload

/-- The command of a frame for a driver that takes a surplus for a bad message. -/
def exactCommand (frame : List UInt8) : Option Twist2DStamped :=
  if Exact (sizePrefixed.body frame) then command frame else none

theorem deserializeCmd_eq (payload : List UInt8) :
    deserializeCmd payload =
      if (deserialized payload).ok then some (deserialized payload).dst else none := rfl

-- ---------------------------------------------------------------------------
-- One payload
-- ---------------------------------------------------------------------------

/-- The extent of a command is that of its fixed fields and of its frame id. -/
theorem twist_extent (m : Memory) :
    (Message.shape Twist2DStamped).layout.extent m 0 = 28 + Layout.announced 4 m 12 := by
  change (4 + ((4 + (4 + 0)) + ((4 + Layout.announced 4 m 12) + 0))) + ((4 + (4 + (4 + 0))) + 0) = _
  omega

/-- A payload is accepted when the message it announces fits in it. -/
theorem deserialized_ok_iff {payload : List UInt8} (hlen : payload.length < 2 ^ 63) :
    (deserialized payload).ok = true ↔
      28 + Layout.announced 4 (Memory.ofList payload) 12 ≤ payload.length := by
  have hiff := ((Message.shape Twist2DStamped).deserialize_spec (Message.toValue {})).ok_iff
    (m := Memory.ofList payload) (c := ⟨0, []⟩) hlen (Nat.zero_le _)
  change _ ↔ 0 + (Message.shape Twist2DStamped).layout.extent _ 0 ≤ _ at hiff
  rwa [Nat.zero_add, twist_extent] at hiff

theorem deserialized_offset {payload : List UInt8} (hlen : payload.length < 2 ^ 63)
    (hok : (deserialized payload).ok = true) :
    (deserialized payload).cursor.offset =
      28 + Layout.announced 4 (Memory.ofList payload) 12 := by
  have hof := ((Message.shape Twist2DStamped).deserialize_spec (Message.toValue {})).of_ok
    (c := ⟨0, []⟩) hlen (Nat.zero_le _) hok
  have hend : _ = 0 + (Message.shape Twist2DStamped).layout.extent _ 0 := hof.2
  rwa [Nat.zero_add, twist_extent] at hend

theorem announced_eq {payload : List UInt8} (h : 16 ≤ payload.length) :
    Layout.announced 4 (Memory.ofList payload) 12 = frameIdLength payload :=
  congrArg LittleEndian.decode (Memory.slice_ofList_of_le h)

/-- A payload is driven only if it is exact, except where it has a surplus. -/
theorem exact_of_driven_iff {payload : List UInt8} (hlen : payload.length < 2 ^ 63) :
    ((deserializeCmd payload).isSome → Exact payload) ↔ NoSurplus payload := by
  have hiff := deserialized_ok_iff hlen
  rw [deserializeCmd_eq]
  unfold NoSurplus
  by_cases hok : (deserialized payload).ok = true
  · have hfit := hiff.mp hok
    have hoffset := deserialized_offset hlen hok
    rw [announced_eq (by omega)] at hfit hoffset
    simp only [hok, if_true, Option.isSome_some, Exact, hoffset, forall_const, true_and]
    omega
  · have hbad : payload.length ≤ 28 + frameIdLength payload := by
      by_cases hshort : payload.length < 16
      · omega
      · rw [hiff, announced_eq (by omega)] at hok
        omega
    simp only [hok, hbad, if_false, Option.isSome_none, Bool.false_eq_true, false_imp_iff]

/-- An exact payload is the encoding of one message. -/
theorem exact_iff_encode {payload : List UInt8} (hlen : payload.length < 2 ^ 63) :
    Exact payload ↔
      ∃ m : Twist2DStamped, m.header.frameId.length < 2 ^ 32 ∧ payload = Message.encode m := by
  simp only [← Geometry.Twist2DStamped.bounded_iff]
  constructor
  · rintro ⟨hok, hoffset⟩
    apply Message.exists_encode_of_extent
    rw [twist_extent, ← deserialized_offset hlen hok, hoffset]
  · rintro ⟨m, hm, rfl⟩
    obtain ⟨hok, -, hoffset⟩ := Message.deserialize_encode hm {} (by omega)
    exact ⟨hok, hoffset⟩

-- ---------------------------------------------------------------------------
-- Runs
-- ---------------------------------------------------------------------------

/-- Two partial functions, one of which is defined on fewer arguments, select
the same from a list exactly where they agree on it. -/
theorem filterMap_eq_iff {α β : Type} {f g : α → Option β} (h : ∀ x, g x = none ∨ g x = f x)
    (xs : List α) : xs.filterMap f = xs.filterMap g ↔ ∀ x ∈ xs, f x = g x := by
  have hle (xs : List α) : (xs.filterMap g).length ≤ (xs.filterMap f).length := by
    induction xs with
    | nil => exact Nat.le_refl _
    | cons x xs ih =>
      simp only [List.filterMap_cons]
      rcases h x with hx | hx <;> rw [hx] <;> cases f x <;> simp only [List.length_cons] <;> omega
  constructor
  · intro heq
    induction xs with
    | nil => exact nofun
    | cons x xs ih =>
      have hxs := hle xs
      simp only [List.filterMap_cons] at heq
      rw [List.forall_mem_cons]
      rcases h x with hx | hx
      · rw [hx] at heq ⊢
        cases hf : f x with
        | none =>
          rw [hf] at heq
          exact ⟨rfl, ih heq⟩
        | some y =>
          -- the lists would differ in length
          rw [hf] at heq
          have hlen := congrArg List.length heq
          simp only [List.length_cons] at hlen
          omega
      · rw [hx] at heq
        refine ⟨hx.symm, ih ?_⟩
        cases hf : f x with
        | none => rwa [hf] at heq
        | some y =>
          rw [hf] at heq
          exact (List.cons.inj heq).2
  · intro hall
    exact List.filterMap_congr hall

theorem command_eq_exactCommand_iff {frame : List UInt8} (hlen : frame.length < 2 ^ 63) :
    command frame = exactCommand frame ↔ NoSurplus (sizePrefixed.body frame) := by
  have hbody : (sizePrefixed.body frame).length < 2 ^ 63 := by
    rw [Framing.body, List.length_drop]
    omega
  rw [← exact_of_driven_iff hbody, exactCommand]
  change _ ↔ ((command frame).isSome → _)
  by_cases hexact : Exact (sizePrefixed.body frame)
  · simp only [hexact, if_true, implies_true]
  · simp only [hexact, if_false, imp_false, Bool.not_eq_true, Option.isSome_eq_false_iff,
      Option.isNone_iff_eq_none]

/-- A frame of a size prefix of four bytes. -/
theorem length_of_isFrame {frame : List UInt8} (h : sizePrefixed.IsFrame frame) :
    frame.length < 2 ^ 63 := by
  have hlt := LittleEndian.decode_lt (frame.take 4)
  have hle := Nat.pow_le_pow_right (show 0 < 256 by decide) (List.length_take_le 4 frame)
  have hlen : frame.length = 4 + LittleEndian.decode (frame.take 4) := h
  omega

/-- In every run `spin` drives the commands of the frames. A frame is driven
only if it is exact, unless it has a surplus; so the drive log is that of a
driver which takes a surplus for a bad message as long as no frame has one. -/
theorem spin_exact_iff {es : List Event} {s : State} (hrun : spin.run es = some s) :
    ∃ frames rest,
      sizePrefixed.Splits (delivered es) frames rest ∧
      s.drives = frames.filterMap command ++ (if s.pc = .returned then [stop] else []) ∧
      (∀ frame ∈ frames,
        ((command frame).isSome → Exact (sizePrefixed.body frame)) ↔
          NoSurplus (sizePrefixed.body frame)) ∧
      (s.drives = frames.filterMap exactCommand ++ (if s.pc = .returned then [stop] else []) ↔
        ∀ frame ∈ frames, NoSurplus (sizePrefixed.body frame)) := by
  obtain ⟨frames, rest, hsplits, -, hdrives⟩ := run_follows hrun
  have hlen : ∀ frame ∈ frames, frame.length < 2 ^ 63 := fun frame hframe =>
    length_of_isFrame (hsplits.frames frame hframe)
  refine ⟨frames, rest, hsplits, hdrives, fun frame hframe => ?_, ?_⟩
  · apply exact_of_driven_iff
    have := hlen frame hframe
    rw [Framing.body, List.length_drop]
    omega
  · have hsub (frame : List UInt8) : exactCommand frame = none ∨ exactCommand frame = command frame := by
      unfold exactCommand
      split
      · exact .inr rfl
      · exact .inl rfl
    rw [hdrives, List.append_cancel_right_eq, filterMap_eq_iff hsub]
    exact forall₂_congr fun frame hframe => command_eq_exactCommand_iff (hlen frame hframe)

/-- The size prefix of the first frame covers the frame after it. -/
def swallowing : List UInt8 :=
  LittleEndian.encode 4 60 ++ Message.encode { stop with twist.vx := 1 } ++ Message.frame stop

/-- The stop command after it is lost, and the first command is driven although
its payload is not one message. -/
theorem spin_drives_surplus :
    spin.run [.poll false, .read (.bytes (swallowing.take 4)), .read (.bytes (swallowing.drop 4))] =
        some ⟨.top, [{ stop with twist.vx := 1 }]⟩ ∧
      sizePrefixed.IsFrame swallowing ∧ ¬ Exact (sizePrefixed.body swallowing) := by
  decide +kernel

/-- A run of one exact frame. -/
theorem spin_exact_iff_example :
    ∃ frames rest, sizePrefixed.Splits (delivered [.poll false,
        .read (.bytes ((Message.frame stop).take 4)),
        .read (.bytes ((Message.frame stop).drop 4))]) frames rest ∧
      [stop] = frames.filterMap command ++ [] := by
  have hrun : spin.run [.poll false, .read (.bytes ((Message.frame stop).take 4)),
      .read (.bytes ((Message.frame stop).drop 4))] = some ⟨.top, [stop]⟩ := rfl
  obtain ⟨frames, rest, hsplits, hdrives, -⟩ := spin_exact_iff hrun
  exact ⟨frames, rest, hsplits, hdrives⟩

end MBotDriver
