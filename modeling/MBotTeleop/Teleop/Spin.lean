-- SUMMARY: TeleopKeyboard::spin as a machine stepped by the results of its calls.
import MBotTeleop.Ipc.Interfaces
import MBotTeleop.Lib.Ieee
import MBotTeleop.Lib.Machine
import MBotTeleop.Msg.Stream
import MBotTeleop.Util.Time

/-!
# `TeleopKeyboard::spin`

The loop of `teleop_keyboard.cpp`, one step for each call it makes outside. The
state holds the bytes that the output accepted.
-/

namespace TeleopKeyboard

open Rix.Ipc Rix.Msg
open Rix.Msg.Geometry (Twist2D Twist2DStamped)

/-- The constructor's `linear_speed` and `angular_speed`, as double bit patterns. -/
structure Config where
  linearSpeed : BitVec 64
  angularSpeed : BitVec 64

/-- The results of the calls `spin` makes. -/
inductive Event where
  /-- `input->wait_for_readable(1ms)` -/
  | wait (readable : Bool)
  /-- `notif_ready()`, which is `false` where there is no notification. -/
  | poll (ready : Bool)
  /-- `input->read(&ch, 1)` -/
  | read (r : ReadResult)
  /-- `Time::now()` -/
  | now (t : Rix.Util.Time)
  /-- `output->write(src + sent, nbytes - sent)` -/
  | write (r : WriteResult)
  deriving DecidableEq, Repr

-- ---------------------------------------------------------------------------
-- Keys
-- ---------------------------------------------------------------------------

/-- `std::isalpha` in the "C" locale. -/
def isalpha (c : UInt8) : Bool :=
  ('A'.toUInt8 ≤ c ∧ c ≤ 'Z'.toUInt8) ∨ ('a'.toUInt8 ≤ c ∧ c ≤ 'z'.toUInt8)

/-- `std::toupper` in the "C" locale. -/
def toupper (c : UInt8) : UInt8 := if 'a'.toUInt8 ≤ c ∧ c ≤ 'z'.toUInt8 then c - 32 else c

/-- The locals `vx`, `vy` and `wz`, as double bit patterns. -/
structure Velocity where
  vx : BitVec 64 := 0
  vy : BitVec 64 := 0
  wz : BitVec 64 := 0
  deriving DecidableEq, Repr

/-- The `switch` over the normalized key; `none` where it clears `valid`. -/
def velocity (cfg : Config) (ch : UInt8) : Option Velocity :=
  let c := if isalpha ch then toupper ch else ch
  if c = 'W'.toUInt8 then some { vx := cfg.linearSpeed }
  else if c = 'A'.toUInt8 then some { vy := cfg.linearSpeed }
  else if c = 'S'.toUInt8 then some { vx := Ieee.neg cfg.linearSpeed }
  else if c = 'D'.toUInt8 then some { vy := Ieee.neg cfg.linearSpeed }
  else if c = 'Q'.toUInt8 then some { wz := cfg.angularSpeed }
  else if c = 'E'.toUInt8 then some { wz := Ieee.neg cfg.angularSpeed }
  else if c = ' '.toUInt8 then some { vx := 0, vy := 0, wz := 0 }
  else none

/-- `msg.twist.vx = vx` and its like: doubles are stored in float fields. -/
def Velocity.twist (v : Velocity) : Twist2D where
  vx := Ieee.narrow v.vx
  vy := Ieee.narrow v.vy
  wz := Ieee.narrow v.wz

-- ---------------------------------------------------------------------------
-- The loop
-- ---------------------------------------------------------------------------

/-- A `write_exact` in progress: `while (sent < nbytes)` goes on. -/
structure Writing where
  src : List UInt8
  sent : Nat
  lt : sent < src.length
  deriving DecidableEq, Repr

/-- The last argument of the next `output->write`. -/
def Writing.request (w : Writing) : Nat := w.src.length - w.sent

/-- The call `spin` is about to make. -/
inductive Pc where
  | top
  /-- `notif_ready()` when no input came. -/
  | idle
  | read
  /-- `notif_ready()` after an invalid key. -/
  | invalid
  /-- `notif_ready()` before the output for a valid key. -/
  | valid (v : Velocity)
  | now (v : Velocity)
  /-- `write_exact(size_buf, 4)` -/
  | writeSize (w : Writing) (payload : List UInt8)
  /-- `write_exact(payload.data(), payload.size())` -/
  | writePayload (w : Writing)
  | returned
  deriving DecidableEq, Repr

structure State where
  pc : Pc := .top
  seq : BitVec 32 := 0
  /-- The bytes the output accepted. -/
  output : List UInt8 := []
  deriving DecidableEq, Repr

/-- `"mbot"` -/
def frameId : List UInt8 := ['m'.toUInt8, 'b'.toUInt8, 'o'.toUInt8, 't'.toUInt8]

/-- The message for a valid key. -/
def message (seq : BitVec 32) (t : Rix.Util.Time) (v : Velocity) : Twist2DStamped where
  header := { seq := seq, frameId := frameId, stamp := t.toMsg }
  twist := v.twist

/-- `std::vector<uint8_t> payload(n); msg.serialize(payload.data(), off);` -/
def payloadOf (msg : Twist2DStamped) (n : Nat) : List UInt8 :=
  (Message.serialize (Memory.ofList (List.replicate n 0)) 0 msg).1.slice 0 n

/-- `uint8_t size_buf[4]; serialize_number<uint32_t>(size_buf, off2, n);` -/
def sizeBufOf (n : Nat) : List UInt8 :=
  (serializeNumber .uint32 (Memory.ofList []) 0 (BitVec.ofNat 32 n)).1.slice 0 4

/-- From the message to the first call of `write_exact`. -/
def State.send (s : State) (t : Rix.Util.Time) (v : Velocity) : State :=
  let msg := message s.seq t v
  let n := uint32 (Message.size msg)
  { s with
    seq := s.seq + 1
    pc := .writeSize ⟨sizeBufOf n, 0, by rw [sizeBufOf, Memory.slice_length]; decide⟩
      (payloadOf msg n) }

/-- Back to the head of the loop. -/
def State.next (s : State) : State := { s with pc := .top }

/-- `write_exact(size_buf, 4)` returned `true`: `n > 0 && !write_exact(payload…)`. -/
def State.sizeWritten (s : State) (payload : List UInt8) : State :=
  if h : 0 < payload.length then
    { s with pc := .writePayload ⟨payload, 0, h⟩ }
  else
    s.next

/-- One `output->write` inside `write_exact`, which goes on at `more`, returns
`true` to `done`, and makes `spin` return where it returns `false`. -/
def State.writeExact (s : State) (w : Writing) (r : WriteResult) (more : Writing → Pc)
    (done : State → State) : State :=
  match r with
  | .wrote k =>
    let s := { s with output := s.output ++ (w.src.drop w.sent).take k }
    if k = 0 then
      { s with pc := .returned }
    else if h : w.sent + k < w.src.length then
      { s with pc := more ⟨w.src, w.sent + k, h⟩ }
    else
      done s
  | .failed .eintr => s
  | .failed .eagain | .failed .other => { s with pc := .returned }

def step (cfg : Config) (s : State) (e : Event) : Option State :=
  match s.pc, e with
  | .top, .wait readable => some { s with pc := if readable then .read else .idle }
  | .idle, .poll ready => some { s with pc := if ready then .returned else .top }
  | .read, .read r =>
    if r.Possible 1 then
      match r with
      | .bytes bs =>
        match velocity cfg (bs.headD 0) with
        | none => some { s with pc := .invalid }
        | some v => some { s with pc := .valid v }
      | .failed .eintr | .failed .eagain => some { s with pc := .top }
      | .eof | .failed .other => some { s with pc := .returned }
    else
      none
  | .invalid, .poll ready => some { s with pc := if ready then .returned else .top }
  | .valid v, .poll ready => some { s with pc := if ready then .returned else .now v }
  | .now v, .now t => some (s.send t v)
  | .writeSize w payload, .write r =>
    if r.Possible w.request then
      some (s.writeExact w r (.writeSize · payload) (·.sizeWritten payload))
    else
      none
  | .writePayload w, .write r =>
    if r.Possible w.request then
      some (s.writeExact w r .writePayload State.next)
    else
      none
  | _, _ => none

def spin (cfg : Config) : Machine State Event where
  init := {}
  step := step cfg

/-- The key that a call consumed. -/
def Event.key? : Event → Option UInt8
  | read (.bytes bs) => some (bs.headD 0)
  | _ => none

end TeleopKeyboard
