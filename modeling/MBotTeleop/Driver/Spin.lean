-- SUMMARY: MBotDriver::spin as a machine stepped by the results of its calls.
import MBotTeleop.Ipc.Interfaces
import MBotTeleop.Lib.Machine
import MBotTeleop.Msg.Stream

/-!
# `MBotDriver::spin`

The loop of `mbot_driver.cpp`, one step for each call it makes outside. `read`
and the notification may return anything they can; what `spin` computes between
two calls, a call of `drive` included, happens in the step of the first.
-/

namespace MBotDriver

open Rix.Ipc Rix.Msg
open Rix.Msg.Geometry (Twist2DStamped)

/-- The results of the calls `spin` makes. -/
inductive Event where
  /-- `notif_ready()`, which is `false` where there is no notification. -/
  | poll (ready : Bool)
  | read (r : ReadResult)
  /-- `wait_for_readable(1ms)`, whose result is not looked at. -/
  | wait (readable : Bool)
  deriving DecidableEq, Repr

/-- The two buffers that `read_exact` fills. -/
inductive Buffer where
  | sizeBuf
  | payload (msgSize : Nat)
  deriving DecidableEq, Repr

/-- The second argument of `read_exact`. -/
def Buffer.size : Buffer → Nat
  | sizeBuf => 4
  | payload msgSize => msgSize

/-- A `read_exact` in progress: `while (got < n)` goes on. -/
structure Reading where
  buffer : Buffer
  /-- The first `got` bytes of the buffer. -/
  dst : List UInt8
  lt : dst.length < buffer.size
  deriving DecidableEq, Repr

/-- The last argument of the next `input->read`. -/
def Reading.request (rd : Reading) : Nat := rd.buffer.size - rd.dst.length

/-- The call `spin` is about to make. -/
inductive Pc where
  /-- `notif_ready()` between messages. -/
  | top
  | read (rd : Reading)
  /-- `notif_ready()` after `EAGAIN`. -/
  | again (rd : Reading)
  /-- `wait_for_readable` after `EAGAIN`. -/
  | wait (rd : Reading)
  | returned
  deriving DecidableEq, Repr

structure State where
  pc : Pc := .top
  /-- The arguments of `mbot->drive` so far. -/
  drives : List Twist2DStamped := []
  deriving DecidableEq, Repr

/-- The command of `send_stop`. -/
def stop : Twist2DStamped := { twist := { vx := 0, vy := 0, wz := 0 } }

/-- `send_stop(); return;` -/
def State.sendStop (s : State) : State := { pc := .returned, drives := s.drives ++ [stop] }

/-- `cmd.deserialize(payload.data(), payload.size(), off)` on a fresh `cmd`. -/
def deserializeCmd (payload : List UInt8) : Option Twist2DStamped := Message.decode {} payload

/-- The end of the loop body: drive, unless the message is bad. -/
def State.drivePayload (s : State) (payload : List UInt8) : State :=
  match deserializeCmd payload with
  | none => { s with pc := .top }
  | some cmd => { pc := .top, drives := s.drives ++ [cmd] }

/-- From `deserialize_number<uint32_t>` on: read the payload, if there is one. -/
def State.readPayload (s : State) (sizeBuf : List UInt8) : State :=
  let msgSize := deserializeNumber .uint32 (Memory.ofList sizeBuf) 4 0 ⟨0, []⟩
  if msgSize.ok then
    if h : 0 < msgSize.dst.toNat then
      { s with pc := .read ⟨.payload msgSize.dst.toNat, [], h⟩ }
    else
      s.drivePayload []
  else
    s.sendStop

/-- `read_exact` returned `true`. -/
def State.filled (s : State) : Buffer → List UInt8 → State
  | .sizeBuf, dst => s.readPayload dst
  | .payload _, dst => s.drivePayload dst

/-- `got += r`, and out of the loop of `read_exact` when the buffer is full. -/
def State.advance (s : State) (rd : Reading) (bs : List UInt8) : State :=
  if h : (rd.dst ++ bs).length < rd.buffer.size then
    { s with pc := .read ⟨rd.buffer, rd.dst ++ bs, h⟩ }
  else
    s.filled rd.buffer (rd.dst ++ bs)

def step (s : State) (e : Event) : Option State :=
  match s.pc, e with
  | .top, .poll ready =>
    some (if ready then s.sendStop else { s with pc := .read ⟨.sizeBuf, [], by decide⟩ })
  | .read rd, .read r =>
    if r.Possible rd.request then
      match r with
      | .bytes bs => some (s.advance rd bs)
      | .failed .eintr => some s
      | .failed .eagain => some { s with pc := .again rd }
      -- `read_exact` returns false, in the size prefix and in the payload alike
      | .eof | .failed .other => some s.sendStop
    else
      none
  | .again rd, .poll ready => some (if ready then s.sendStop else { s with pc := .wait rd })
  | .wait rd, .wait _ => some { s with pc := .read rd }
  | _, _ => none

def spin : Machine State Event where
  init := {}
  step := step

/-- The bytes that `read` delivered. -/
def Event.delivered : Event → List UInt8
  | read r => r.delivered
  | poll _ | wait _ => []

end MBotDriver
