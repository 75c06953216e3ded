-- SUMMARY: MBot::drive and MBot::timesync as threads that write to one serial line under a mutex.
import MBotTeleop.Ipc.Interfaces
import MBotTeleop.Lib.Machine
import MBotTeleop.Lib.Turns
import MBotTeleop.MBot.Packet

/-!
# The serial line

`mbot.cpp` has one thread of its own, which runs `MBot::timesync`, and any
number of threads may be inside `MBot::drive`. Both kinds pass their packet to
`file.write` between `mtx.lock()` and `mtx.unlock()`. The device is opened with
`O_NDELAY`, so a write accepts what there is room for, or fails with `EAGAIN`.
-/

namespace MBot

open Rix.Ipc
open Rix.Msg.Geometry (Twist2DStamped)

/-- The calls of `drive` are numbered in the order in which they begin. -/
inductive Writer where
  | drive (call : Nat)
  | timesync
  deriving DecidableEq, Repr

/-- Where a call of `drive` is. -/
inductive Phase where
  /-- At `mtx.lock()`, with the encoded packet. -/
  | lock (msg : List UInt8)
  /-- Between `mtx.lock()` and `mtx.unlock()`. -/
  | locked
  | returned
  deriving DecidableEq, Repr

structure Call where
  cmd : Twist2DStamped
  phase : Phase
  deriving DecidableEq, Repr

/-- Where the loop of `timesync` is. -/
inductive Loop where
  /-- At the test of `stop_timesync_flag`. -/
  | top
  | lock (rospkt : List UInt8)
  | locked
  | exited
  deriving DecidableEq, Repr

/-- A critical section: who holds the mutex, the packet, and the result of
`file.write` once it has returned. -/
structure Section where
  writer : Writer
  packet : List UInt8
  result : Option WriteResult
  deriving DecidableEq, Repr

structure State where
  stopTimesyncFlag : Bool
  calls : List Call := []
  timesync : Loop := .top
  mtx : Option Section := none
  /-- The critical sections that are over. -/
  past : List (Turn Writer UInt8) := []
  /-- The bytes the device accepted. -/
  accepted : List UInt8 := []
  deriving DecidableEq, Repr

inductive Event where
  /-- A call of `drive`, up to `mtx.lock()`; `msg` is the array on its stack. -/
  | drive (cmd : Twist2DStamped) (msg : Memory)
  /-- A round of `timesync`, up to `mtx.lock()`, at the time `ts`. -/
  | timesync (ts : Timespec) (rospkt : Memory)
  /-- `mtx.lock()` returns. -/
  | lock (w : Writer)
  /-- `file.write` returns. -/
  | write (r : WriteResult)
  /-- `mtx.unlock()`, and what follows it. -/
  | unlock
  /-- The destructor stores `stop_timesync_flag`. -/
  | stop

/-- The packet with which a writer waits for the mutex. -/
def State.waiting (s : State) : Writer → Option (List UInt8)
  | .drive call =>
    match s.calls[call]? with
    | some ⟨_, .lock msg⟩ => some msg
    | _ => none
  | .timesync =>
    match s.timesync with
    | .lock rospkt => some rospkt
    | _ => none

/-- `drive` before `mtx.lock()`. -/
def State.driven (s : State) (cmd : Twist2DStamped) (msg : Memory) : State :=
  { s with calls := s.calls ++ [⟨cmd, .lock (drivePacket cmd msg)⟩] }

def State.setPhase (s : State) (call : Nat) (phase : Phase) : State :=
  { s with calls := s.calls.modify call fun c => { c with phase := phase } }

/-- A round of `timesync` before `mtx.lock()`. -/
def State.timesyncRound (s : State) (ts : Timespec) (rospkt : Memory) : State :=
  if s.stopTimesyncFlag then
    { s with timesync := .exited }
  else
    match timesyncPacket ts rospkt with
    | none => { s with timesync := .exited }
    | some rospkt => { s with timesync := .lock rospkt }

def State.locked (s : State) : Writer → State
  | .drive call => s.setPhase call .locked
  | .timesync => { s with timesync := .locked }

/-- `drive` returns whatever the result of its write was; `timesync` breaks
when it is negative, else sleeps and goes on. -/
def State.unlocked (s : State) (r : WriteResult) : Writer → State
  | .drive call => s.setPhase call .returned
  | .timesync =>
    match r with
    | .failed _ => { s with timesync := .exited }
    | .wrote _ => { s with timesync := .top }

/-- A critical section as a turn on the line. -/
def Section.turn (sec : Section) : Turn Writer UInt8 :=
  ⟨sec.writer, sec.packet, sec.result.elim 0 WriteResult.accepted⟩

def step (s : State) : Event → Option State
  | .drive cmd msg => some (s.driven cmd msg)
  | .timesync ts rospkt =>
    match s.timesync with
    | .top => some (s.timesyncRound ts rospkt)
    | _ => none
  | .lock w =>
    match s.mtx, s.waiting w with
    | none, some packet => some { s.locked w with mtx := some ⟨w, packet, none⟩ }
    | _, _ => none
  | .write r =>
    match s.mtx with
    | some ⟨w, packet, none⟩ =>
      if r.Possible packet.length then
        some { s with
          mtx := some ⟨w, packet, some r⟩, accepted := s.accepted ++ packet.take r.accepted }
      else
        none
    | _ => none
  | .unlock =>
    match s.mtx with
    | some ⟨w, packet, some r⟩ =>
      some { s.unlocked r w with mtx := none, past := s.past ++ [Section.turn ⟨w, packet, some r⟩] }
    | _ => none
  | .stop => some { s with stopTimesyncFlag := true }

/-- An `MBot` after its constructor, which stores nothing in `stop_timesync_flag`:
it may start either way. Where the constructor gives up early there is no thread,
and `timesync` makes no step. -/
def serial (stopTimesyncFlag : Bool) : Machine State Event where
  init := { stopTimesyncFlag }
  step := step

end MBot
