-- SUMMARY: The Signal class: its static registry, the objects that own a slot of it, and the handler.
import MBotTeleop.Ipc.Pipe
import MBotTeleop.Lib.Machine

/-!
# Signals

A process with any number of `Signal` objects, the static table `notifier` they
share, the dispositions of its signals and its descriptors. Member functions run
one after the other, and a handler runs to its end before the next of them.
-/

namespace Rix.Ipc.Signal

/-- `SignalNotifier`. -/
structure Notifier where
  pipe0 : Pipe := {}
  pipe1 : Pipe := {}
  isInit : Bool := false
  deriving DecidableEq, Repr

inductive Disposition where
  /-- `SIG_DFL` -/
  | default
  /-- `Signal::handler` -/
  | handler
  deriving DecidableEq, Repr

structure State where
  notifier : Fin 32 → Notifier
  disposition : Int → Disposition
  /-- `signum_` of every object that was constructed and not yet destroyed. -/
  live : Nat → Option Int
  kernel : Kernel

/-- `signum_ >= 0 && signum_ < 32`, and the slot it then names. -/
def slot? (signum_ : Int) : Option (Fin 32) :=
  if h : 0 ≤ signum_ ∧ signum_ < 32 then some ⟨signum_.toNat, by omega⟩ else none

/-- `notifier.pipe = pipes`, for a temporary array of two pipes, and its end. -/
def Notifier.assignPipes (n : Notifier) (k : Kernel) (t0 t1 : Pipe) : Notifier × Kernel :=
  let (k, pipe0, t0) := Pipe.moveAssign k n.pipe0 t0
  let (k, pipe1, t1) := Pipe.moveAssign k n.pipe1 t1
  let k := Pipe.destroy k t1
  let k := Pipe.destroy k t0
  ({ n with pipe0 := pipe0, pipe1 := pipe1 }, k)

/-- `Signal::Signal(int signum)` for a new object, and the message of the
exception it throws. -/
def State.construct (s : State) (id : Nat) (signum : Int) (pipe : Option (Int × Int)) :
    State × Option String :=
  if h : signum < 1 ∨ signum > 32 then
    (s, some "Signal: signum must be in [1, 32]")
  else
    let idx : Fin 32 := ⟨(signum - 1).toNat, by omega⟩
    if (s.notifier idx).isInit then
      (s, some "Signal: handler for this signum already exists")
    else
      let (k, t0, t1) := Pipe.create s.kernel pipe
      let (n, k) := (s.notifier idx).assignPipes k t0 t1
      ({ notifier := Function.update s.notifier idx { n with isInit := true }
         live := Function.update s.live id (some idx)
         disposition := Function.update s.disposition signum .handler
         kernel := k }, none)

/-- The beginning of `~Signal()` and of the move assignment: give the slot up. -/
def State.release (s : State) (signum_ : Int) : State :=
  match slot? signum_ with
  | none => s
  | some i =>
    if (s.notifier i).isInit then
      let (n, k) := { s.notifier i with isInit := false }.assignPipes s.kernel {} {}
      { s with
        notifier := Function.update s.notifier i n
        kernel := k
        disposition := Function.update s.disposition (signum_ + 1) .default }
    else
      s

/-- `Signal::~Signal()`, whose object is gone then. -/
def State.destroy (s : State) (signum_ : Int) : State := s.release signum_

/-- `Signal::Signal(Signal &&other)`: `signum_` of the new object, and what is left
in `other`. -/
def moveConstruct (otherSignum_ : Int) : Int × Int := (otherSignum_, -1)

/-- `Signal::operator=(Signal &&other)` for another object: `signum_`, and what is
left in `other`. -/
def State.moveAssign (s : State) (signum_ otherSignum_ : Int) : State × Int × Int :=
  (s.release signum_, otherSignum_, -1)

/-- `Signal::operator=(Signal &&other)` for the object itself, which swaps its
`signum_` with itself after it was reset. -/
def State.moveAssignSelf (s : State) (signum_ : Int) : State × Int := (s.release signum_, -1)

/-- `while (true) { ssize_t n = read_end.read(buf, sizeof(buf)); … }`; `none`
where a read blocks. A loop of at most `fuel` iterations. -/
def drain (readEnd : Pipe) : Nat → Kernel → Option Kernel
  | 0, _ => none
  | fuel + 1, k =>
    match readEnd.read k 64 with
    | none => none
    | some (.bytes _, k) => drain readEnd fuel k
    | some (.eof, k) | some (.failed _, k) => some k

/-- More iterations than bytes in the pipe. -/
def drainFuel (readEnd : Pipe) (k : Kernel) : Nat :=
  match k.fds readEnd.fd with
  | some (.readEnd p) => (k.buffer p).length + 1
  | _ => 1

/-- `Signal::wait` after its `wait_for_readable`; `none` where it does not return. -/
def State.waitReadable (s : State) (i : Fin 32) (readable : Bool) : Option (Bool × State) :=
  let readEnd := (s.notifier i).pipe0
  if readable then
    let wasNonblocking := readEnd.isNonblocking s.kernel
    let k := readEnd.setNonblocking s.kernel true
    (drain readEnd (drainFuel readEnd k) k).map fun k =>
      (true, { s with kernel := readEnd.setNonblocking k wasNonblocking })
  else
    some (false, s)

/-- `Signal::wait(Duration(0))` of an object. -/
def State.wait0 (s : State) (signum_ : Int) : Option (Bool × State) :=
  match slot? signum_ with
  | none => some (false, s)
  | some i =>
    if (s.notifier i).isInit then
      s.waitReadable i ((s.notifier i).pipe0.waitForReadable0 s.kernel)
    else
      some (false, s)

/-- `Signal::signum()` -/
def signum (signum_ : Int) : Int := if signum_ < 0 ∨ signum_ ≥ 32 then -1 else signum_ + 1

/-- `Signal::handler`; `none` where its write blocks. -/
def State.handler (s : State) (signum : Int) : Option State :=
  match slot? (signum - 1) with
  | none => some s
  | some i =>
    if !(s.notifier i).isInit then
      some s
    else
      let fd := (s.notifier i).pipe1.fd
      if fd < 0 then some s
      else (s.kernel.writeByte fd 1).map fun r => { s with kernel := r.2 }

/-- A signal arrives. The default action, where it does not end the process,
changes nothing. -/
def State.deliver (s : State) (signum : Int) : Option State :=
  if s.disposition signum = .handler then s.handler signum else some s

-- ---------------------------------------------------------------------------
-- Runs
-- ---------------------------------------------------------------------------

/-- The calls on the objects, and the signals that arrive between them. -/
inductive Event where
  /-- A new object: `::pipe` returns `pipe` if it is called, and the constructor
  returns or throws. -/
  | construct (id : Nat) (signum : Int) (pipe : Option (Int × Int)) (throws : Bool)
  | moveConstruct (id other : Nat)
  | moveAssign (dst other : Nat)
  | destroy (id : Nat)
  | deliver (signum : Int)
  /-- `wait(Duration(0))` on an object whose `signum()` is `signum`. -/
  | wait (id : Nat) (signum : Int) (result : Bool)
  deriving DecidableEq, Repr

/-- `::pipe` fails or returns free descriptors. -/
def PipeResult (k : Kernel) : Option (Int × Int) → Prop
  | none => True
  | some (r, w) => k.Free r w

instance (k : Kernel) : (pipe : Option (Int × Int)) → Decidable (PipeResult k pipe)
  | none => .isTrue trivial
  | some (r, w) => inferInstanceAs (Decidable (k.Free r w))

/-- The object now has this `signum_`. -/
def State.set (s : State) (id : Nat) (signum_ : Int) : State :=
  { s with live := Function.update s.live id (some signum_) }

/-- A constructor makes an object where there was none; the other members are
called on objects that live, until they are destroyed. -/
def step (s : State) : Event → Option State
  | .construct id signum pipe throws =>
    if s.live id = none ∧ PipeResult s.kernel pipe then
      let (s', error) := s.construct id signum pipe
      if error.isSome = throws then some s' else none
    else
      none
  | .moveConstruct id other =>
    match s.live id, s.live other with
    | none, some otherSignum_ =>
      let r := Signal.moveConstruct otherSignum_
      some ((s.set id r.1).set other r.2)
    | _, _ => none
  | .moveAssign dst other =>
    match s.live dst, s.live other with
    | some signum_, some otherSignum_ =>
      if dst = other then
        let r := s.moveAssignSelf signum_
        some (r.1.set dst r.2)
      else
        let r := s.moveAssign signum_ otherSignum_
        some ((r.1.set dst r.2.1).set other r.2.2)
    | _, _ => none
  | .destroy id =>
    match s.live id with
    | some signum_ => some { s.destroy signum_ with live := Function.update s.live id none }
    | none => none
  | .deliver signum => s.deliver signum
  | .wait id sig result =>
    match s.live id with
    | some signum_ =>
      match s.wait0 signum_ with
      | some (r, s') => if sig = signum signum_ ∧ result = r then some s' else none
      | none => none
    | none => none

/-- A process that has made no pipe and no `Signal` yet, with the descriptors
`files` open. -/
def process (limit capacity : Nat) (files : Int → Option Nat) : Machine State Event where
  init :=
    { notifier := fun _ => {}
      disposition := fun _ => .default
      live := fun _ => none
      kernel :=
        { limit := limit
          fds := fun fd => if 0 ≤ fd ∧ fd < limit then (files fd).map .other else none
          nonblock := fun _ => false
          buffer := fun _ => []
          capacity := capacity
          next := 0 } }
  step := step

end Rix.Ipc.Signal
