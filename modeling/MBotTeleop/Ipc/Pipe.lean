-- SUMMARY: Pipe objects: the descriptor that an object holds, and what its member functions do to the kernel.
import MBotTeleop.Ipc.Kernel

/-!
# Pipes

The members of `Pipe`, and those it inherits from `File`, as functions of the
objects and the kernel.
-/

namespace Rix.Ipc

/-- A `Pipe` object. The defaults are those of `Pipe()`. -/
structure Pipe where
  /-- `fd_`, which is `-1` in an invalid object. -/
  fd : Int := -1
  readEnd : Bool := false
  deriving DecidableEq, Repr

namespace Pipe

/-- `Pipe::create`, where `::pipe` fails or returns two descriptors. -/
def create (k : Kernel) : Option (Int × Int) → Kernel × Pipe × Pipe
  | none => (k, {}, {})
  | some (r, w) => (k.pipe r w, { fd := r, readEnd := true }, { fd := w, readEnd := false })

/-- `File::~File`. -/
def destroy (k : Kernel) (p : Pipe) : Kernel := if 0 < p.fd then k.close p.fd else k

/-- `dst = std::move(src)`, for two objects: what is in the kernel, in `dst` and
in `src` after it. -/
def moveAssign (k : Kernel) (dst src : Pipe) : Kernel × Pipe × Pipe :=
  let (k, dst) := if 0 < dst.fd then (k.close dst.fd, { fd := -1, readEnd := false }) else (k, dst)
  (k, { fd := src.fd, readEnd := src.readEnd }, { src with fd := dst.fd })

/-- `ok() const` -/
def ok (p : Pipe) : Bool := 0 ≤ p.fd

/-- `wait_for_readable` with a duration of zero. -/
def waitForReadable0 (k : Kernel) (p : Pipe) : Bool :=
  if p.fd < 0 then false else k.pollIn p.fd

def isNonblocking (k : Kernel) (p : Pipe) : Bool :=
  if p.fd < 0 then false else k.getNonblock p.fd

def setNonblocking (k : Kernel) (p : Pipe) (status : Bool) : Kernel :=
  if p.fd < 0 then k else k.setNonblock p.fd status

/-- `read`; `none` where it blocks. -/
def read (k : Kernel) (p : Pipe) (n : Nat) : Option (ReadResult × Kernel) :=
  -- an invalid object leaves `errno` as it was
  if p.fd < 0 then some (.failed .other, k) else k.read p.fd n

/-! ## Descriptors that a pipe closes -/

variable {k : Kernel}

theorem destroy_wf (h : k.WF) (p : Pipe) : (destroy k p).WF := by
  unfold destroy
  split
  · exact h.close p.fd
  · exact h

theorem destroy_invalid {p : Pipe} (h : p.fd = -1) : destroy k p = k := by
  simp [destroy, h]

@[simp] theorem destroy_buffer (p : Pipe) : (destroy k p).buffer = k.buffer := by
  unfold destroy
  split <;> rfl

@[simp] theorem destroy_nonblock (p : Pipe) : (destroy k p).nonblock = k.nonblock := by
  unfold destroy
  split <;> rfl

/-- A destructor opens nothing. -/
theorem fds_of_destroy {p : Pipe} {fd : Int} {f : OpenFile} (h : (destroy k p).fds fd = some f) :
    k.fds fd = some f := by
  unfold destroy at h
  split at h
  · exact (Kernel.close_fds_eq_some.mp h).2
  · exact h

/-- A destructor closes no descriptor but its own. -/
theorem destroy_fds {p : Pipe} {fd : Int} {f : OpenFile} (h : k.fds fd = some f) (hne : fd ≠ p.fd) :
    (destroy k p).fds fd = some f := by
  unfold destroy
  split
  · exact Kernel.close_fds_eq_some.mpr ⟨hne, h⟩
  · exact h

end Pipe

end Rix.Ipc
