-- SUMMARY: What a call of the IO interface can return.
import MBotTeleop.Lib.Bytes

/-!
# The IO interface

`rix/ipc/interfaces/io.hpp` is implemented by files, pipes and FIFOs, and by the
mocks of the tests. The two spin loops see an implementation only through the
results of its calls, so these results are the events that drive their models.
-/

namespace Rix.Ipc

/-- The values of `errno` that the callers tell apart. -/
inductive Errno where
  | eintr
  /-- `EAGAIN`, which is also `EWOULDBLOCK`. -/
  | eagain
  | other
  deriving DecidableEq, Repr

/-- The result of `read`: the bytes stored, or none at the end of the input, or
`-1` and `errno`. -/
inductive ReadResult where
  | bytes (bs : List UInt8)
  | eof
  | failed (errno : Errno)
  deriving DecidableEq, Repr

/-- A read stores at least one byte and no more than it was asked for. -/
def ReadResult.Possible (n : Nat) : ReadResult → Prop
  | bytes bs => 0 < bs.length ∧ bs.length ≤ n
  | eof | failed _ => True

instance (n : Nat) : (r : ReadResult) → Decidable (r.Possible n)
  | .bytes _ => inferInstanceAs (Decidable (_ ∧ _))
  | .eof | .failed _ => .isTrue trivial

/-- The bytes a read delivered. -/
def ReadResult.delivered : ReadResult → List UInt8
  | bytes bs => bs
  | eof | failed _ => []

/-- The result of `write`: the number of bytes accepted, or `-1` and `errno`. -/
inductive WriteResult where
  | wrote (k : Nat)
  | failed (errno : Errno)
  deriving DecidableEq, Repr

/-- A write accepts no more than it was given. -/
def WriteResult.Possible (n : Nat) : WriteResult → Prop
  | wrote k => k ≤ n
  | failed _ => True

instance (n : Nat) : (r : WriteResult) → Decidable (r.Possible n)
  | .wrote _ => inferInstanceAs (Decidable (_ ≤ _))
  | .failed _ => .isTrue trivial

/-- The number of bytes a write accepted. -/
def WriteResult.accepted : WriteResult → Nat
  | wrote k => k
  | failed _ => 0

theorem WriteResult.Possible.accepted_le {n : Nat} {r : WriteResult} (h : r.Possible n) :
    r.accepted ≤ n := by
  cases r with
  | wrote k => exact h
  | failed errno => exact Nat.zero_le n

/-- The results after which `write_exact` of the keyboard gives up. -/
def WriteResult.Fails : WriteResult → Prop
  | wrote k => k = 0
  | failed errno => errno ≠ .eintr

end Rix.Ipc
