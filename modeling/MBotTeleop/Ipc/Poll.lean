-- SUMMARY: What ::poll reports about a descriptor, and what File::wait_for_readable makes of it.
import MBotTeleop.Ipc.Kernel
import MBotTeleop.Util.Conversion

/-!
# Waiting for a descriptor

`File::wait_for_readable` is one call of `::poll`. It looks at `POLLIN` alone,
and takes every other way in which `::poll` returns for a wait without success.
-/

namespace Rix.Ipc

open Rix.Util

namespace Kernel

/-- `::poll` sets `POLLHUP` for the read end of a pipe that has no writer. -/
def pollHup (k : Kernel) (fd : Int) : Bool :=
  match k.fds fd with
  | some (.readEnd p) => !k.isOpen (.writeEnd p)
  | _ => false

/-- `::poll` sets `POLLNVAL` for a descriptor that is not open. -/
def pollNval (k : Kernel) (fd : Int) : Bool := (k.fds fd).isNone

/-- An event is there, so `::poll` does not wait. -/
def pollReady (k : Kernel) (fd : Int) : Bool := k.pollIn fd || k.pollHup fd || k.pollNval fd

end Kernel

/-- How `::poll` returns: `1` with events, of which only `POLLIN` is looked at,
or `0` after the timeout, or `-1` with `EINTR`. -/
inductive PollResult where
  | events (pollIn : Bool)
  | timeout
  | eintr
  deriving DecidableEq, Repr

/-- `ret <= 0` is `false`, and so are events without `POLLIN`. -/
def PollResult.readable : PollResult → Bool
  | events pollIn => pollIn
  | timeout | eintr => false

/-- What `::poll` on a descriptor may return: the events, or something else as
long as there are none. -/
def Kernel.Polls (k : Kernel) (fd : Int) : PollResult → Prop
  | .events pollIn => k.pollReady fd = true ∧ pollIn = k.pollIn fd
  | .timeout | .eintr => k.pollReady fd = false

instance (k : Kernel) (fd : Int) : (r : PollResult) → Decidable (k.Polls fd r)
  | .events _ => inferInstanceAs (Decidable (_ ∧ _))
  | .timeout | .eintr => inferInstanceAs (Decidable (_ = _))

/-- A descriptor can always be polled. -/
theorem Kernel.exists_polls (k : Kernel) (fd : Int) : ∃ r, k.Polls fd r := by
  cases hready : k.pollReady fd with
  | true => exact ⟨.events (k.pollIn fd), hready, rfl⟩
  | false => exact ⟨.timeout, hready⟩

/-- A wait succeeds only where there are bytes. -/
theorem Kernel.Polls.pollIn {k : Kernel} {fd : Int} {r : PollResult} (h : k.Polls fd r)
    (hreadable : r.readable = true) : k.pollIn fd = true := by
  cases r with
  | events pollIn => exact h.2.symm.trans hreadable
  | timeout | eintr => cases hreadable

/-- `timeout_ms` in `wait_for_readable`. -/
def timeoutMs (duration : Duration) : Int :=
  let ns := duration.toNanoseconds.toInt
  if ns < 0 then 0
  else
    let ms := (duration.toMilliseconds .ceil).toInt
    if 2147483647 < ms then 2147483647 else ms

/-- No positive duration is rounded to a poll that does not wait. -/
theorem timeoutMs_pos {duration : Duration} (h : 0 < duration.d.toInt) : 0 < timeoutMs duration := by
  have hms : 0 < (duration.toMilliseconds .ceil).toInt := by
    have hceil := (Chrono.isCeil_ceil (u := 1000000) (n := duration.d.toInt) (by decide)).1
    have hconvert := (toInt_convert (u := 1000000) (by decide) duration.d).2.1
    change duration.d.toInt ≤ Chrono.ceil 1000000 duration.d.toInt * 1000000 at hceil
    rw [Duration.toMilliseconds, hconvert]
    omega
  have hns : ¬ duration.toNanoseconds.toInt < 0 := by
    change ¬ duration.d.toInt < 0
    omega
  unfold timeoutMs
  simp only [hns, if_false]
  split <;> omega

end Rix.Ipc
