-- SUMMARY: The timeouts that File::wait_for_readable and File::wait_for_writable pass to ::poll: exact in machine integers, never early and never infinite.
import MBotTeleop.Ipc.Poll

/-!
# The timeouts of the two waits

`::poll` takes an `int` of milliseconds, and a negative one as forever. Both
waits compute it from an `int64_t` of nanoseconds, rounded up and clamped.
-/

namespace Rix.Ipc

open Rix.Util
open Rounding (IsCeil)

-- ---------------------------------------------------------------------------
-- The two waits
-- ---------------------------------------------------------------------------

/-- `POLLIN` -/
def pollin : BitVec 16 := 0x0001

/-- `POLLOUT` -/
def pollout : BitVec 16 := 0x0004

/-- `::poll(&pfd, 1, timeout_ms)`, with `pfd.revents` at zero. -/
structure PollCall where
  fd : Int
  events : BitVec 16
  timeoutMs : BitVec 32
  deriving DecidableEq, Repr

/-- A wait returns at once, or calls `::poll` and returns what it makes of
`ret` and `pfd.revents`. -/
inductive Wait where
  | done (result : Bool)
  | poll (call : PollCall) (result : Int → BitVec 16 → Bool)

namespace File

/-- `timeout_ms`, which is computed in 64 bits and cast to an `int` at the end. -/
def timeout (duration : Duration) : BitVec 32 :=
  let ns := duration.toNanoseconds
  if ns.slt 0 then 0
  else
    let ms := duration.toMilliseconds .ceil
    if BitVec.slt 2147483647 ms then 2147483647 else ms.setWidth 32

/-- The body that both waits have, for the event they are about. -/
def waitFor (event : BitVec 16) (fd : Int) (duration : Duration) : Wait :=
  if fd < 0 then .done false
  else
    .poll { fd, events := event, timeoutMs := timeout duration } fun ret revents =>
      if ret ≤ 0 then false else revents &&& event ≠ 0

/-- `File::wait_for_writable` -/
def waitForWritable (fd : Int) (duration : Duration) : Wait := waitFor pollout fd duration

/-- `File::wait_for_readable` -/
def waitForReadable (fd : Int) (duration : Duration) : Wait := waitFor pollin fd duration

end File

/-- The timeout that a wait passes to `::poll`. -/
def Wait.timeout : Wait → Option (BitVec 32)
  | done _ => none
  | poll call _ => some call.timeoutMs

theorem File.timeout_waitFor (event : BitVec 16) (fd : Int) (duration : Duration) :
    (waitFor event fd duration).timeout = if fd < 0 then none else some (timeout duration) := by
  unfold waitFor
  split <;> rfl

-- ---------------------------------------------------------------------------
-- Machine integers
-- ---------------------------------------------------------------------------

/-- The computation of `std::chrono::ceil` to milliseconds, as it is done in 64
bits, has no overflow, and `n` nanoseconds are `ms` milliseconds by it. -/
structure CeilExact (n ms : BitVec 64) : Prop where
  quotient : n.sdivOverflow 1000000 = false
  product : (n.sdiv 1000000).smulOverflow 1000000 = false
  successor : (n.sdiv 1000000).saddOverflow 1 = false
  result : ms = if (n.sdiv 1000000 * 1000000).slt n then n.sdiv 1000000 + 1 else n.sdiv 1000000

theorem toInt_sdiv_million (n : BitVec 64) :
    n.sdivOverflow 1000000 = false ∧ (n.sdiv 1000000).toInt = n.toInt.tdiv 1000000 := by
  constructor
  · rw [BitVec.sdivOverflow_eq]
    simp
  · exact BitVec.toInt_sdiv_of_ne_or_ne n 1000000 (.inr (by decide))

theorem ceilExact (duration : Duration) :
    CeilExact duration.d (duration.toMilliseconds .ceil) := by
  have hge := BitVec.le_toInt duration.d
  have hlt := BitVec.toInt_lt (x := duration.d)
  obtain ⟨hquotient, hdiv⟩ := toInt_sdiv_million duration.d
  have hbounds := Rounding.tdiv_mul_bounds (u := 1000000) (n := duration.d.toInt) (by decide)
  have hproduct : (duration.d.sdiv 1000000).smulOverflow 1000000 = false := by
    simp only [BitVec.smulOverflow, hdiv, Bool.or_eq_false_iff, decide_eq_false_iff_not]
    change ¬ duration.d.toInt.tdiv 1000000 * 1000000 ≥ _ ∧ ¬ duration.d.toInt.tdiv 1000000 * 1000000 < _
    omega
  have hsuccessor : (duration.d.sdiv 1000000).saddOverflow 1 = false := by
    simp only [BitVec.saddOverflow, hdiv, Bool.or_eq_false_iff, decide_eq_false_iff_not]
    change ¬ duration.d.toInt.tdiv 1000000 + 1 ≥ _ ∧ ¬ duration.d.toInt.tdiv 1000000 + 1 < _
    omega
  have hmul : (duration.d.sdiv 1000000 * 1000000).toInt = duration.d.toInt.tdiv 1000000 * 1000000 := by
    rw [BitVec.toInt_mul_of_not_smulOverflow (by rw [hproduct]; decide), hdiv]
    rfl
  have hadd : (duration.d.sdiv 1000000 + 1).toInt = duration.d.toInt.tdiv 1000000 + 1 := by
    rw [BitVec.toInt_add_of_not_saddOverflow (by rw [hsuccessor]; decide), hdiv]
    rfl
  refine ⟨hquotient, hproduct, hsuccessor, ?_⟩
  rw [← BitVec.toInt_inj, Duration.toMilliseconds, (toInt_convert (by decide) duration.d).2.1,
    Chrono.ceil, Chrono.durationCast, BitVec.slt_eq_decide, hmul]
  simp only [decide_eq_true_eq]
  split
  · exact hadd.symm
  · exact hdiv.symm

/-- The cast to `int` keeps the milliseconds that are not clamped. -/
theorem toInt_setWidth_of_le {ms : BitVec 64} (hge : 0 ≤ ms.toInt) (hle : ms.toInt ≤ 2147483647) :
    (ms.setWidth 32).toInt = ms.toInt := by
  have htoNat : (ms.toNat : Int) = ms.toInt := by
    have hcond := BitVec.toInt_eq_toNat_cond ms
    split at hcond <;> omega
  rw [BitVec.toInt_setWidth, htoNat]
  exact Int.bmod_eq_of_le (by omega) (by omega)

-- ---------------------------------------------------------------------------
-- The timeout
-- ---------------------------------------------------------------------------

/-- A good timeout of `T` milliseconds for `n` nanoseconds, which are `c`
milliseconds rounded up. -/
structure TimeoutFor (n c T : Int) : Prop where
  range : 0 ≤ T ∧ T ≤ 2147483647
  immediate : n ≤ 0 → T = 0
  enough : 0 < n → c ≤ 2147483647 → n ≤ T * 1000000
  close : 0 < n → c ≤ 2147483647 → T * 1000000 < n + 1000000
  clamped : T = 2147483647 → 2147483647 ≤ c

section

variable {duration : Duration} {c : Int}

theorem toInt_toMilliseconds_ceil (hc : IsCeil 1000000 duration.d.toInt c) :
    (duration.toMilliseconds .ceil).toInt = c := by
  rw [Duration.toMilliseconds, (toInt_convert (by decide) duration.d).2.1]
  exact (Chrono.isCeil_ceil (by decide)).unique hc

/-- Where the duration is not negative, the count of milliseconds is not. -/
theorem toMilliseconds_ceil_nonneg (h : 0 ≤ duration.d.toInt) :
    0 ≤ (duration.toMilliseconds .ceil).toInt := by
  have hc := Chrono.isCeil_ceil (u := 1000000) (n := duration.d.toInt) (by decide)
  have hle := hc.1
  change duration.d.toInt ≤ _ * 1000000 at hle
  rw [toInt_toMilliseconds_ceil hc]
  omega

/-- The `int` that is computed is the timeout that a wait for a signal goes by. -/
theorem toInt_timeout (duration : Duration) : (File.timeout duration).toInt = timeoutMs duration := by
  unfold File.timeout timeoutMs
  simp only [BitVec.slt_eq_decide, decide_eq_true_eq]
  change BitVec.toInt (if duration.d.toInt < 0 then 0 else if 2147483647 < _ then _ else _) =
    if duration.d.toInt < 0 then 0 else _
  split
  · rfl
  · rename_i hns
    have hge := toMilliseconds_ceil_nonneg (Int.not_lt.mp hns)
    split
    · rfl
    · rename_i hle
      exact toInt_setWidth_of_le hge (Int.not_lt.mp hle)

/-- Negative durations are no time, long ones the longest time there is. -/
theorem timeoutMs_eq (hc : IsCeil 1000000 duration.d.toInt c) :
    timeoutMs duration = min 2147483647 (max 0 c) := by
  have hle := hc.1
  have hlt := hc.lt
  change duration.d.toInt ≤ c * 1000000 at hle
  unfold timeoutMs
  simp only [toInt_toMilliseconds_ceil hc]
  change (if duration.d.toInt < 0 then _ else _) = _
  split <;> omega

theorem timeoutFor (hc : IsCeil 1000000 duration.d.toInt c) :
    TimeoutFor duration.d.toInt c (timeoutMs duration) := by
  have hle := hc.1
  have hlt := hc.lt
  change duration.d.toInt ≤ c * 1000000 at hle
  rw [timeoutMs_eq hc]
  constructor <;> omega

/-- A longer duration has no shorter timeout. -/
theorem timeoutMs_mono {duration' : Duration} (h : duration.d.toInt ≤ duration'.d.toInt) :
    timeoutMs duration ≤ timeoutMs duration' := by
  have hc := Chrono.isCeil_ceil (u := 1000000) (n := duration.d.toInt) (by decide)
  have hc' := Chrono.isCeil_ceil (u := 1000000) (n := duration'.d.toInt) (by decide)
  have hmono := hc.mono hc' h
  rw [timeoutMs_eq hc, timeoutMs_eq hc']
  omega

end

/-- Both waits pass the same timeout to `::poll`, in every call that they make:
the least number of milliseconds that is not too early, or `INT_MAX` where that
is no `int`. No step of its computation overflows. -/
theorem poll_timeouts (duration : Duration) :
    ∃ (T : BitVec 32) (c : Int),
      (∀ fd, (File.waitForReadable fd duration).timeout = if fd < 0 then none else some T) ∧
      (∀ fd, (File.waitForWritable fd duration).timeout = if fd < 0 then none else some T) ∧
      IsCeil 1000000 duration.d.toInt c ∧ TimeoutFor duration.d.toInt c T.toInt ∧
      (∀ fd duration' T', duration.d.toInt ≤ duration'.d.toInt →
        (File.waitForReadable fd duration').timeout = some T' → T.toInt ≤ T'.toInt) ∧
      CeilExact duration.d (duration.toMilliseconds .ceil) ∧
      (0 ≤ duration.d.toInt → (duration.toMilliseconds .ceil).toInt ≤ 2147483647 →
        ((duration.toMilliseconds .ceil).setWidth 32).toInt =
          (duration.toMilliseconds .ceil).toInt) := by
  have hc := Chrono.isCeil_ceil (u := 1000000) (n := duration.d.toInt) (by decide)
  refine ⟨File.timeout duration, _, fun fd => File.timeout_waitFor pollin fd duration,
    fun fd => File.timeout_waitFor pollout fd duration, hc, ?_, ?_, ceilExact duration, ?_⟩
  · rw [toInt_timeout]
    exact timeoutFor hc
  · intro fd duration' T' hle htimeout
    rw [File.waitForReadable, File.timeout_waitFor] at htimeout
    split at htimeout
    · cases htimeout
    · obtain rfl := Option.some.inj htimeout
      rw [toInt_timeout, toInt_timeout]
      exact timeoutMs_mono hle
  · intro hge hle
    exact toInt_setWidth_of_le (toMilliseconds_ceil_nonneg hge) hle

-- below zero, less than a millisecond, one millisecond and a bit, and forever
example : [-1, 0, 1, 1000000, 1000001, 9223372036854775807].map (fun n => File.timeout ⟨n⟩) =
    [0, 0, 1, 1, 2, 2147483647] := by decide

end Rix.Ipc
