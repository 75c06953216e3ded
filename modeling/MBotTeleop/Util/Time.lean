-- SUMMARY: Time points and durations, their messages and their conversions to coarser units.
import MBotTeleop.Msg.Messages

/-!
# Time points and durations

Both classes hold a count of nanoseconds and have the same conversions, which
the source spells out once for each class.
-/

namespace Rix.Util

/-- `rix::util::Time`: the nanoseconds since the epoch, an `int64_t`. -/
structure Time where
  tp : BitVec 64
  deriving DecidableEq, Repr

/-- `Time::to_msg`: both fields are narrowed to `int32_t`. -/
def Time.toMsg (t : Time) : Rix.Msg.Standard.Time where
  sec := BitVec.ofInt 32 (t.tp.toInt.tdiv 1000000000)
  nsec := BitVec.ofInt 32 (t.tp.toInt.tmod 1000000000)

/-- `Time(const rix::msg::standard::Time &)`. Both fields are widened first, so
the sum does not overflow. -/
def Time.ofMsg (msg : Rix.Msg.Standard.Time) : Time where
  tp := BitVec.ofInt 64 (msg.sec.toInt * 1000000000 + msg.nsec.toInt)

/-- `Time::to_microseconds` with the default `RoundType::FLOOR`, which is a
`duration_cast` and so rounds toward zero. -/
def Time.toMicroseconds (t : Time) : BitVec 64 := BitVec.ofInt 64 (t.tp.toInt.tdiv 1000)

/-- `rix::util::Duration`: a count of nanoseconds, an `int64_t`. -/
structure Duration where
  d : BitVec 64
  deriving DecidableEq, Repr

/-- `Duration::to_msg` -/
def Duration.toMsg (d : Duration) : Rix.Msg.Standard.Duration where
  sec := BitVec.ofInt 32 (d.d.toInt.tdiv 1000000000)
  nsec := BitVec.ofInt 32 (d.d.toInt.tmod 1000000000)

/-- `Duration(const rix::msg::standard::Duration &)` -/
def Duration.ofMsg (msg : Rix.Msg.Standard.Duration) : Duration where
  d := BitVec.ofInt 64 (msg.sec.toInt * 1000000000 + msg.nsec.toInt)

/-- `Duration::to_nanoseconds` -/
def Duration.toNanoseconds (d : Duration) : BitVec 64 := d.d

/-! ## Conversions with a mode -/

namespace Chrono

/-- `std::chrono::duration_cast` of `n` nanoseconds to a unit of `u`
nanoseconds: integer division, which rounds toward zero. -/
def durationCast (u n : Int) : Int := n.tdiv u

/-- `std::chrono::floor` -/
def floor (u n : Int) : Int :=
  let t := durationCast u n
  if n < t * u then t - 1 else t

/-- `std::chrono::ceil` -/
def ceil (u n : Int) : Int :=
  let t := durationCast u n
  if t * u < n then t + 1 else t

/-- `std::chrono::round`: of two equally close results the even one. -/
def round (u n : Int) : Int :=
  let t₀ := floor u n
  let t₁ := t₀ + 1
  let diff₀ := n - t₀ * u
  let diff₁ := t₁ * u - n
  if diff₀ = diff₁ then (if t₀ % 2 = 1 then t₁ else t₀)
  else if diff₀ < diff₁ then t₀ else t₁

end Chrono

/-- `Time::RoundType` -/
inductive RoundType
  | floor
  | ceil
  | nearest
  deriving DecidableEq, Repr

/-- The `switch` all six conversions have, for a unit of `u` nanoseconds. Its
`FLOOR` is a `duration_cast` and not `std::chrono::floor`. -/
def convert (u : Int) (n : BitVec 64) : RoundType → BitVec 64
  | .floor => BitVec.ofInt 64 (Chrono.durationCast u n.toInt)
  | .ceil => BitVec.ofInt 64 (Chrono.ceil u n.toInt)
  | .nearest => BitVec.ofInt 64 (Chrono.round u n.toInt)

/-- `Time::to_seconds` -/
def Time.toSeconds (t : Time) (type : RoundType) : BitVec 64 := convert 1000000000 t.tp type

/-- `Time::to_milliseconds` -/
def Time.toMilliseconds (t : Time) (type : RoundType) : BitVec 64 := convert 1000000 t.tp type

/-- `Time::to_microseconds` called with a mode; `Time.toMicroseconds` is the
call without one. -/
def Time.toMicrosecondsAs (t : Time) (type : RoundType) : BitVec 64 := convert 1000 t.tp type

/-- `Duration::to_seconds` -/
def Duration.toSeconds (d : Duration) (type : RoundType) : BitVec 64 := convert 1000000000 d.d type

/-- `Duration::to_milliseconds` -/
def Duration.toMilliseconds (d : Duration) (type : RoundType) : BitVec 64 := convert 1000000 d.d type

/-- `Duration::to_microseconds` -/
def Duration.toMicroseconds (d : Duration) (type : RoundType) : BitVec 64 := convert 1000 d.d type

theorem Time.toMicroseconds_eq (t : Time) : t.toMicroseconds = t.toMicrosecondsAs .floor := rfl

end Rix.Util
