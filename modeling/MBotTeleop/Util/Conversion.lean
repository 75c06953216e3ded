-- SUMMARY: What the conversions of times and durations give back: the roundings to a unit, and the round trip through a message.
import Mathlib.Algebra.Order.Group.Unbundled.Int
import MBotTeleop.Lib.Rounding
import MBotTeleop.Util.Time

/-!
# Conversions of times and durations

The three rounding modes against what their names say, and the conversion to
seconds and nanoseconds and back. Both classes are instances of statements
about the nanosecond count alone.
-/

namespace Rix.Util

open Rounding

/-! ## The standard library's roundings -/

namespace Chrono

variable {u n : Int}

theorem isFloor_floor (hu : 0 < u) : IsFloor u n (floor u n) := by
  have hbounds := tdiv_mul_bounds (n := n) hu
  unfold floor durationCast
  simp only
  split
  · apply isFloor_of_bounds hu
    · rw [Int.sub_mul, Int.one_mul]
      omega
    · rw [Int.sub_add_cancel]
      assumption
  · apply isFloor_of_bounds hu
    · omega
    · rw [Int.add_mul, Int.one_mul]
      omega

theorem isCeil_ceil (hu : 0 < u) : IsCeil u n (ceil u n) := by
  have hbounds := tdiv_mul_bounds (n := n) hu
  unfold ceil durationCast
  simp only
  split
  · apply isCeil_of_bounds hu
    · rw [Int.add_sub_cancel]
      assumption
    · rw [Int.add_mul, Int.one_mul]
      omega
  · apply isCeil_of_bounds hu
    · rw [Int.sub_mul, Int.one_mul]
      omega
    · omega

theorem isNearest_round (hu : 0 < u) : IsNearest u n (round u n) :=
  (isFloor_floor hu).isNearest

end Chrono

/-! ## The three modes -/

/-- What the names of the modes promise about `n` nanoseconds in units of `u`. -/
structure Rounds (u n : Int) (result : RoundType → BitVec 64) : Prop where
  floor : IsFloor u n (result .floor).toInt
  ceil : IsCeil u n (result .ceil).toInt
  nearest : IsNearest u n (result .nearest).toInt
  ordered : (result .floor).toInt ≤ (result .nearest).toInt ∧
    (result .nearest).toInt ≤ (result .ceil).toInt
  gap : (result .ceil).toInt - (result .floor).toInt = if u ∣ n then 0 else 1

/-- Every result fits in 64 bits. -/
theorem toInt_convert {u : Int} (hu : 0 < u) (n : BitVec 64) :
    (convert u n .floor).toInt = Chrono.durationCast u n.toInt ∧
      (convert u n .ceil).toInt = Chrono.ceil u n.toInt ∧
      (convert u n .nearest).toInt = Chrono.round u n.toInt := by
  have hge : -2 ^ 63 ≤ n.toInt := BitVec.le_toInt n
  have hlt : n.toInt < 2 ^ 63 := BitVec.toInt_lt
  have hfit {q : Int} (hmin : min n.toInt 0 ≤ q) (hmax : q ≤ max n.toInt 0) :
      (BitVec.ofInt 64 q).toInt = q :=
    BitVec.toInt_ofInt_eq_self (by decide) (by omega) (by omega)
  have hfloor := Chrono.isFloor_floor (n := n.toInt) hu
  have hceil := Chrono.isCeil_ceil (n := n.toInt) hu
  have hround := (Chrono.isNearest_round (n := n.toInt) hu).between hu hfloor hceil
  have hmin := hfloor.min_le hu
  have hmax := hceil.le_max hu
  have horder := hceil.sub_floor hu hfloor
  have htrunc := tdiv_bounds (n := n.toInt) hu
  exact ⟨hfit htrunc.1 htrunc.2, hfit (by grind) hmax, hfit (by omega) (by omega)⟩

/-- Only `FLOOR` can break its promise, and does so on the negative counts the
unit does not divide. -/
theorem rounds_iff {u : Int} (hu : 0 < u) (n : BitVec 64) :
    Rounds u n.toInt (convert u n) ↔ 0 ≤ n.toInt ∨ u ∣ n.toInt := by
  obtain ⟨hfloor, hceil, hnearest⟩ := toInt_convert hu n
  constructor
  · intro h
    have hf := h.floor
    rw [hfloor] at hf
    exact (isFloor_tdiv hu).mp hf
  · intro h
    have hf : IsFloor u n.toInt (convert u n .floor).toInt := by
      rw [hfloor]
      exact (isFloor_tdiv hu).mpr h
    have hc : IsCeil u n.toInt (convert u n .ceil).toInt := by
      rw [hceil]
      exact Chrono.isCeil_ceil hu
    have hr : IsNearest u n.toInt (convert u n .nearest).toInt := by
      rw [hnearest]
      exact Chrono.isNearest_round hu
    exact ⟨hf, hc, hr, hr.between hu hf hc, hc.sub_floor hu hf⟩

/-- The three modes of all six conversions mean what they say exactly where the
count is not negative or a multiple of the unit. -/
theorem conversions_round (t : Time) (d : Duration) :
    (Rounds 1000000000 t.tp.toInt t.toSeconds ↔ 0 ≤ t.tp.toInt ∨ 1000000000 ∣ t.tp.toInt) ∧
    (Rounds 1000000 t.tp.toInt t.toMilliseconds ↔ 0 ≤ t.tp.toInt ∨ 1000000 ∣ t.tp.toInt) ∧
    (Rounds 1000 t.tp.toInt t.toMicrosecondsAs ↔ 0 ≤ t.tp.toInt ∨ 1000 ∣ t.tp.toInt) ∧
    (Rounds 1000000000 d.d.toInt d.toSeconds ↔ 0 ≤ d.d.toInt ∨ 1000000000 ∣ d.d.toInt) ∧
    (Rounds 1000000 d.d.toInt d.toMilliseconds ↔ 0 ≤ d.d.toInt ∨ 1000000 ∣ d.d.toInt) ∧
    (Rounds 1000 d.d.toInt d.toMicroseconds ↔ 0 ≤ d.d.toInt ∨ 1000 ∣ d.d.toInt) :=
  ⟨rounds_iff (by decide) t.tp, rounds_iff (by decide) t.tp, rounds_iff (by decide) t.tp,
    rounds_iff (by decide) d.d, rounds_iff (by decide) d.d, rounds_iff (by decide) d.d⟩

/-- One nanosecond below zero is floored to zero seconds, which is above it. -/
theorem floor_of_negative :
    ¬ Rounds 1000000000 (⟨-1⟩ : Duration).d.toInt (⟨-1⟩ : Duration).toSeconds := by
  intro h
  have hle : (0 : Int) * 1000000000 ≤ -1 := h.floor.le
  omega

/-! ## Through a message and back -/

/-- The seconds of `n` nanoseconds fit in an `int32_t`. -/
def Fits (n : Int) : Prop := -2 ^ 31 ≤ n.tdiv 1000000000 ∧ n.tdiv 1000000000 < 2 ^ 31

/-- Less than a second of nanoseconds, on the same side of zero as the seconds. -/
structure Normal (sec nsec : BitVec 32) : Prop where
  nsec_lt : |nsec.toInt| < 1000000000
  not_opposite : ¬ (0 < sec.toInt ∧ nsec.toInt < 0) ∧ ¬ (sec.toInt < 0 ∧ 0 < nsec.toInt)

/-- The two fields both classes write. -/
def secOf (n : BitVec 64) : BitVec 32 := BitVec.ofInt 32 (n.toInt.tdiv 1000000000)

def nsecOf (n : BitVec 64) : BitVec 32 := BitVec.ofInt 32 (n.toInt.tmod 1000000000)

/-- The count both classes put together. -/
def ofParts (sec nsec : BitVec 32) : BitVec 64 :=
  BitVec.ofInt 64 (sec.toInt * 1000000000 + nsec.toInt)

theorem Time.toMsg_eq (t : Time) : t.toMsg = ⟨secOf t.tp, nsecOf t.tp⟩ := rfl

theorem Time.ofMsg_eq (msg : Rix.Msg.Standard.Time) :
    Time.ofMsg msg = ⟨ofParts msg.sec msg.nsec⟩ := rfl

theorem Duration.toMsg_eq (d : Duration) : d.toMsg = ⟨secOf d.d, nsecOf d.d⟩ := rfl

theorem Duration.ofMsg_eq (msg : Rix.Msg.Standard.Duration) :
    Duration.ofMsg msg = ⟨ofParts msg.sec msg.nsec⟩ := rfl

/-- Quotient and remainder of a truncating division by a second. -/
theorem split_second (n : Int) :
    n.tdiv 1000000000 * 1000000000 + n.tmod 1000000000 = n ∧
      (0 ≤ n → 0 ≤ n.tmod 1000000000 ∧ n.tmod 1000000000 < 1000000000) ∧
      (n ≤ 0 → n.tmod 1000000000 ≤ 0 ∧ -1000000000 < n.tmod 1000000000) := by
  refine ⟨Int.tdiv_mul_add_tmod n _, fun hn => ?_, fun hn => ?_⟩
  · exact ⟨Int.tmod_nonneg _ hn, Int.tmod_lt_of_pos n (by decide)⟩
  · have hneg := Int.neg_tmod n 1000000000
    have hnonneg := Int.tmod_nonneg 1000000000 (show 0 ≤ -n by omega)
    have hlt := Int.tmod_lt_of_pos (-n) (show (0 : Int) < 1000000000 by decide)
    omega

theorem toInt_nsecOf (n : BitVec 64) : (nsecOf n).toInt = n.toInt.tmod 1000000000 := by
  have hsplit := split_second n.toInt
  exact BitVec.toInt_ofInt_eq_self (by decide) (by omega) (by omega)

theorem toInt_secOf {n : BitVec 64} (h : Fits n.toInt) :
    (secOf n).toInt = n.toInt.tdiv 1000000000 :=
  BitVec.toInt_ofInt_eq_self (by decide) h.1 h.2

/-- Putting the parts together is exact. -/
theorem toInt_ofParts (sec nsec : BitVec 32) :
    (ofParts sec nsec).toInt = sec.toInt * 1000000000 + nsec.toInt := by
  have hsec := BitVec.le_toInt sec
  have hsec' := BitVec.toInt_lt (x := sec)
  have hnsec := BitVec.le_toInt nsec
  have hnsec' := BitVec.toInt_lt (x := nsec)
  exact BitVec.toInt_ofInt_eq_self (by decide) (by omega) (by omega)

theorem ofParts_split (n : BitVec 64) : ofParts (secOf n) (nsecOf n) = n ↔ Fits n.toInt := by
  have hsplit := (split_second n.toInt).1
  rw [← BitVec.toInt_inj, toInt_ofParts, toInt_nsecOf]
  constructor
  · -- the seconds written are in range, so no others can give the count back
    intro h
    have hge := BitVec.le_toInt (secOf n)
    have hlt := BitVec.toInt_lt (x := secOf n)
    exact ⟨by omega, by omega⟩
  · intro h
    rw [toInt_secOf h]
    exact hsplit

theorem normal_split {n : BitVec 64} (h : Fits n.toInt) : Normal (secOf n) (nsecOf n) := by
  have hsplit := split_second n.toInt
  constructor
  · rw [toInt_nsecOf, abs_lt]
    omega
  · rw [toInt_nsecOf, toInt_secOf h]
    omega

/-- A number is split in only one way with a remainder on its own side of zero. -/
theorem split_ofParts {sec nsec : BitVec 32} (h : Normal sec nsec) :
    secOf (ofParts sec nsec) = sec ∧ nsecOf (ofParts sec nsec) = nsec := by
  have hlt := abs_lt.mp h.nsec_lt
  have hsign := h.not_opposite
  have hsplit := split_second (ofParts sec nsec).toInt
  have hsec := BitVec.le_toInt sec
  have hsec' := BitVec.toInt_lt (x := sec)
  have hparts := toInt_ofParts sec nsec
  have hdiv : (ofParts sec nsec).toInt.tdiv 1000000000 = sec.toInt := by omega
  have hfits : Fits (ofParts sec nsec).toInt := ⟨by omega, by omega⟩
  constructor
  · rw [← BitVec.toInt_inj, toInt_secOf hfits, hdiv]
  · rw [← BitVec.toInt_inj, toInt_nsecOf]
    omega

/-- The computation in 64 bits, without an overflow. -/
theorem ofParts_exact (sec nsec : BitVec 32) :
    (sec.signExtend 64).smulOverflow 1000000000 = false ∧
      (sec.signExtend 64 * 1000000000).saddOverflow (nsec.signExtend 64) = false ∧
      ofParts sec nsec = sec.signExtend 64 * 1000000000 + nsec.signExtend 64 := by
  have hsec := BitVec.le_toInt sec
  have hsec' := BitVec.toInt_lt (x := sec)
  have hnsec := BitVec.le_toInt nsec
  have hnsec' := BitVec.toInt_lt (x := nsec)
  have hwide (x : BitVec 32) : (x.signExtend 64).toInt = x.toInt :=
    BitVec.toInt_signExtend_of_le (by decide)
  have hmul : (sec.signExtend 64).smulOverflow 1000000000 = false := by
    simp only [BitVec.smulOverflow, hwide, Bool.or_eq_false_iff, decide_eq_false_iff_not]
    change ¬ sec.toInt * 1000000000 ≥ _ ∧ ¬ sec.toInt * 1000000000 < _
    omega
  have hprod : (sec.signExtend 64 * 1000000000).toInt = sec.toInt * 1000000000 := by
    rw [BitVec.toInt_mul_of_not_smulOverflow (by rw [hmul]; decide), hwide]
    rfl
  have hadd : (sec.signExtend 64 * 1000000000).saddOverflow (nsec.signExtend 64) = false := by
    simp only [BitVec.saddOverflow, hwide, hprod, Bool.or_eq_false_iff, decide_eq_false_iff_not]
    omega
  refine ⟨hmul, hadd, ?_⟩
  rw [← BitVec.toInt_inj, toInt_ofParts,
    BitVec.toInt_add_of_not_saddOverflow (by rw [hadd]; decide), hprod, hwide]

/-- A count comes back from its message exactly where its seconds fit, with the
fields in normal form; fields in normal form come back from their count. -/
theorem message_round_trip :
    (∀ t : Time, (Time.ofMsg t.toMsg = t ↔ Fits t.tp.toInt) ∧
      (Fits t.tp.toInt → Normal t.toMsg.sec t.toMsg.nsec)) ∧
    (∀ d : Duration, (Duration.ofMsg d.toMsg = d ↔ Fits d.d.toInt) ∧
      (Fits d.d.toInt → Normal d.toMsg.sec d.toMsg.nsec)) ∧
    (∀ msg : Rix.Msg.Standard.Time, Normal msg.sec msg.nsec → (Time.ofMsg msg).toMsg = msg) ∧
    (∀ msg : Rix.Msg.Standard.Duration,
      Normal msg.sec msg.nsec → (Duration.ofMsg msg).toMsg = msg) ∧
    ∀ sec nsec : BitVec 32,
      (sec.signExtend 64).smulOverflow 1000000000 = false ∧
      (sec.signExtend 64 * 1000000000).saddOverflow (nsec.signExtend 64) = false ∧
      (Time.ofMsg ⟨sec, nsec⟩).tp = sec.signExtend 64 * 1000000000 + nsec.signExtend 64 ∧
      (Duration.ofMsg ⟨sec, nsec⟩).d = sec.signExtend 64 * 1000000000 + nsec.signExtend 64 := by
  refine ⟨fun t => ⟨?_, normal_split⟩, fun d => ⟨?_, normal_split⟩, fun msg h => ?_,
    fun msg h => ?_, fun sec nsec => ?_⟩
  · rw [Time.toMsg_eq, Time.ofMsg_eq, Time.mk.injEq]
    exact ofParts_split t.tp
  · rw [Duration.toMsg_eq, Duration.ofMsg_eq, Duration.mk.injEq]
    exact ofParts_split d.d
  · obtain ⟨hsec, hnsec⟩ := split_ofParts h
    rw [Time.ofMsg_eq, Time.toMsg_eq, hsec, hnsec]
  · obtain ⟨hsec, hnsec⟩ := split_ofParts h
    rw [Duration.ofMsg_eq, Duration.toMsg_eq, hsec, hnsec]
  · obtain ⟨hmul, hadd, heq⟩ := ofParts_exact sec nsec
    exact ⟨hmul, hadd, heq, heq⟩

/-- A second and a half before the epoch. -/
theorem round_trip_negative :
    Time.ofMsg (⟨-1500000000⟩ : Time).toMsg = ⟨-1500000000⟩ ∧
      Normal (⟨-1500000000⟩ : Duration).toMsg.sec (⟨-1500000000⟩ : Duration).toMsg.nsec ∧
      (Time.ofMsg ⟨-1, -500000000⟩).toMsg = ⟨-1, -500000000⟩ ∧
      (Duration.ofMsg ⟨-1, -500000000⟩).toMsg = ⟨-1, -500000000⟩ :=
  have hfits : Fits (-1500000000) := ⟨by decide, by decide⟩
  have hnormal : Normal (-1) (-500000000) := ⟨by decide, by decide⟩
  ⟨(message_round_trip.1 ⟨-1500000000⟩).1.mpr hfits, (message_round_trip.2.1 ⟨-1500000000⟩).2 hfits,
    message_round_trip.2.2.1 ⟨-1, -500000000⟩ hnormal,
    message_round_trip.2.2.2.1 ⟨-1, -500000000⟩ hnormal⟩

end Rix.Util
