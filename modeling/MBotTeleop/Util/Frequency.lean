-- SUMMARY: Seconds and frequencies as doubles: Duration(double), and the frequency of a Rate there and back.
import MBotTeleop.Lib.Arithmetic
import MBotTeleop.Util.Rate

/-!
# Seconds and frequencies

`Duration` and `Time` can be made from seconds as a double, and `Rate` from a
frequency. Each step rounds: the conversion to a double, the product, the
quotient, and `llround`, whose result is unspecified where it does not fit.
-/

namespace Rix.Util

open Ieee (ofInt mul div llround le)

-- ---------------------------------------------------------------------------
-- Seconds
-- ---------------------------------------------------------------------------

/-- `llround(seconds * 1'000'000'000)` -/
def nanosecondsOf (seconds : BitVec 64) : Option (BitVec 64) :=
  llround (mul seconds (ofInt 1000000000))

/-- `Time(double)`; `none` where the result of `llround` is unspecified. -/
def Time.ofSeconds (seconds : BitVec 64) : Option Time := (nanosecondsOf seconds).map (⟨·⟩)

/-- `Duration(double)` -/
def Duration.ofSeconds (seconds : BitVec 64) : Option Duration := (nanosecondsOf seconds).map (⟨·⟩)

-- the timeouts that the two programs wait with, 0.0 and 0.001
example : Duration.ofSeconds 0 = some ⟨0⟩ ∧
    Duration.ofSeconds 0x3f50624dd2f1a9fc = some ⟨1000000⟩ := by decide +kernel

theorem isPositive_billion : Ieee.IsPositive (ofInt 1000000000) 1000000000 := by
  exact_mod_cast Ieee.isPositive_ofInt (n := 1000000000) (by decide) (by decide)

/-- The conversion keeps the order, and is defined between two results. -/
theorem nanosecondsOf_between {a s b m n : BitVec 64} (has : le a s = true) (hsb : le s b = true)
    (ha : nanosecondsOf a = some m) (hb : nanosecondsOf b = some n) :
    ∃ k, nanosecondsOf s = some k ∧ m.toInt ≤ k.toInt ∧ k.toInt ≤ n.toInt :=
  Ieee.llround_between (Ieee.mul_le_mul isPositive_billion has)
    (Ieee.mul_le_mul isPositive_billion hsb) ha hb

/-- A whole number of seconds is converted as `Duration(int32_t, int32_t)` does. -/
theorem nanosecondsOf_whole (sec : BitVec 32) :
    nanosecondsOf (ofInt sec.toInt) = some (ofParts sec 0) := by
  have hlow := BitVec.le_toInt sec
  have hhigh := BitVec.toInt_lt (x := sec)
  -- 10^9 has 9 zeros at its end in binary as well
  have hsplit : sec.toInt * 1000000000 = sec.toInt * 1953125 * 2 ^ 9 := by
    rw [Int.mul_assoc]
    rfl
  rw [nanosecondsOf, Ieee.mul_ofInt (by omega) (by decide) (by decide), hsplit,
    Ieee.llround_ofInt (by omega) (by decide), ← hsplit]
  refine congrArg some (BitVec.eq_of_toInt_eq ?_)
  rw [toInt_ofParts, BitVec.toInt_ofInt_eq_self (by decide) (by omega) (by omega)]
  exact (Int.add_zero _).symm

theorem ofInt_sec (sec : BitVec 32) : Ieee.magnitude (ofInt sec.toInt) < Ieee.infinity ∧
    Ieee.value (ofInt sec.toInt) = sec.toInt := by
  have hlow := BitVec.le_toInt sec
  have hhigh := BitVec.toInt_lt (x := sec)
  exact Ieee.ofInt_exact_small (by omega)

/-- Seconds between two `int32_t` become nanoseconds between theirs, off by half
of one and a part in `2 ^ 53` at most. -/
theorem ofSeconds_between {low high : BitVec 32} {seconds : BitVec 64}
    (hlow : le (ofInt low.toInt) seconds = true) (hhigh : le seconds (ofInt high.toInt) = true) :
    ∃ ns, Time.ofSeconds seconds = some ⟨ns⟩ ∧ Duration.ofSeconds seconds = some ⟨ns⟩ ∧
      (ofParts low 0).toInt ≤ ns.toInt ∧ ns.toInt ≤ (ofParts high 0).toInt ∧
      |(ns.toInt : ℚ) - Ieee.value seconds * 1000000000| ≤
        1 / 2 + |Ieee.value seconds * 1000000000| / 2 ^ 53 := by
  obtain ⟨ns, hns, hle, hge⟩ :=
    nanosecondsOf_between hlow hhigh (nanosecondsOf_whole low) (nanosecondsOf_whole high)
  have hfinite : Ieee.magnitude seconds < Ieee.infinity :=
    Ieee.finite_of_between hlow hhigh (ofInt_sec low).1 (ofInt_sec high).1
  have hbound : |Ieee.value seconds * 1000000000| < 2 ^ (1023 : ℤ) := by
    have hlow := Ieee.value_mono hlow
    have hhigh := Ieee.value_mono hhigh
    rw [(ofInt_sec _).2] at hlow hhigh
    have hmin : (-2 ^ 31 : ℚ) ≤ low.toInt := mod_cast BitVec.le_toInt low
    have hmax : (high.toInt : ℚ) < 2 ^ 31 := mod_cast BitVec.toInt_lt (x := high)
    calc |Ieee.value seconds * 1000000000| ≤ 2 ^ (61 : ℤ) :=
          abs_le.mpr ⟨by linarith, by linarith⟩
      _ < 2 ^ (1023 : ℤ) := zpow_lt_zpow_right₀ one_lt_two (by decide)
  refine ⟨ns, ?_, ?_, hle, hge, Ieee.abs_llround_mul_sub_le isPositive_billion hns hfinite hbound⟩
  · rw [Time.ofSeconds, hns, Option.map_some]
  · rw [Duration.ofSeconds, hns, Option.map_some]

/-- A millisecond, which is not a double in seconds -/
theorem ofSeconds_between_millisecond :
    ∃ ns, Time.ofSeconds 0x3f50624dd2f1a9fc = some ⟨ns⟩ ∧
      Duration.ofSeconds 0x3f50624dd2f1a9fc = some ⟨ns⟩ ∧
      (ofParts 0 0).toInt ≤ ns.toInt ∧ ns.toInt ≤ (ofParts 1 0).toInt ∧
      |(ns.toInt : ℚ) - Ieee.value 0x3f50624dd2f1a9fc * 1000000000| ≤
        1 / 2 + |Ieee.value 0x3f50624dd2f1a9fc * 1000000000| / 2 ^ 53 :=
  ofSeconds_between (by decide +kernel) (by decide +kernel)

-- ---------------------------------------------------------------------------
-- Frequencies
-- ---------------------------------------------------------------------------

namespace Rate

/-- `1.0` -/
def one : BitVec 64 := 0x3ff0000000000000

/-- `Duration(1.0 / frequency)`, where `unspecified` stands for what `llround`
returns if the result does not fit. -/
def inverse (unspecified : Duration) (frequency : BitVec 64) : Duration :=
  (Duration.ofSeconds (div one frequency)).getD unspecified

/-- The double that `frequency()` returns. -/
def Frequency.value : Frequency → BitVec 64
  | zero => 0
  -- 1e-9 is not a double; this is the nearest
  | inverse ns => div one (mul (ofInt ns.toInt) 0x3e112e0be826d695)

-- the constant is what `min_frequency()` computes
example : minFrequency = div (ofInt 1000000000) (ofInt maxPeriod.d.toInt) := by decide +kernel

theorem toInt_maxPeriod : maxPeriod.d.toInt = 2 ^ 63 - 1 := by decide

theorem isPositive_one : Ieee.IsPositive one 1 := by
  have hone : one = ofInt 1 := by decide +kernel
  rw [hone]
  exact_mod_cast Ieee.isPositive_ofInt (n := 1) (by decide) (by decide)

/-- The least double above `min_frequency()`. -/
def leastAbove : BitVec 64 := 0x3dddcd6500000001

theorem leastAbove_le {g : BitVec 64} (hnan : Ieee.isNaN g = false)
    (h : ¬ le g minFrequency = true) : le leastAbove g = true := by
  have hlt := Ieee.lt_of_not_le hnan (by decide) h
  have hrank : Ieee.rank leastAbove = Ieee.rank minFrequency + 1 := by decide
  exact Ieee.le_iff.mpr ⟨by decide, Ieee.isNaN_eq_false.mp hnan, by omega⟩

variable {f g : BitVec 64}

theorem rank_pos (h : le leastAbove g = true) : 0 < Ieee.rank g := by
  have hpos : 0 < Ieee.rank leastAbove := by decide
  exact hpos.trans_le (Ieee.le_iff.mp h).2.2

theorem zero_le_inverse (h : le leastAbove g = true) : le 0 (div one g) = true := by
  have hnan := Ieee.isNaN_eq_false.mpr (Ieee.le_iff.mp h).2.1
  rw [Ieee.div_eq isPositive_one hnan (rank_pos h)]
  exact Ieee.zero_le_signed (Ieee.divided_le_infinity _ _)

/-- The period of a frequency above the least one fits. -/
theorem nanosecondsOf_inverse (h : le leastAbove g = true) :
    ∃ n, nanosecondsOf (div one g) = some n ∧ 0 ≤ n.toInt := by
  have hzero : nanosecondsOf 0 = some 0 := by decide +kernel
  have hleast : nanosecondsOf (div one leastAbove) = some 0x7ffffffffffffc00 := by decide +kernel
  have hle := Ieee.div_le_div isPositive_one (rank_pos (Ieee.le_refl (by decide))) h
  obtain ⟨n, hn, hpos, -⟩ := nanosecondsOf_between (zero_le_inverse h) hle hzero hleast
  exact ⟨n, hn, hpos⟩

/-- And it does not grow with the frequency. -/
theorem nanosecondsOf_inverse_anti {m n : BitVec 64} (hf : le leastAbove f = true)
    (hfg : le f g = true) (hm : nanosecondsOf (div one g) = some m)
    (hn : nanosecondsOf (div one f) = some n) :
    m.toInt ≤ n.toInt := by
  have hzero : nanosecondsOf 0 = some 0 := by decide +kernel
  have hle := Ieee.div_le_div isPositive_one (rank_pos hf) hfg
  obtain ⟨k, hk, -, hkn⟩ :=
    nanosecondsOf_between (zero_le_inverse (Ieee.le_trans hf hfg)) hle hzero hn
  obtain rfl := Option.some.inj (hm.symm.trans hk)
  exact hkn

theorem periodOf_above {u : Duration} {n : BitVec 64} (h : le leastAbove g = true)
    (hn : nanosecondsOf (div one g) = some n) : periodOf (inverse u) g = ⟨n⟩ := by
  have hnot : ¬ le g minFrequency = true := by
    intro hle
    have hrank := (Ieee.le_iff.mp (Ieee.le_trans h hle)).2.2
    exact absurd hrank (by decide)
  rw [periodOf, if_neg hnot, inverse, Duration.ofSeconds, hn, Option.map_some, Option.getD_some]

theorem periodOf_nonneg (u : Duration) (hg : Ieee.isNaN g = false) :
    0 ≤ (periodOf (inverse u) g).d.toInt := by
  by_cases hmin : le g minFrequency = true
  · rw [periodOf, if_pos hmin]
    decide
  · have habove := leastAbove_le hg hmin
    obtain ⟨n, hn, hpos⟩ := nanosecondsOf_inverse habove
    rw [periodOf_above habove hn]
    exact hpos

theorem periodOf_anti (u u' : Duration) (h : le f g = true) :
    (periodOf (inverse u) g).d.toInt ≤ (periodOf (inverse u') f).d.toInt := by
  obtain ⟨hf, hg, -⟩ := Ieee.le_iff.mp h
  rw [← Ieee.isNaN_eq_false] at hf hg
  by_cases hlef : le f minFrequency = true
  · -- no period is longer
    have hlt := BitVec.toInt_lt (x := (periodOf (inverse u) g).d)
    rw [periodOf.eq_def (inverse u') f, if_pos hlef, toInt_maxPeriod]
    omega
  · have hf' := leastAbove_le hf hlef
    have hg' := Ieee.le_trans hf' h
    obtain ⟨m, hm, -⟩ := nanosecondsOf_inverse hg'
    obtain ⟨n, hn, -⟩ := nanosecondsOf_inverse hf'
    rw [periodOf_above hg' hm, periodOf_above hf' hn]
    exact nanosecondsOf_inverse_anti hf' h hm hn

/-- `set_frequency` never meets the unspecified case, and a higher frequency never
gives a longer period. -/
theorem setFrequency_antitone (u u' : Duration) (r r' : Rate) (h : le f g = true) :
    0 ≤ (r.setFrequency (inverse u) g).period.d.toInt ∧
      (r.setFrequency (inverse u) g).period.d.toInt ≤
        (r'.setFrequency (inverse u') f).period.d.toInt := by
  have hg := Ieee.isNaN_eq_false.mpr (Ieee.le_iff.mp h).2.1
  exact ⟨periodOf_nonneg u hg, periodOf_anti u u' h⟩

/-- 10 Hz and infinity -/
theorem setFrequency_antitone_infinity :
    le 0x4024000000000000 0x7ff0000000000000 = true ∧
      0 ≤ (Rate.setFrequency (inverse ⟨1⟩) ⟨⟨5⟩, ⟨0⟩⟩ 0x7ff0000000000000).period.d.toInt ∧
      (Rate.setFrequency (inverse ⟨1⟩) ⟨⟨5⟩, ⟨0⟩⟩ 0x7ff0000000000000).period.d.toInt ≤
        (Rate.setFrequency (inverse ⟨2⟩) ⟨⟨6⟩, ⟨0⟩⟩ 0x4024000000000000).period.d.toInt :=
  ⟨by decide, setFrequency_antitone ⟨1⟩ ⟨2⟩ ⟨⟨5⟩, ⟨0⟩⟩ ⟨⟨6⟩, ⟨0⟩⟩ (by decide)⟩

theorem value_pos (h : le leastAbove g = true) : 1000000000 / 2 ^ 63 < Ieee.value g := by
  have hleast : 1000000000 / 2 ^ 63 < Ieee.value leastAbove := by decide +kernel
  exact hleast.trans_le (Ieee.value_mono h)

/-! ## There and back -/

theorem estimates_nano : Ieee.Estimates 1 (1 / 1000000000) 0x3e112e0be826d695 := by
  have hround : (0x3e112e0be826d695 : BitVec 64) =
      Ieee.signed false (Ieee.toMagnitude (1 / 1000000000)) := by decide +kernel
  rw [hround]
  exact Ieee.estimates_round ⟨by norm_num, by norm_num⟩ (by simp [Ieee.Apart]) (Nat.zero_le _)

section
variable {ns : BitVec 64}

theorem bounds_of_pos (hpos : 0 < ns.toInt) : (1 : ℚ) ≤ ns.toInt ∧ (ns.toInt : ℚ) < 2 ^ 63 :=
  ⟨mod_cast hpos, mod_cast BitVec.toInt_lt (x := ns)⟩

/-- `frequency()` rounds four times. -/
theorem estimates_frequency (hpos : 0 < ns.toInt) :
    Ieee.Estimates 4 (1000000000 / ns.toInt) (Frequency.inverse ns).value := by
  obtain ⟨hlow, hhigh⟩ := bounds_of_pos hpos
  have hns : Ieee.Estimates 1 (ns.toInt : ℚ) (ofInt ns.toInt) :=
    Ieee.estimates_ofInt ⟨by linarith, by linarith⟩
  have hsec := hns.mul estimates_nano ⟨by linarith, by linarith⟩ (by decide)
  have heq : 1 / (ns.toInt * (1 / 1000000000) : ℚ) = 1000000000 / ns.toInt := by field_simp
  have hordinary : Ieee.Ordinary (1000000000 / ns.toInt) := by
    constructor
    · rw [div_le_div_iff₀ (by positivity) (by linarith)]
      linarith
    · rw [div_le_iff₀ (by linarith)]
      linarith
  rw [← heq] at hordinary
  have hquotient := isPositive_one.estimates.div hsec hordinary (by decide)
  rwa [heq] at hquotient

/-- Setting it rounds twice more. -/
theorem estimates_there_and_back (hpos : 0 < ns.toInt) :
    Ieee.Estimates 6 ns.toInt
      (mul (div one (Frequency.inverse ns).value) (ofInt 1000000000)) := by
  obtain ⟨hlow, hhigh⟩ := bounds_of_pos hpos
  have heq : 1 / (1000000000 / ns.toInt : ℚ) = ns.toInt / 1000000000 := one_div_div _ _
  have hordinary : Ieee.Ordinary (ns.toInt / 1000000000) := ⟨by linarith, by linarith⟩
  rw [← heq] at hordinary
  have hinverse := isPositive_one.estimates.div (estimates_frequency hpos) hordinary (by decide)
  have heq' : 1 / (1000000000 / ns.toInt : ℚ) * 1000000000 = ns.toInt := by
    rw [heq]
    ring
  have hproduct := hinverse.mul isPositive_billion.estimates
    (by rw [heq']; exact ⟨by linarith, by linarith⟩) (by decide)
  rwa [heq'] at hproduct

theorem slack_pow_le {k : Nat} (h : k ≤ 6) : Ieee.slack ^ k - 1 ≤ 1 / 2 ^ 50 := by
  have hpow : Ieee.slack ^ k ≤ Ieee.slack ^ 6 := pow_le_pow_right₀ Ieee.one_le_slack h
  have hsix : Ieee.slack ^ 6 - 1 ≤ 1 / 2 ^ 50 := by norm_num [Ieee.slack]
  linarith

/-- Only a period close to the longest one has a frequency that is too low to set. -/
theorem long_of_frequency_le (hpos : 0 < ns.toInt)
    (h : le (Frequency.inverse ns).value minFrequency = true) :
    (2 : ℚ) ^ 63 ≤ Ieee.slack ^ 4 * ns.toInt := by
  obtain ⟨hlow, -⟩ := bounds_of_pos hpos
  have hvalue : Ieee.value minFrequency = 1000000000 / 2 ^ 63 := by decide +kernel
  have hslack : 0 ≤ Ieee.slack ^ 4 := pow_nonneg (zero_le_one.trans Ieee.one_le_slack) 4
  have hle : 1000000000 / ns.toInt ≤ Ieee.slack ^ 4 * (1000000000 / 2 ^ 63) :=
    calc (1000000000 / ns.toInt : ℚ) ≤ Ieee.slack ^ 4 * Ieee.value (Frequency.inverse ns).value :=
          (estimates_frequency hpos).le_value
      _ ≤ Ieee.slack ^ 4 * Ieee.value minFrequency :=
          mul_le_mul_of_nonneg_left (Ieee.value_mono h) hslack
      _ = Ieee.slack ^ 4 * (1000000000 / 2 ^ 63) := by rw [hvalue]
  rw [div_le_iff₀ (by linarith)] at hle
  linarith

/-- The period that comes back is that of the estimate, or the longest one. -/
theorem abs_periodOf_frequency_sub_le (u : Duration) (hpos : 0 < ns.toInt) :
    |((periodOf (inverse u) (Frequency.inverse ns).value).d.toInt : ℚ) - ns.toInt| ≤
      1 / 2 + ns.toInt / 2 ^ 50 := by
  have hns : (0 : ℚ) ≤ ns.toInt := mod_cast hpos.le
  by_cases hmin : le (Frequency.inverse ns).value minFrequency = true
  · have hlong := long_of_frequency_le hpos hmin
    have hslack := mul_le_mul_of_nonneg_right (slack_pow_le (show 4 ≤ 6 by decide)) hns
    have hmax : (maxPeriod.d.toInt : ℚ) = 2 ^ 63 - 1 := by
      rw [toInt_maxPeriod]
      norm_num
    have hle : (ns.toInt : ℚ) + 1 ≤ 2 ^ 63 := mod_cast BitVec.toInt_lt (x := ns)
    rw [periodOf, if_pos hmin, hmax, abs_le]
    constructor <;> linarith
  · have habove := leastAbove_le (estimates_frequency hpos).isNaN hmin
    obtain ⟨n, hn, -⟩ := nanosecondsOf_inverse habove
    have hslack := mul_le_mul_of_nonneg_right (slack_pow_le (Nat.le_refl 6)) hns
    have hback := (estimates_there_and_back hpos).abs_llround_sub_le hn
    rw [periodOf_above habove hn]
    linarith

theorem periodOf_frequency_zero (u : Duration) :
    periodOf (inverse u) (Frequency.inverse 0).value = ⟨0⟩ :=
  periodOf_above (by decide +kernel) (by decide +kernel)

end

/-- Between integers half of one does not count. -/
theorem abs_mul_le_of_close {d n : ℤ} (hn : 0 ≤ n) (h : |(d : ℚ)| ≤ 1 / 2 + n / 2 ^ 50) :
    |d| * 2 ^ 49 ≤ n := by
  have hscaled : |d| * 2 ^ 50 ≤ 2 ^ 49 + n := by
    have hle : |(d : ℚ)| * 2 ^ 50 ≤ 2 ^ 49 + n := by linarith
    exact_mod_cast hle
  have hnonneg := abs_nonneg d
  omega

theorem frequency_of_maxPeriod {r : Rate} (h : r.period = maxPeriod) : r.frequency = .zero := by
  rw [frequency, h]
  rfl

theorem periodOf_zero (u : Duration) : periodOf (inverse u) Frequency.zero.value = maxPeriod :=
  if_pos (by decide)

theorem frequency_of_ne {r : Rate} (h : r.period ≠ maxPeriod) :
    r.frequency = .inverse r.period.d := by
  rw [frequency, Duration.toNanoseconds, if_neg fun hmax => h (congrArg Duration.mk hmax)]

theorem abs_periodOf_sub_mul_le (u : Duration) {r : Rate} (h : 0 ≤ r.period.d.toInt) :
    |(periodOf (inverse u) r.frequency.value).d.toInt - r.period.d.toInt| * 2 ^ 49 ≤
      r.period.d.toInt := by
  by_cases hmax : r.period = maxPeriod
  · rw [frequency_of_maxPeriod hmax, periodOf_zero, hmax]
    decide
  rw [frequency_of_ne hmax]
  rcases h.eq_or_lt with hzero | hpos
  · obtain hd : r.period.d = 0 := BitVec.eq_of_toInt_eq hzero.symm
    rw [hd, periodOf_frequency_zero]
    decide
  · have hclose := abs_periodOf_frequency_sub_le u hpos
    rw [← Int.cast_sub] at hclose
    exact abs_mul_le_of_close h hclose

/-- A period survives the way through its frequency, up to a part in `2 ^ 49`. -/
theorem setFrequency_frequency (u : Duration) {r : Rate} (h : 0 ≤ r.period.d.toInt) :
    |(r.setFrequency (inverse u) r.frequency.value).period.d.toInt - r.period.d.toInt| * 2 ^ 49 ≤
        r.period.d.toInt ∧
      (r.period.d.toInt < 2 ^ 49 ∨ r.period = maxPeriod →
        r.setFrequency (inverse u) r.frequency.value = r) := by
  have hclose := abs_periodOf_sub_mul_le u h
  refine ⟨hclose, fun hcase => ?_⟩
  have hperiod : periodOf (inverse u) r.frequency.value = r.period := by
    rcases hcase with hlt | hmax
    · have hd : (periodOf (inverse u) r.frequency.value).d.toInt - r.period.d.toInt = 0 := by
        rw [← Int.abs_lt_one_iff]
        omega
      exact congrArg Duration.mk (BitVec.eq_of_toInt_eq (Int.sub_eq_zero.mp hd))
    · rw [frequency_of_maxPeriod hmax, periodOf_zero, hmax]
  rw [setFrequency, hperiod]

/-- 30 ms, which has a frequency that is not a double -/
theorem setFrequency_frequency_thirtieth :
    Rate.setFrequency (inverse ⟨7⟩) ⟨⟨30000000⟩, ⟨4⟩⟩ (Rate.frequency ⟨⟨30000000⟩, ⟨4⟩⟩).value =
      ⟨⟨30000000⟩, ⟨4⟩⟩ :=
  (setFrequency_frequency ⟨7⟩ (r := ⟨⟨30000000⟩, ⟨4⟩⟩) (by decide)).2 (.inl (by decide))

end Rate

end Rix.Util
