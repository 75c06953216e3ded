-- SUMMARY: Rounding a rational number to the nearest double: it keeps the order, and is off by at most a part in 2^53.
import Mathlib.Algebra.Order.Field.Power
import Mathlib.Data.Int.Log
import Mathlib.Data.Rat.Floor
import Mathlib.Tactic.Linarith
import Mathlib.Tactic.NormNum
import Mathlib.Tactic.Positivity
import Mathlib.Tactic.Ring

/-!
# The nearest double

The bits of a double below its sign are a natural number, its magnitude, which
grows with what the double stands for. So rounding is a function from rational
numbers to magnitudes.
-/

namespace Ieee

-- ---------------------------------------------------------------------------
-- The nearest integer
-- ---------------------------------------------------------------------------

variable {x y : ℚ}

/-- A way to round to the nearest integer, which may choose between two. -/
def RoundsToNearest (f : ℚ → ℤ) : Prop := ∀ x, |(f x : ℚ) - x| ≤ 1 / 2

section
variable {f : ℚ → ℤ}

theorem RoundsToNearest.mono (hf : RoundsToNearest f) (h : x ≤ y) : f x ≤ f y := by
  by_contra hlt
  have hstep : (f y : ℚ) + 1 ≤ f x := mod_cast Int.add_one_le_iff.mpr (not_le.mp hlt)
  have hx := abs_le.mp (hf x)
  have hy := abs_le.mp (hf y)
  -- both are off by a half, in the same place
  obtain rfl : x = y := by linarith
  exact hlt le_rfl

theorem RoundsToNearest.intCast (hf : RoundsToNearest f) (n : ℤ) : f n = n := by
  have hlt : |f n - n| < 1 := by
    have hle := hf n
    rw [← Int.cast_sub, ← Int.cast_abs] at hle
    exact_mod_cast hle.trans_lt one_half_lt_one
  exact sub_eq_zero.mp (Int.abs_lt_one_iff.mp hlt)

theorem RoundsToNearest.eq_zero (hf : RoundsToNearest f) (h : |x| < 1 / 2) : f x = 0 := by
  have hlt : |f x| < 1 := by
    have hx := abs_lt.mp h
    have hfx := abs_le.mp (hf x)
    have hcast : |(f x : ℚ)| < 1 := abs_lt.mpr ⟨by linarith, by linarith⟩
    exact_mod_cast hcast
  exact Int.abs_lt_one_iff.mp hlt

theorem RoundsToNearest.le (hf : RoundsToNearest f) {n : ℤ} (h : n ≤ x) : n ≤ f x :=
  hf.intCast n ▸ hf.mono h

theorem RoundsToNearest.ge (hf : RoundsToNearest f) {n : ℤ} (h : x ≤ n) : f x ≤ n :=
  hf.intCast n ▸ hf.mono h

end

/-- The nearest integer, and the even one of two. -/
def roundEven (x : ℚ) : ℤ :=
  let q := ⌊x⌋
  let r := 2 * (x - q)
  if 1 < r ∨ (r = 1 ∧ q % 2 = 1) then q + 1 else q

/-- The nearest integer, and the one farther from zero of two. -/
def roundAway (x : ℚ) : ℤ := if x < 0 then -⌊-x + 1 / 2⌋ else ⌊x + 1 / 2⌋

theorem roundEven_nearest : RoundsToNearest roundEven := by
  intro x
  have hle : (⌊x⌋ : ℚ) ≤ x := Int.floor_le x
  have hlt : x < ⌊x⌋ + 1 := Int.lt_floor_add_one x
  simp only [roundEven]
  split
  case isTrue h =>
    have hr : 1 ≤ 2 * (x - ⌊x⌋) := h.elim le_of_lt fun h => h.1.ge
    rw [abs_le, Int.cast_add, Int.cast_one]
    constructor <;> linarith
  case isFalse h =>
    have hr : 2 * (x - ⌊x⌋) ≤ 1 := not_lt.mp fun hr => h (.inl hr)
    rw [abs_le]
    constructor <;> linarith

theorem roundAway_nearest : RoundsToNearest roundAway := by
  intro x
  rw [roundAway, abs_le]
  split
  · have hle := Int.floor_le (-x + 1 / 2)
    have hlt := Int.lt_floor_add_one (-x + 1 / 2)
    rw [Int.cast_neg]
    constructor <;> linarith
  · have hle := Int.floor_le (x + 1 / 2)
    have hlt := Int.lt_floor_add_one (x + 1 / 2)
    constructor <;> linarith

-- ---------------------------------------------------------------------------
-- Magnitudes
-- ---------------------------------------------------------------------------

/-- Infinity. What is above belongs to a NaN. -/
def infinity : Nat := 0x7ff0000000000000

/-- What a magnitude stands for. -/
def ofMagnitude (n : Nat) : ℚ :=
  if n < 2 ^ 52 then n * 2 ^ (-1074 : ℤ)
  else (2 ^ 52 + n % 2 ^ 52 : Nat) * 2 ^ ((n / 2 ^ 52 : Nat) - 1075 : ℤ)

/-- The last binary place of the doubles around a positive number. -/
def place (x : ℚ) : ℤ := max (Int.log 2 x - 52) (-1074)

/-- The magnitude of the double nearest to a number that is not negative, ties to
even. A carry out of the fraction goes into the exponent, as it should. -/
def toMagnitude (x : ℚ) : Nat :=
  if x = 0 then 0
  else min ((place x + 1074).toNat * 2 ^ 52 + (roundEven (x / 2 ^ place x)).toNat) infinity

-- 1.0, a tenth, the least subnormal, the largest double and what is half a place above it
example : ofMagnitude 0x3ff0000000000000 = 1 ∧ toMagnitude 1 = 0x3ff0000000000000 := by
  decide +kernel
example : toMagnitude (1 / 10) = 0x3fb999999999999a := by decide +kernel
example : toMagnitude (2 ^ (-1074 : ℤ)) = 1 ∧ toMagnitude (2 ^ (-1075 : ℤ)) = 0 := by decide +kernel
example : toMagnitude (2 ^ 1024 - 2 ^ 971) = 0x7fefffffffffffff ∧
    toMagnitude (2 ^ 1024 - 2 ^ 970) = infinity := by decide +kernel

/-- A fraction of 53 bits at a place, or of fewer bits at the lowest place; or a
carry. -/
structure IsFraction (k c : Nat) : Prop where
  le : c ≤ 2 ^ 53
  normal : k = 0 ∨ 2 ^ 52 ≤ c

theorem ofMagnitude_fraction {k c : Nat} (h : IsFraction k c) :
    ofMagnitude (k * 2 ^ 52 + c) = c * 2 ^ (k - 1074 : ℤ) := by
  obtain ⟨hle, hnormal⟩ := h
  rcases Nat.lt_or_ge c (2 ^ 52) with hsub | hge
  · obtain rfl : k = 0 := hnormal.resolve_right (by omega)
    rw [ofMagnitude, if_pos (by omega), Nat.zero_mul, Nat.zero_add]
    rfl
  rw [ofMagnitude, if_neg (by omega)]
  rcases hle.lt_or_eq with hlt | rfl
  · have hdiv : (k * 2 ^ 52 + c) / 2 ^ 52 = k + 1 := by omega
    have hmod : 2 ^ 52 + (k * 2 ^ 52 + c) % 2 ^ 52 = c := by omega
    rw [hdiv, hmod]
    congr 2
    omega
  · have hdiv : (k * 2 ^ 52 + 2 ^ 53) / 2 ^ 52 = k + 2 := by omega
    have hmod : 2 ^ 52 + (k * 2 ^ 52 + 2 ^ 53) % 2 ^ 52 = 2 ^ 52 := by omega
    have hexp : ((k + 2 : Nat) - 1075 : ℤ) = (k - 1074) + 1 := by omega
    rw [hdiv, hmod, hexp, zpow_add_one₀ two_ne_zero]
    push_cast
    ring

-- ---------------------------------------------------------------------------
-- Order
-- ---------------------------------------------------------------------------

theorem ofMagnitude_nonneg (n : Nat) : 0 ≤ ofMagnitude n := by
  rw [ofMagnitude]
  split <;> positivity

@[simp] theorem ofMagnitude_zero : ofMagnitude 0 = 0 := by
  simp [ofMagnitude]

@[simp] theorem toMagnitude_zero : toMagnitude 0 = 0 := if_pos rfl

theorem lt_place (x : ℚ) : x < 2 ^ (place x + 53) := by
  have hlog : Int.log 2 x + 1 ≤ place x + 53 := by
    have := le_max_left (Int.log 2 x - 52) (-1074)
    rw [place]
    omega
  calc x < 2 ^ (Int.log 2 x + 1) := mod_cast Int.lt_zpow_succ_log_self one_lt_two x
    _ ≤ 2 ^ (place x + 53) := zpow_le_zpow_right₀ one_le_two hlog

theorem place_le (hx : 0 < x) : place x = -1074 ∨ 2 ^ (place x + 52) ≤ x := by
  rcases le_total (Int.log 2 x - 52) (-1074) with h | h
  · exact .inl (max_eq_right h)
  · have hlog : place x + 52 = Int.log 2 x := by rw [place, max_eq_left h, sub_add_cancel]
    exact .inr (hlog ▸ mod_cast Int.zpow_log_le_self one_lt_two hx)

/-- A positive number is rounded to a fraction at its place. -/
theorem toMagnitude_eq (hx : 0 < x) : ∃ k c : Nat, place x = k - 1074 ∧ IsFraction k c ∧
    (c : ℤ) = roundEven (x / 2 ^ place x) ∧ toMagnitude x = min (k * 2 ^ 52 + c) infinity := by
  have hpow : (0 : ℚ) < 2 ^ place x := by positivity
  have hlow : -1074 ≤ place x := le_max_right _ _
  obtain ⟨k, hk⟩ := Int.eq_ofNat_of_zero_le (show 0 ≤ place x + 1074 by omega)
  obtain ⟨c, hc⟩ := Int.eq_ofNat_of_zero_le
    (roundEven_nearest.le (n := 0) (x := x / 2 ^ place x) (by rw [Int.cast_zero]; positivity))
  refine ⟨k, c, by omega, ⟨?_, ?_⟩, hc.symm, ?_⟩
  · have hle : x / 2 ^ place x ≤ ((2 ^ 53 : ℤ) : ℚ) := by
      rw [div_le_iff₀ hpow, Int.cast_pow, Int.cast_ofNat, ← zpow_natCast, ← zpow_add₀ two_ne_zero,
        add_comm]
      exact (lt_place x).le
    have := roundEven_nearest.ge hle
    omega
  · refine (place_le hx).imp (fun h => by omega) fun h => ?_
    have hle : ((2 ^ 52 : ℤ) : ℚ) ≤ x / 2 ^ place x := by
      rw [le_div_iff₀ hpow, Int.cast_pow, Int.cast_ofNat, ← zpow_natCast, ← zpow_add₀ two_ne_zero,
        add_comm]
      exact h
    have := roundEven_nearest.le hle
    omega
  · rw [toMagnitude, if_neg hx.ne', hc, hk]
    rfl

theorem toMagnitude_le_infinity (x : ℚ) : toMagnitude x ≤ infinity := by
  rw [toMagnitude]
  split
  · exact Nat.zero_le _
  · exact min_le_right _ _

theorem place_mono (hx : 0 < x) (h : x ≤ y) : place x ≤ place y :=
  max_le_max_right _ (sub_le_sub_right (Int.log_mono_right hx h) _)

theorem toMagnitude_mono (hx : 0 ≤ x) (h : x ≤ y) : toMagnitude x ≤ toMagnitude y := by
  rcases hx.eq_or_lt with rfl | hx
  · rw [toMagnitude, if_pos rfl]
    exact Nat.zero_le _
  obtain ⟨k, c, hk, hc, hround, hx'⟩ := toMagnitude_eq hx
  obtain ⟨l, d, hl, hd, hround', hy'⟩ := toMagnitude_eq (hx.trans_le h)
  rw [hx', hy']
  refine min_le_min_right _ ?_
  rcases (place_mono hx h).lt_or_eq with hlt | heq
  · -- a carry at the lower place at most reaches the next one
    have hnormal := hd.normal
    have hle := hc.le
    omega
  · obtain rfl : k = l := by omega
    have hcd : (c : ℤ) ≤ d := by
      rw [hround, hround', heq]
      exact roundEven_nearest.mono (by gcongr)
    omega

/-- Every magnitude has a fraction without a carry. -/
theorem exists_fraction (n : Nat) : ∃ k c, IsFraction k c ∧ c < 2 ^ 53 ∧ n = k * 2 ^ 52 + c := by
  rcases Nat.lt_or_ge n (2 ^ 52) with hlt | hge
  · exact ⟨0, n, ⟨by omega, .inl rfl⟩, by omega, by omega⟩
  · exact ⟨n / 2 ^ 52 - 1, 2 ^ 52 + n % 2 ^ 52, ⟨by omega, .inr (by omega)⟩, by omega, by omega⟩

theorem ofMagnitude_mono {n m : Nat} (h : n ≤ m) : ofMagnitude n ≤ ofMagnitude m := by
  obtain ⟨k, c, hc, hclt, rfl⟩ := exists_fraction n
  obtain ⟨l, d, hd, hdlt, rfl⟩ := exists_fraction m
  rw [ofMagnitude_fraction hc, ofMagnitude_fraction hd]
  rcases lt_trichotomy k l with hlt | rfl | hgt
  · have hnormal : 2 ^ 52 ≤ d := hd.normal.resolve_left (by omega)
    calc (c : ℚ) * 2 ^ (k - 1074 : ℤ) ≤ 2 ^ 53 * 2 ^ (k - 1074 : ℤ) := by
          gcongr
          exact_mod_cast hc.le
      _ = 2 ^ 52 * 2 ^ (k - 1074 + 1 : ℤ) := by
          rw [zpow_add_one₀ two_ne_zero]
          ring
      _ ≤ d * 2 ^ (l - 1074 : ℤ) := by
          gcongr
          · exact_mod_cast hnormal
          · exact one_le_two
          · omega
  · have hcd : c ≤ d := by omega
    gcongr
  · have hnormal : 2 ^ 52 ≤ c := hc.normal.resolve_left (by omega)
    omega

-- ---------------------------------------------------------------------------
-- Precision
-- ---------------------------------------------------------------------------

theorem log_lt (hx : 0 < x) {j : ℤ} (h : x < 2 ^ j) : Int.log 2 x < j :=
  (Int.lt_zpow_iff_log_lt one_lt_two hx).mp (mod_cast h)

/-- Below `2 ^ 1023` nothing overflows, and the result is the nearest multiple of
the last place. -/
theorem ofMagnitude_toMagnitude (hx : 0 < x) (hlt : x < 2 ^ (1023 : ℤ)) : toMagnitude x < infinity ∧
    ofMagnitude (toMagnitude x) = roundEven (x / 2 ^ place x) * 2 ^ place x := by
  obtain ⟨k, c, hk, hc, hround, hbits⟩ := toMagnitude_eq hx
  have hlog : Int.log 2 x < 1023 := log_lt hx hlt
  have hplace : place x ≤ 970 := max_le (by omega) (by omega)
  have hfinite : k * 2 ^ 52 + c < infinity := by
    have := hc.le
    rw [infinity]
    omega
  rw [hbits, min_eq_left hfinite.le, ofMagnitude_fraction hc, ← hround, hk]
  exact ⟨hfinite, rfl⟩

/-- A number of 53 bits is a double. -/
theorem ofMagnitude_toMagnitude_of_bits {n : Nat} {j : ℤ} (hn : 0 < n) (hbits : n < 2 ^ 53)
    (hj : -1074 ≤ j) (hlt : (n * 2 ^ j : ℚ) < 2 ^ (1023 : ℤ)) :
    ofMagnitude (toMagnitude (n * 2 ^ j)) = n * 2 ^ j := by
  have hx : (0 : ℚ) < n * 2 ^ j := by positivity
  have hplace : place (n * 2 ^ j) ≤ j := by
    have hlog : Int.log 2 (n * 2 ^ j : ℚ) < 53 + j := by
      refine log_lt hx ?_
      rw [zpow_add₀ two_ne_zero]
      gcongr
      exact_mod_cast hbits
    exact max_le (by omega) hj
  obtain ⟨t, ht⟩ := Int.eq_ofNat_of_zero_le (show 0 ≤ j - place (n * 2 ^ j) by omega)
  have hint : (n * 2 ^ j / 2 ^ place (n * 2 ^ j) : ℚ) = ((n * 2 ^ t : ℤ) : ℚ) := by
    rw [mul_div_assoc, ← zpow_sub₀ two_ne_zero, ht]
    push_cast
    rfl
  rw [(ofMagnitude_toMagnitude hx hlt).2, hint, roundEven_nearest.intCast, ← hint,
    div_mul_cancel₀ _ (by positivity)]

/-- How far a rounding is off at most, as a factor. -/
def slack : ℚ := 2 ^ 53 / (2 ^ 53 - 1)

/-- Two numbers are `k` roundings apart at most. -/
def Apart (k : Nat) (x y : ℚ) : Prop := x ≤ slack ^ k * y ∧ y ≤ slack ^ k * x

theorem one_le_slack : 1 ≤ slack := by norm_num [slack]

theorem slack_le_two : slack ≤ 2 := by norm_num [slack]

theorem abs_round_sub_le (hlow : 2 ^ (-1022 : ℤ) ≤ x) (hlt : x < 2 ^ (1023 : ℤ)) :
    |ofMagnitude (toMagnitude x) - x| ≤ x / 2 ^ 53 := by
  have hx : 0 < x := lt_of_lt_of_le (by positivity) hlow
  have hplace : (2 : ℚ) ^ place x * 2 ^ 52 ≤ x := by
    rw [← zpow_natCast, ← zpow_add₀ two_ne_zero]
    rcases place_le hx with h | h
    · rwa [h]
    · exact h
  have hpow : (0 : ℚ) < 2 ^ place x := by positivity
  have hmul : x = x / 2 ^ place x * 2 ^ place x := (div_mul_cancel₀ _ hpow.ne').symm
  calc |ofMagnitude (toMagnitude x) - x|
      = |(roundEven (x / 2 ^ place x) - x / 2 ^ place x) * 2 ^ place x| := by
        rw [(ofMagnitude_toMagnitude hx hlt).2, sub_mul, ← hmul]
    _ ≤ 1 / 2 * 2 ^ place x := by
        rw [abs_mul, abs_of_pos hpow]
        gcongr
        exact roundEven_nearest _
    _ ≤ x / 2 ^ 53 := by linarith

/-- What is too small for that is rounded to something small. -/
theorem round_le_of_small (hx : 0 ≤ x) (h : x ≤ 2 ^ (-1022 : ℤ)) :
    ofMagnitude (toMagnitude x) ≤ 2 ^ (-1022 : ℤ) := by
  have hlt : (2 : ℚ) ^ (-1022 : ℤ) < 2 ^ (1023 : ℤ) := zpow_lt_zpow_right₀ one_lt_two (by decide)
  have hexact := ofMagnitude_toMagnitude_of_bits (n := 1) (j := -1022) Nat.one_pos (by decide)
    (by decide) (by rwa [Nat.cast_one, one_mul])
  rw [Nat.cast_one, one_mul] at hexact
  exact (ofMagnitude_mono (toMagnitude_mono hx h)).trans_eq hexact

theorem apart_round (hlow : 2 ^ (-1022 : ℤ) ≤ x) (hlt : x < 2 ^ (1023 : ℤ)) :
    Apart 1 x (ofMagnitude (toMagnitude x)) := by
  obtain ⟨hge, hle⟩ := abs_le.mp (abs_round_sub_le hlow hlt)
  rw [Apart, pow_one, slack]
  constructor <;> linarith

variable {k l : Nat} {x' y' z : ℚ}

theorem Apart.trans (h : Apart k x y) (h' : Apart l y z) : Apart (k + l) x z := by
  have hk : 0 ≤ slack ^ k := pow_nonneg (zero_le_one.trans one_le_slack) k
  have hl : 0 ≤ slack ^ l := pow_nonneg (zero_le_one.trans one_le_slack) l
  constructor
  · calc x ≤ slack ^ k * y := h.1
      _ ≤ slack ^ k * (slack ^ l * z) := mul_le_mul_of_nonneg_left h'.1 hk
      _ = slack ^ (k + l) * z := by ring
  · calc z ≤ slack ^ l * y := h'.2
      _ ≤ slack ^ l * (slack ^ k * x) := mul_le_mul_of_nonneg_left h.2 hl
      _ = slack ^ (k + l) * x := by ring

theorem Apart.mul_right (h : Apart k x y) (hz : 0 ≤ z) : Apart k (x * z) (y * z) := by
  constructor
  · exact (mul_le_mul_of_nonneg_right h.1 hz).trans_eq (mul_assoc ..)
  · exact (mul_le_mul_of_nonneg_right h.2 hz).trans_eq (mul_assoc ..)

theorem Apart.mul (h : Apart k x y) (h' : Apart l x' y') (hy : 0 ≤ y) (hx' : 0 ≤ x') :
    Apart (k + l) (x * x') (y * y') := by
  have hright := h'.mul_right hy
  rw [mul_comm x', mul_comm y'] at hright
  exact (h.mul_right hx').trans hright

theorem Apart.inv (h : Apart k x y) (hx : 0 < x) (hy : 0 < y) : Apart k x⁻¹ y⁻¹ := by
  constructor
  · rw [← div_eq_mul_inv, inv_eq_one_div, div_le_div_iff₀ hx hy, one_mul]
    exact h.2
  · rw [← div_eq_mul_inv, inv_eq_one_div, div_le_div_iff₀ hy hx, one_mul]
    exact h.1

theorem Apart.abs_sub_le (h : Apart k x y) (hx : 0 ≤ x) : |y - x| ≤ (slack ^ k - 1) * x := by
  have hone : 1 ≤ slack ^ k := one_le_pow₀ one_le_slack
  have hpos : 0 < slack ^ k := zero_lt_one.trans_le hone
  rw [abs_le]
  constructor
  · have hle : x / slack ^ k ≤ x := div_le_self hx hone
    have hge : x / slack ^ k ≤ y := (div_le_iff₀' hpos).mpr h.1
    have hmul : (slack ^ k - 1) * (x / slack ^ k) = x - x / slack ^ k := by
      rw [sub_mul, one_mul, mul_div_cancel₀ _ hpos.ne']
    have hmono := mul_le_mul_of_nonneg_left hle (sub_nonneg.mpr hone)
    linarith
  · linarith [h.2]

end Ieee
