-- SUMMARY: Products, quotients and conversions of doubles, with the order and the precision of their results.
import MBotTeleop.Lib.Ieee
import MBotTeleop.Lib.Nearest

/-!
# Arithmetic of doubles

An operation rounds its exact result to the nearest double. The operations are
monotone in the order `le`, infinities included. On positive numbers that are
neither too small nor too large each is one rounding away from the exact result.
-/

namespace Ieee

-- ---------------------------------------------------------------------------
-- Operations
-- ---------------------------------------------------------------------------

def magnitude (d : BitVec 64) : Nat := d.toNat % 2 ^ 63

def signed (negative : Bool) (n : Nat) : BitVec 64 :=
  BitVec.ofNat 64 ((if negative then 2 ^ 63 else 0) + n)

/-- What an invalid operation returns. Programs do not look at its payload. -/
def nan : BitVec 64 := 0x7ff8000000000000

/-- The number that a finite double stands for. -/
def value (d : BitVec 64) : ℚ :=
  if d.msb then -ofMagnitude (magnitude d) else ofMagnitude (magnitude d)

/-- `a * b` -/
def mul (a b : BitVec 64) : BitVec 64 :=
  let negative := a.msb ^^ b.msb
  if isNaN a || isNaN b then nan
  else if magnitude a = infinity ∨ magnitude b = infinity then
    if magnitude a = 0 ∨ magnitude b = 0 then nan else signed negative infinity
  else signed negative (toMagnitude (ofMagnitude (magnitude a) * ofMagnitude (magnitude b)))

/-- `a / b` -/
def div (a b : BitVec 64) : BitVec 64 :=
  let negative := a.msb ^^ b.msb
  if isNaN a || isNaN b then nan
  else if magnitude a = infinity then
    if magnitude b = infinity then nan else signed negative infinity
  else if magnitude b = infinity then signed negative 0
  else if magnitude b = 0 then
    if magnitude a = 0 then nan else signed negative infinity
  else signed negative (toMagnitude (ofMagnitude (magnitude a) / ofMagnitude (magnitude b)))

/-- `static_cast<double>` of an integer -/
def ofInt (n : ℤ) : BitVec 64 := signed (decide (n < 0)) (toMagnitude n.natAbs)

/-- `llround`, where the result is specified. -/
def llround (d : BitVec 64) : Option (BitVec 64) :=
  if infinity ≤ magnitude d then none
  else
    let n := roundAway (value d)
    if -2 ^ 63 ≤ n ∧ n < 2 ^ 63 then some (BitVec.ofInt 64 n) else none

-- a third, -1.0 / 0.0, infinity times zero, -2.5 and 2^63
example : div 0x3ff0000000000000 0x4008000000000000 = 0x3fd5555555555555 := by decide +kernel
example : div 0xbff0000000000000 0 = 0xfff0000000000000 ∧ mul 0x7ff0000000000000 0 = nan := by
  decide
example : llround 0xc004000000000000 = some (-3) ∧ llround (ofInt (2 ^ 63)) = none := by
  decide +kernel

-- ---------------------------------------------------------------------------
-- Signs and magnitudes
-- ---------------------------------------------------------------------------

variable {a b c d : BitVec 64} {m n : Nat} {negative : Bool}

theorem isNaN_eq_false : isNaN d = false ↔ magnitude d ≤ infinity :=
  decide_eq_false_iff_not.trans not_lt

theorem rank_eq (d : BitVec 64) : rank d = if d.msb then -(magnitude d : ℤ) else magnitude d := rfl

theorem le_iff :
    le a b = true ↔ magnitude a ≤ infinity ∧ magnitude b ≤ infinity ∧ rank a ≤ rank b := by
  simp only [le, Bool.and_eq_true, Bool.not_eq_true', isNaN_eq_false, decide_eq_true_eq, and_assoc]

theorem toNat_signed (h : n ≤ infinity) :
    (signed negative n).toNat = (if negative then 2 ^ 63 else 0) + n := by
  rw [signed, BitVec.toNat_ofNat, Nat.mod_eq_of_lt]
  rw [infinity] at h
  split <;> omega

@[simp] theorem magnitude_signed (h : n ≤ infinity) : magnitude (signed negative n) = n := by
  rw [magnitude, toNat_signed h]
  rw [infinity] at h
  split <;> omega

@[simp] theorem msb_signed (h : n ≤ infinity) : (signed negative n).msb = negative := by
  rw [BitVec.msb_eq_decide, toNat_signed h]
  rw [infinity] at h
  cases negative
  · exact decide_eq_false (by simp; omega)
  · exact decide_eq_true (by simp)

theorem rank_signed (h : n ≤ infinity) :
    rank (signed negative n) = if negative then -(n : ℤ) else n := by
  rw [rank_eq, magnitude_signed h, msb_signed h]

theorem value_signed (h : n ≤ infinity) :
    value (signed negative n) = if negative then -ofMagnitude n else ofMagnitude n := by
  rw [value, magnitude_signed h, msb_signed h]

theorem le_refl (h : isNaN d = false) : le d d = true :=
  le_iff.mpr ⟨isNaN_eq_false.mp h, isNaN_eq_false.mp h, Int.le_refl _⟩

theorem le_trans (hab : le a b = true) (hbc : le b c = true) : le a c = true := by
  rw [le_iff] at hab hbc ⊢
  exact ⟨hab.1, hbc.2.1, hab.2.2.trans hbc.2.2⟩

theorem lt_of_not_le (ha : isNaN a = false) (hb : isNaN b = false) (h : ¬ le a b = true) :
    rank b < rank a :=
  not_le.mp fun hrank => h (le_iff.mpr ⟨isNaN_eq_false.mp ha, isNaN_eq_false.mp hb, hrank⟩)

theorem finite_iff : magnitude d < infinity ↔ -(infinity : ℤ) < rank d ∧ rank d < infinity := by
  rw [rank_eq]
  split <;> omega

theorem zero_le_signed (h : n ≤ infinity) : le 0 (signed false n) = true := by
  refine le_iff.mpr ⟨by decide, (magnitude_signed h).trans_le h, ?_⟩
  rw [rank_signed h]
  exact Int.natCast_nonneg n

theorem finite_of_between (had : le a d = true) (hdb : le d b = true) (ha : magnitude a < infinity)
    (hb : magnitude b < infinity) : magnitude d < infinity :=
  finite_iff.mpr ⟨(finite_iff.mp ha).1.trans_le (le_iff.mp had).2.2,
    (le_iff.mp hdb).2.2.trans_lt (finite_iff.mp hb).2⟩

theorem value_mono (h : le a b = true) : value a ≤ value b := by
  obtain ⟨-, -, hrank⟩ := le_iff.mp h
  rw [rank_eq, rank_eq] at hrank
  rw [value, value]
  split at hrank <;> split at hrank <;> simp only [*, if_true, if_false, Bool.false_eq_true]
  · exact neg_le_neg (ofMagnitude_mono (by omega))
  · exact (neg_nonpos.mpr (ofMagnitude_nonneg _)).trans (ofMagnitude_nonneg _)
  · have ha : magnitude a = 0 := by omega
    have hb : magnitude b = 0 := by omega
    simp [ha, hb]
  · exact ofMagnitude_mono (by omega)

-- ---------------------------------------------------------------------------
-- The order of results
-- ---------------------------------------------------------------------------

/-- A positive finite double, and the number that it stands for. -/
structure IsPositive (d : BitVec 64) (x : ℚ) : Prop where
  sign : d.msb = false
  finite : magnitude d < infinity
  value : ofMagnitude (magnitude d) = x
  pos : 0 < x

variable {x y : ℚ}

theorem IsPositive.magnitude_ne_zero (h : IsPositive d x) : magnitude d ≠ 0 := by
  intro hzero
  have hpos := h.pos
  rw [← h.value, hzero, ofMagnitude_zero] at hpos
  exact hpos.false

theorem IsPositive.isNaN (h : IsPositive d x) : isNaN d = false := isNaN_eq_false.mpr h.finite.le

theorem IsPositive.value_eq (h : IsPositive d x) : Ieee.value d = x := by
  rw [Ieee.value, h.sign, if_neg Bool.false_ne_true, h.value]

/-- What a positive factor does to a magnitude. -/
def scaled (y : ℚ) (n : Nat) : Nat :=
  if n = infinity then infinity else toMagnitude (ofMagnitude n * y)

theorem scaled_le_infinity (y : ℚ) (n : Nat) : scaled y n ≤ infinity := by
  rw [scaled]
  split
  · exact Nat.le_refl _
  · exact toMagnitude_le_infinity _

theorem scaled_mono (hy : 0 ≤ y) (hn : n ≤ infinity) (h : m ≤ n) : scaled y m ≤ scaled y n := by
  rcases hn.eq_or_lt with rfl | hlt
  · exact (scaled_le_infinity y m).trans_eq (if_pos rfl).symm
  · rw [scaled, scaled, if_neg (h.trans_lt hlt).ne, if_neg hlt.ne]
    exact toMagnitude_mono (mul_nonneg (ofMagnitude_nonneg _) hy)
      (mul_le_mul_of_nonneg_right (ofMagnitude_mono h) hy)

theorem scaled_zero (y : ℚ) : scaled y 0 = 0 := by
  rw [scaled, if_neg (by decide), ofMagnitude_zero, zero_mul, toMagnitude_zero]

theorem mul_eq (ha : isNaN a = false) (hc : IsPositive c y) :
    mul a c = signed a.msb (scaled y (magnitude a)) := by
  rw [mul, ha, hc.isNaN, hc.sign, Bool.xor_false, hc.value, scaled]
  simp only [Bool.or_self, Bool.false_eq_true, if_false, hc.finite.ne, hc.magnitude_ne_zero,
    or_false]
  split
  case isTrue hinf => rw [hinf, if_neg (by decide)]
  case isFalse => rfl

theorem isNaN_signed (h : n ≤ infinity) : isNaN (signed negative n) = false :=
  isNaN_eq_false.mpr ((magnitude_signed h).trans_le h)

theorem mul_le_mul (hc : IsPositive c y) (h : le a b = true) : le (mul a c) (mul b c) = true := by
  obtain ⟨ha, hb, hrank⟩ := le_iff.mp h
  have hsa := scaled_le_infinity y (magnitude a)
  have hsb := scaled_le_infinity y (magnitude b)
  rw [mul_eq (isNaN_eq_false.mpr ha) hc, mul_eq (isNaN_eq_false.mpr hb) hc, le_iff,
    magnitude_signed hsa, magnitude_signed hsb, rank_signed hsa, rank_signed hsb]
  refine ⟨hsa, hsb, ?_⟩
  rw [rank_eq, rank_eq] at hrank
  cases hsign : a.msb <;> cases hsign' : b.msb <;>
    simp only [hsign, hsign', if_true, if_false, Bool.false_eq_true] at hrank ⊢
  · exact_mod_cast scaled_mono hc.pos.le hb (by omega)
  · -- both are zero
    have ha : magnitude a = 0 := by omega
    have hb : magnitude b = 0 := by omega
    rw [ha, hb, scaled_zero]
    rfl
  · omega
  · have := scaled_mono hc.pos.le ha (show magnitude b ≤ magnitude a by omega)
    omega

theorem ofMagnitude_pos (h : 0 < n) : 0 < ofMagnitude n := by
  rw [ofMagnitude]
  split <;> positivity

/-- What a positive number divided by a positive magnitude is. -/
def divided (y : ℚ) (n : Nat) : Nat := if n = infinity then 0 else toMagnitude (y / ofMagnitude n)

theorem divided_le_infinity (y : ℚ) (n : Nat) : divided y n ≤ infinity := by
  rw [divided]
  split
  · exact Nat.zero_le _
  · exact toMagnitude_le_infinity _

theorem divided_anti (hy : 0 ≤ y) (hm : 0 < m) (hn : n ≤ infinity) (h : m ≤ n) :
    divided y n ≤ divided y m := by
  rcases hn.eq_or_lt with rfl | hlt
  · rw [divided, if_pos rfl]
    exact Nat.zero_le _
  · rw [divided, divided, if_neg (h.trans_lt hlt).ne, if_neg hlt.ne]
    exact toMagnitude_mono (div_nonneg hy (ofMagnitude_nonneg _))
      (div_le_div_of_nonneg_left hy (ofMagnitude_pos hm) (ofMagnitude_mono h))

theorem magnitude_of_rank_pos (h : 0 < rank d) : d.msb = false ∧ (magnitude d : ℤ) = rank d := by
  rw [rank_eq] at h ⊢
  cases hsign : d.msb with
  | false => exact ⟨rfl, rfl⟩
  | true =>
    rw [hsign, if_pos rfl] at h
    omega

theorem div_eq (hc : IsPositive c y) (hb : isNaN b = false) (hpos : 0 < rank b) :
    div c b = signed false (divided y (magnitude b)) := by
  obtain ⟨hsign, hrank⟩ := magnitude_of_rank_pos hpos
  have hzero : magnitude b ≠ 0 := by omega
  rw [div, hc.isNaN, hb, hc.sign, hsign, Bool.xor_false, hc.value, divided]
  simp only [Bool.or_self, Bool.false_eq_true, if_false, hc.finite.ne, hzero]
  split <;> rfl

theorem div_le_div (hc : IsPositive c y) (hpos : 0 < rank a) (h : le a b = true) :
    le (div c b) (div c a) = true := by
  obtain ⟨ha, hb, hrank⟩ := le_iff.mp h
  obtain ⟨-, hma⟩ := magnitude_of_rank_pos hpos
  obtain ⟨-, hmb⟩ := magnitude_of_rank_pos (hpos.trans_le hrank)
  have hda := divided_le_infinity y (magnitude a)
  have hdb := divided_le_infinity y (magnitude b)
  rw [div_eq hc (isNaN_eq_false.mpr ha) hpos,
    div_eq hc (isNaN_eq_false.mpr hb) (hpos.trans_le hrank), le_iff, magnitude_signed hda, magnitude_signed hdb, rank_signed hda, rank_signed hdb]
  have hanti : divided y (magnitude b) ≤ divided y (magnitude a) :=
    divided_anti hc.pos.le (by omega) hb (by omega)
  exact ⟨hdb, hda, Int.ofNat_le.mpr hanti⟩

theorem llround_of_bounds (hfinite : magnitude d < infinity) (hlow : -2 ^ 63 ≤ roundAway (value d))
    (hhigh : roundAway (value d) < 2 ^ 63) :
    llround d = some (BitVec.ofInt 64 (roundAway (value d))) ∧
      (BitVec.ofInt 64 (roundAway (value d))).toInt = roundAway (value d) := by
  rw [llround, if_neg (not_le.mpr hfinite)]
  exact ⟨if_pos ⟨hlow, hhigh⟩, BitVec.toInt_ofInt_eq_self (by decide) hlow hhigh⟩

theorem llround_eq_some {k : BitVec 64} : llround d = some k ↔
    magnitude d < infinity ∧ -2 ^ 63 ≤ roundAway (value d) ∧ roundAway (value d) < 2 ^ 63 ∧
      k.toInt = roundAway (value d) := by
  constructor
  · intro h
    rw [llround] at h
    split at h
    · cases h
    case isFalse hfinite =>
      obtain ⟨⟨hlow, hhigh⟩, hk⟩ := Option.ite_none_right_eq_some.mp h
      obtain rfl := Option.some.inj hk
      rw [BitVec.toInt_ofInt_eq_self (by decide) hlow hhigh]
      exact ⟨not_le.mp hfinite, hlow, hhigh, rfl⟩
  · rintro ⟨hfinite, hlow, hhigh, hk⟩
    obtain ⟨hd, hint⟩ := llround_of_bounds hfinite hlow hhigh
    rw [hd, BitVec.eq_of_toInt_eq (hint.trans hk.symm)]

/-- Between two doubles with a result there is one, and in between. -/
theorem llround_between {m n : BitVec 64} (had : le a d = true) (hdb : le d b = true)
    (ha : llround a = some m) (hb : llround b = some n) :
    ∃ k, llround d = some k ∧ m.toInt ≤ k.toInt ∧ k.toInt ≤ n.toInt := by
  obtain ⟨hfa, hlow, -, hm⟩ := llround_eq_some.mp ha
  obtain ⟨hfb, -, hhigh, hn⟩ := llround_eq_some.mp hb
  have hmd := roundAway_nearest.mono (value_mono had)
  have hdn := roundAway_nearest.mono (value_mono hdb)
  have hfinite := finite_of_between had hdb hfa hfb
  obtain ⟨hd, hint⟩ := llround_of_bounds hfinite (hlow.trans hmd) (hdn.trans_lt hhigh)
  exact ⟨_, hd, by rwa [hint, hm], by rwa [hint, hn]⟩

-- ---------------------------------------------------------------------------
-- Exact results
-- ---------------------------------------------------------------------------

@[simp] theorem magnitude_ofInt (n : ℤ) : magnitude (ofInt n) = toMagnitude n.natAbs :=
  magnitude_signed (toMagnitude_le_infinity _)

@[simp] theorem msb_ofInt (n : ℤ) : (ofInt n).msb = decide (n < 0) :=
  msb_signed (toMagnitude_le_infinity _)

@[simp] theorem isNaN_ofInt (n : ℤ) : isNaN (ofInt n) = false :=
  isNaN_signed (toMagnitude_le_infinity _)

/-- A natural number of 53 bits, and zeros after them, is a double. -/
theorem ofMagnitude_natCast {n t : Nat} (hn : n < 2 ^ 53) (ht : t ≤ 64) :
    toMagnitude (n * 2 ^ t : ℕ) < infinity ∧
      ofMagnitude (toMagnitude (n * 2 ^ t : ℕ)) = (n * 2 ^ t : ℕ) := by
  rcases Nat.eq_zero_or_pos n with rfl | hpos
  · rw [Nat.zero_mul, Nat.cast_zero, toMagnitude_zero, ofMagnitude_zero]
    exact ⟨by decide, rfl⟩
  have hcast : ((n * 2 ^ t : ℕ) : ℚ) = n * 2 ^ (t : ℤ) := by
    push_cast
    rw [zpow_natCast]
  have hlt : (n * 2 ^ (t : ℤ) : ℚ) < 2 ^ (1023 : ℤ) :=
    calc (n * 2 ^ (t : ℤ) : ℚ) < 2 ^ (53 : ℤ) * 2 ^ (t : ℤ) := by
          gcongr
          exact_mod_cast hn
      _ = 2 ^ (53 + t : ℤ) := (zpow_add₀ two_ne_zero _ _).symm
      _ ≤ 2 ^ (1023 : ℤ) := zpow_le_zpow_right₀ one_le_two (by omega)
  rw [hcast]
  exact ⟨(ofMagnitude_toMagnitude (by positivity) hlt).1,
    ofMagnitude_toMagnitude_of_bits hpos hn (by omega) hlt⟩

theorem ofInt_exact {n : ℤ} {t : Nat} (hn : n.natAbs < 2 ^ 53) (ht : t ≤ 64) :
    magnitude (ofInt (n * 2 ^ t)) < infinity ∧ value (ofInt (n * 2 ^ t)) = (n * 2 ^ t : ℤ) := by
  have habs : (n * 2 ^ t).natAbs = n.natAbs * 2 ^ t := by
    rw [Int.natAbs_mul, Int.natAbs_pow]
    rfl
  obtain ⟨hfinite, hexact⟩ := ofMagnitude_natCast hn ht
  rw [← habs] at hfinite hexact
  rw [value, magnitude_ofInt, hexact, msb_ofInt, Nat.cast_natAbs]
  rw [Nat.cast_natAbs] at hfinite
  refine ⟨hfinite, ?_⟩
  by_cases hneg : n * 2 ^ t < 0
  · rw [decide_eq_true hneg, if_pos rfl, abs_of_neg hneg, Int.cast_neg, neg_neg]
  · rw [decide_eq_false hneg, if_neg Bool.false_ne_true, abs_of_nonneg (not_lt.mp hneg)]

theorem ofInt_exact_small {n : ℤ} (hn : n.natAbs < 2 ^ 53) :
    magnitude (ofInt n) < infinity ∧ value (ofInt n) = n := by
  have hexact := ofInt_exact (t := 0) hn (Nat.zero_le _)
  rwa [pow_zero, mul_one] at hexact

/-- A positive integer of 53 bits. -/
theorem isPositive_ofInt {n : ℤ} (hpos : 0 < n) (hn : n.natAbs < 2 ^ 53) :
    IsPositive (ofInt n) n := by
  obtain ⟨hfinite, hvalue⟩ := ofInt_exact_small hn
  have hsign : (ofInt n).msb = false := by rw [msb_ofInt, decide_eq_false hpos.not_gt]
  rw [value, hsign, if_neg Bool.false_ne_true] at hvalue
  exact ⟨hsign, hfinite, hvalue, Int.cast_pos.mpr hpos⟩

/-- A product of two integers is rounded once. -/
theorem mul_ofInt {n m : ℤ} (hn : n.natAbs < 2 ^ 53) (hpos : 0 < m) (hm : m.natAbs < 2 ^ 53) :
    mul (ofInt n) (ofInt m) = ofInt (n * m) := by
  have hexact := ofMagnitude_natCast (t := 0) hn (Nat.zero_le _)
  rw [pow_zero, mul_one] at hexact
  have hsign : decide (n < 0) = decide (n * m < 0) := by
    rw [decide_eq_decide, mul_neg_iff]
    omega
  rw [mul_eq (isNaN_ofInt n) (isPositive_ofInt hpos hm), scaled, magnitude_ofInt,
    if_neg hexact.1.ne, hexact.2, msb_ofInt, hsign, ofInt, Int.natAbs_mul, Nat.cast_mul,
    Nat.cast_natAbs m, abs_of_pos hpos]

theorem llround_ofInt {n : ℤ} {t : Nat} (hn : n.natAbs < 2 ^ 53) (ht : t < 10) :
    llround (ofInt (n * 2 ^ t)) = some (BitVec.ofInt 64 (n * 2 ^ t)) := by
  obtain ⟨hfinite, hvalue⟩ := ofInt_exact (t := t) hn (by omega)
  have hround : roundAway (value (ofInt (n * 2 ^ t))) = n * 2 ^ t := by
    rw [hvalue, roundAway_nearest.intCast]
  have habs : (n * 2 ^ t).natAbs < 2 ^ 62 :=
    calc (n * 2 ^ t).natAbs = n.natAbs * 2 ^ t := by
          rw [Int.natAbs_mul, Int.natAbs_pow]
          rfl
      _ ≤ n.natAbs * 2 ^ 9 := Nat.mul_le_mul_left _ (Nat.pow_le_pow_right Nat.two_pos (by omega))
      _ < 2 ^ 53 * 2 ^ 9 := Nat.mul_lt_mul_of_pos_right hn (by decide)
      _ = 2 ^ 62 := by decide
  rw [(llround_of_bounds hfinite _ _).1, hround]
  · rw [hround]
    omega
  · rw [hround]
    omega

-- ---------------------------------------------------------------------------
-- The precision of results
-- ---------------------------------------------------------------------------

/-- A double that is `k` roundings away from a positive number at most. -/
def Estimates (k : Nat) (x : ℚ) (d : BitVec 64) : Prop := ∃ z, IsPositive d z ∧ Apart k x z

/-- Far from underflow and overflow. -/
def Ordinary (x : ℚ) : Prop := 1 / 2 ^ 100 ≤ x ∧ x ≤ 2 ^ 100

variable {k l : Nat}

theorem Estimates.pos (h : Estimates k x d) : 0 < x := by
  obtain ⟨z, hz, -, hzx⟩ := h
  have hslack : 0 < slack ^ k := pow_pos (zero_lt_one.trans_le one_le_slack) k
  exact pos_of_mul_pos_right (hz.pos.trans_le hzx) hslack.le

theorem Estimates.isNaN (h : Estimates k x d) : Ieee.isNaN d = false := by
  obtain ⟨z, hz, -⟩ := h
  exact hz.isNaN

theorem Estimates.le_value (h : Estimates k x d) : x ≤ slack ^ k * value d := by
  obtain ⟨z, hz, hxz, -⟩ := h
  rwa [hz.value_eq]

theorem IsPositive.estimates (h : IsPositive d x) : Estimates 0 x d := ⟨x, h, by simp [Apart]⟩

/-- Rounding what is `k` roundings away from an ordinary number. -/
theorem estimates_round (hx : Ordinary x) (hxy : Apart k x y) (hk : k ≤ 20) :
    Estimates (k + 1) x (signed false (toMagnitude y)) := by
  have hslack : slack ^ k ≤ 2 ^ 20 :=
    calc slack ^ k ≤ slack ^ 20 := pow_le_pow_right₀ one_le_slack hk
      _ ≤ 2 ^ 20 := pow_le_pow_left₀ (zero_le_one.trans one_le_slack) slack_le_two 20
  have hx0 : 0 < x := lt_of_lt_of_le (by positivity) hx.1
  have hy : 0 < y :=
    pos_of_mul_pos_right (hx0.trans_le hxy.1) (pow_nonneg (zero_le_one.trans one_le_slack) k)
  have hlow : 2 ^ (-1022 : ℤ) ≤ y := by
    have hxy' := hxy.1.trans (mul_le_mul_of_nonneg_right hslack hy.le)
    calc (2 : ℚ) ^ (-1022 : ℤ) ≤ 2 ^ (-120 : ℤ) := zpow_le_zpow_right₀ one_le_two (by decide)
      _ = 1 / 2 ^ 100 / 2 ^ 20 := by norm_num
      _ ≤ y := by linarith [hx.1]
  have hhigh : y < 2 ^ (1023 : ℤ) := by
    have hxy' := hxy.2.trans (mul_le_mul_of_nonneg_right hslack hx0.le)
    calc y ≤ 2 ^ 20 * 2 ^ 100 := by linarith [hx.2]
      _ = 2 ^ (120 : ℤ) := by norm_num
      _ < 2 ^ (1023 : ℤ) := zpow_lt_zpow_right₀ one_lt_two (by decide)
  have hround := apart_round hlow hhigh
  have hfinite := (ofMagnitude_toMagnitude hy hhigh).1
  have hpos : 0 < ofMagnitude (toMagnitude y) :=
    pos_of_mul_pos_right (hy.trans_le hround.1) (pow_nonneg (zero_le_one.trans one_le_slack) 1)
  refine ⟨_, ⟨msb_signed hfinite.le, ?_, rfl, ?_⟩, ?_⟩
  · rwa [magnitude_signed hfinite.le]
  · rwa [magnitude_signed hfinite.le]
  · rw [magnitude_signed hfinite.le]
    exact hxy.trans hround

theorem estimates_ofInt {n : ℤ} (hn : Ordinary n) : Estimates 1 n (ofInt n) := by
  have hpos : (0 : ℚ) < n := lt_of_lt_of_le (by positivity) hn.1
  have hnat : ((n.natAbs : ℕ) : ℚ) = n := by
    rw [Nat.cast_natAbs, abs_of_pos (Int.cast_pos.mp hpos)]
  rw [ofInt, decide_eq_false (Int.cast_pos.mp hpos).not_gt, hnat]
  exact estimates_round hn (by simp [Apart]) (Nat.zero_le _)

theorem Estimates.mul (ha : Estimates k x a) (hb : Estimates l y b) (hxy : Ordinary (x * y))
    (hkl : k + l ≤ 20) : Estimates (k + l + 1) (x * y) (mul a b) := by
  have hy := hb.pos
  obtain ⟨z, hz, hxz⟩ := ha
  obtain ⟨w, hw, hyw⟩ := hb
  rw [mul_eq hz.isNaN hw, hz.sign, scaled, if_neg hz.finite.ne, hz.value]
  exact estimates_round hxy (hxz.mul hyw hz.pos.le hy.le) hkl

theorem Estimates.div (ha : Estimates k x a) (hb : Estimates l y b) (hxy : Ordinary (x / y))
    (hkl : k + l ≤ 20) : Estimates (k + l + 1) (x / y) (div a b) := by
  have hy := hb.pos
  obtain ⟨z, hz, hxz⟩ := ha
  obtain ⟨w, hw, hyw⟩ := hb
  have hrank : 0 < rank b := by
    rw [rank_eq, hw.sign, if_neg Bool.false_ne_true]
    exact_mod_cast Nat.pos_of_ne_zero hw.magnitude_ne_zero
  rw [div_eq hz hw.isNaN hrank, divided, if_neg hw.finite.ne, hw.value]
  rw [div_eq_mul_inv] at hxy ⊢
  rw [div_eq_mul_inv]
  exact estimates_round hxy (hxz.mul (hyw.inv hy hw.pos) hz.pos.le (inv_nonneg.mpr hy.le)) hkl

/-- A product has the sign of the exact one, and the error of its magnitude. -/
theorem abs_value_mul (hc : IsPositive c y) (ha : magnitude a < infinity)
    (hx : x = ofMagnitude (magnitude a) * y) : |value a * y| = x ∧
      |value (mul a c)| = ofMagnitude (toMagnitude x) ∧
      |value (mul a c) - value a * y| = |ofMagnitude (toMagnitude x) - x| := by
  have hnonneg : 0 ≤ x := hx ▸ mul_nonneg (ofMagnitude_nonneg _) hc.pos.le
  have hle := toMagnitude_le_infinity x
  rw [mul_eq (isNaN_eq_false.mpr ha.le) hc, scaled, if_neg ha.ne, ← hx, value_signed hle, value]
  split
  · rw [neg_mul, ← hx, abs_neg, abs_neg, neg_sub_neg, abs_sub_comm, abs_of_nonneg hnonneg,
      abs_of_nonneg (ofMagnitude_nonneg _)]
    exact ⟨rfl, rfl, rfl⟩
  · rw [← hx, abs_of_nonneg hnonneg, abs_of_nonneg (ofMagnitude_nonneg _)]
    exact ⟨rfl, rfl, rfl⟩

/-- The nearest integer to a rounded product. -/
theorem abs_llround_mul_sub_le (hc : IsPositive c y) {m : BitVec 64}
    (hm : llround (mul a c) = some m) (ha : magnitude a < infinity)
    (hlt : |value a * y| < 2 ^ (1023 : ℤ)) :
    |(m.toInt : ℚ) - value a * y| ≤ 1 / 2 + |value a * y| / 2 ^ 53 := by
  obtain ⟨-, -, -, hint⟩ := llround_eq_some.mp hm
  obtain ⟨habs, hproduct, herror⟩ := abs_value_mul hc ha rfl
  rw [hint]
  rcases le_total (2 ^ (-1022 : ℤ)) |value a * y| with hlow | hsmall
  · rw [← habs] at herror
    calc |(roundAway (value (mul a c)) : ℚ) - value a * y|
        ≤ |(roundAway (value (mul a c)) : ℚ) - value (mul a c)| +
            |value (mul a c) - value a * y| := abs_sub_le _ _ _
      _ ≤ 1 / 2 + |value a * y| / 2 ^ 53 :=
          add_le_add (roundAway_nearest _) (herror.trans_le (abs_round_sub_le hlow hlt))
  · -- the product is too small to matter
    have htiny : (2 : ℚ) ^ (-1022 : ℤ) < 1 / 2 := by
      rw [one_div, ← zpow_neg_one]
      exact zpow_lt_zpow_right₀ one_lt_two (by decide)
    rw [← habs] at hproduct
    have hzero : |value (mul a c)| < 1 / 2 :=
      hproduct.trans_lt ((round_le_of_small (abs_nonneg _) hsmall).trans_lt htiny)
    rw [roundAway_nearest.eq_zero hzero, Int.cast_zero, zero_sub, abs_neg]
    have hhalf := hsmall.trans htiny.le
    have hnonneg := abs_nonneg (value a * y)
    linarith

/-- An integer comes back from its estimate, but for the error. -/
theorem Estimates.abs_llround_sub_le (h : Estimates k x d) {m : BitVec 64}
    (hm : llround d = some m) : |(m.toInt : ℚ) - x| ≤ 1 / 2 + (slack ^ k - 1) * x := by
  have hx := h.pos
  obtain ⟨z, hz, hxz⟩ := h
  obtain ⟨-, -, -, hint⟩ := llround_eq_some.mp hm
  rw [hint, hz.value_eq]
  calc |(roundAway z : ℚ) - x| ≤ |(roundAway z : ℚ) - z| + |z - x| := abs_sub_le _ _ _
    _ ≤ 1 / 2 + (slack ^ k - 1) * x := add_le_add (roundAway_nearest z) (hxz.abs_sub_le hx.le)

end Ieee
