-- SUMMARY: Decimal numerals as bytes: what a string of digits denotes as a number and as a fraction, and the digits of a number.
import Mathlib.Algebra.Order.Field.Basic
import Mathlib.Data.Nat.Digits.Lemmas
import Mathlib.Data.Rat.Cast.Order
import Mathlib.Tactic.Common
import Mathlib.Tactic.FieldSimp
import Mathlib.Tactic.Positivity
import Mathlib.Tactic.Ring

/-!
# Decimal numerals

A numeral is a string of digits, the most significant first. After a decimal
point the same digits denote a fraction, which depends on how many they are.
-/

namespace Numeral

def isDigit (b : UInt8) : Bool := '0'.toUInt8 ≤ b ∧ b ≤ '9'.toUInt8

/-- The digit for a number below ten. -/
def digit (d : Nat) : UInt8 := UInt8.ofNat (48 + d)

/-- The number that digits denote. -/
def value (ds : List UInt8) : Nat := ds.foldl (fun n d => 10 * n + (d.toNat - 48)) 0

/-- The shortest digits that denote a number. -/
def numeral (n : Nat) : List UInt8 :=
  if n = 0 then [digit 0] else (Nat.digits 10 n).reverse.map digit

variable {n d : Nat}

theorem toNat_digit (hd : d < 10) : (digit d).toNat = 48 + d := by
  rw [digit, UInt8.toNat_ofNat']
  omega

theorem isDigit_digit (hd : d < 10) : isDigit (digit d) = true := by
  have hnat := toNat_digit hd
  simp only [isDigit, UInt8.le_iff_toNat_le, hnat, decide_eq_true_eq]
  exact ⟨Nat.le_add_right 48 d, Nat.add_le_add_left (Nat.le_of_lt_succ hd) 48⟩

theorem isDigit_of_mem_numeral {b : UInt8} (hb : b ∈ numeral n) : isDigit b = true := by
  unfold numeral at hb
  split at hb
  · rw [List.mem_singleton.mp hb]
    exact isDigit_digit (by decide)
  · obtain ⟨d, hd, rfl⟩ := List.mem_map.mp hb
    exact isDigit_digit (Nat.digits_lt_base (by decide) (List.mem_reverse.mp hd))

theorem length_numeral_pos (n : Nat) : 0 < (numeral n).length := by
  unfold numeral
  split
  · exact Nat.zero_lt_one
  · rename_i hn
    rw [List.length_map, List.length_reverse]
    exact List.length_pos_iff.mpr (Nat.digits_ne_nil_iff_ne_zero.mpr hn)

theorem value_append (ds : List UInt8) (b : UInt8) :
    value (ds ++ [b]) = 10 * value ds + (b.toNat - 48) := by
  simp only [value, List.foldl_append, List.foldl_cons, List.foldl_nil]

theorem value_map_digit {ds : List Nat} (hds : ∀ d ∈ ds, d < 10) :
    value (ds.reverse.map digit) = Nat.ofDigits 10 ds := by
  induction ds with
  | nil => rfl
  | cons d ds ih =>
    have hd := toNat_digit (hds d List.mem_cons_self)
    rw [List.reverse_cons, List.map_append, List.map_singleton, value_append, hd,
      ih fun d' hd' => hds d' (List.mem_cons_of_mem d hd'), Nat.ofDigits_cons]
    omega

@[simp] theorem value_numeral (n : Nat) : value (numeral n) = n := by
  unfold numeral
  split
  · rename_i hn
    rw [hn]
    rfl
  · rw [value_map_digit fun d hd => Nat.digits_lt_base (by decide) hd, Nat.ofDigits_digits]

/-- A number has no more digits than it needs. -/
theorem length_numeral_le_iff {k : Nat} (hk : 0 < k) : (numeral n).length ≤ k ↔ n < 10 ^ k := by
  unfold numeral
  split
  · rename_i hn
    rw [hn]
    exact iff_of_true hk (Nat.pow_pos (by decide))
  · rw [List.length_map, List.length_reverse, Nat.digits_length_le_iff (by decide)]

/-! ## Fractions -/

/-- The fraction that digits denote after a decimal point. -/
def fraction (ds : List UInt8) : ℚ := value ds / 10 ^ ds.length

/-- A numeral denotes `n` units of `10 ^ -k` iff it is zero or has `k` digits. -/
theorem fraction_numeral_eq_iff {k : Nat} :
    fraction (numeral n) = n / 10 ^ k ↔ n = 0 ∨ (numeral n).length = k := by
  rw [fraction, value_numeral, div_eq_div_iff (by positivity) (by positivity)]
  constructor
  · intro h
    refine or_iff_not_imp_left.mpr fun hn => ?_
    have hpow : (10 : ℚ) ^ k = 10 ^ (numeral n).length :=
      mul_left_cancel₀ (Nat.cast_ne_zero.mpr hn) h
    exact (pow_right_injective₀ (by norm_num) (by norm_num) hpow).symm
  · rintro (rfl | rfl)
    · simp only [Nat.cast_zero, zero_mul]
    · rfl

theorem length_numeral_mono {m n : Nat} (h : m ≤ n) : (numeral m).length ≤ (numeral n).length :=
  (length_numeral_le_iff (length_numeral_pos n)).mpr
    (h.trans_lt ((length_numeral_le_iff (length_numeral_pos n)).mp le_rfl))

/-- As fractions numerals are compared digit by digit: the shorter one is filled
up with zeros on the right. -/
theorem fraction_numeral_lt_iff {m n : Nat} (h : m ≤ n) :
    fraction (numeral m) < fraction (numeral n) ↔
      m * 10 ^ ((numeral n).length - (numeral m).length) < n := by
  have hsplit : (10 : ℚ) ^ (numeral n).length =
      10 ^ ((numeral n).length - (numeral m).length) * 10 ^ (numeral m).length := by
    rw [← pow_add, Nat.sub_add_cancel (length_numeral_mono h)]
  rw [fraction, fraction, value_numeral, value_numeral, div_lt_div_iff₀ (by positivity) (by positivity),
    hsplit, ← mul_assoc, mul_lt_mul_iff_left₀ (by positivity)]
  exact_mod_cast Iff.rfl

end Numeral
