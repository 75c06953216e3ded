-- SUMMARY: Floats as doubles: the conversion that is exact, and what the conversion back makes of it.
import MBotTeleop.Lib.Ieee
import Mathlib.Tactic.Ring

/-!
# Floats as doubles

Every float is a double, so a float that is widened and then narrowed is the
float it was. Only a signalling NaN is not, since both conversions make it quiet.
-/

namespace Ieee

/-- Unary minus of a float. -/
def negFloat (f : BitVec 32) : BitVec 32 := f ^^^ 0x80000000

/-- A NaN with the upper bit of the fraction clear. -/
def isSignalling (f : BitVec 32) : Bool :=
  0x7f800000 < f.toNat % 2 ^ 31 ∧ f.toNat % 2 ^ 31 < 0x7fc00000

/-- The bits below the sign of the double that a float with biased exponent `e`
and fraction `m` is. -/
def widenMagnitude (e m : Nat) : Nat :=
  if e = 255 then
    if m = 0 then 0x7ff0000000000000 else 0x7ff8000000000000 ||| m * 2 ^ 29
  else if e = 0 then
    -- a subnormal float is a normal double, with its leading bit implicit
    if m = 0 then 0 else (874 + m.log2) * 2 ^ 52 + (m - 2 ^ m.log2) * 2 ^ (52 - m.log2)
  else
    (e + 896) * 2 ^ 52 + m * 2 ^ 29

/-- `static_cast<double>` of a float. -/
def widen (f : BitVec 32) : BitVec 64 :=
  BitVec.ofNat 64 (f.toNat / 2 ^ 31 * 2 ^ 63 +
    widenMagnitude (f.toNat / 2 ^ 23 % 2 ^ 8) (f.toNat % 2 ^ 23))

-- 0.25, -0.1f, infinity and the least subnormal
example : widen 0x3e800000 = 0x3fd0000000000000 ∧ widen 0xbdcccccd = 0xbfb99999a0000000 := by decide
example : widen 0x7f800000 = 0x7ff0000000000000 ∧ widen 1 = 0x36a0000000000000 := by decide

-- ---------------------------------------------------------------------------
-- Exact multiples
-- ---------------------------------------------------------------------------

theorem roundShift_mul (m k : Nat) : roundShift (m * 2 ^ k) k = m := by
  have hpos : 0 < 2 ^ k := Nat.two_pow_pos k
  simp only [roundShift, Nat.mul_div_cancel m hpos, Nat.mul_mod_left]
  rw [if_neg (by omega)]

/-- An upper bit that is set already changes nothing. -/
theorem or_of_bit {q k r : Nat} (hq : q ||| 1 = q) (hr : r < 2 ^ k) :
    q * 2 ^ k ||| (2 ^ k + r) = q * 2 ^ k + r := by
  have hpos : 0 < 2 ^ k := Nat.two_pow_pos k
  have hone : (2 ^ k + r) / 2 ^ k = 1 ∧ (2 ^ k + r) % 2 ^ k = r := by
    rw [Nat.add_div_left r hpos, Nat.add_mod_left, Nat.div_eq_of_lt hr, Nat.mod_eq_of_lt hr]
    exact ⟨rfl, rfl⟩
  have hdiv : (q * 2 ^ k ||| (2 ^ k + r)) / 2 ^ k = q := by
    rw [Nat.or_div_two_pow, Nat.mul_div_cancel q hpos, hone.1, hq]
  have hmod : (q * 2 ^ k ||| (2 ^ k + r)) % 2 ^ k = r := by
    rw [Nat.or_mod_two_pow, Nat.mul_mod_left, hone.2, Nat.zero_or]
  have hsplit := Nat.div_add_mod (q * 2 ^ k ||| (2 ^ k + r)) (2 ^ k)
  rw [hdiv, hmod, Nat.mul_comm] at hsplit
  exact hsplit.symm

-- ---------------------------------------------------------------------------
-- Magnitudes
-- ---------------------------------------------------------------------------

variable {e m : Nat}

/-- A quiet NaN has the upper bit of the fraction set. -/
theorem quiet_or (hm : m < 2 ^ 23) (hquiet : 2 ^ 22 ≤ m) :
    0x7ff8000000000000 ||| m * 2 ^ 29 = 2047 * 2 ^ 52 + m * 2 ^ 29 ∧
      0x7fc00000 ||| m = 0x7f800000 + m := by
  obtain ⟨r, rfl⟩ := Nat.exists_eq_add_of_le hquiet
  have hr : r < 2 ^ 22 := by omega
  have hwide : 4095 * 2 ^ 51 ||| (2 ^ 51 + r * 2 ^ 29) = 4095 * 2 ^ 51 + r * 2 ^ 29 :=
    or_of_bit (by decide) (by omega)
  have hnarrow : 511 * 2 ^ 22 ||| (2 ^ 22 + r) = 511 * 2 ^ 22 + r := or_of_bit (by decide) hr
  have hsplit : (2 ^ 22 + r) * 2 ^ 29 = 2 ^ 51 + r * 2 ^ 29 := by omega
  have hwideBits : 0x7ff8000000000000 = 4095 * 2 ^ 51 := by decide
  have hnarrowBits : 0x7fc00000 = 511 * 2 ^ 22 := by decide
  rw [hsplit, hwideBits, hwide, hnarrowBits, hnarrow]
  exact ⟨by ring, by ring⟩

theorem narrowMagnitude_fields {e' m' : Nat} (hm : m' < 2 ^ 52) :
    narrowMagnitude ((e' * 2 ^ 52 + m') / 2 ^ 52) ((e' * 2 ^ 52 + m') % 2 ^ 52) =
      narrowMagnitude e' m' := by
  have hdiv : (e' * 2 ^ 52 + m') / 2 ^ 52 = e' := by omega
  have hmod : (e' * 2 ^ 52 + m') % 2 ^ 52 = m' := by omega
  rw [hdiv, hmod]

/-- What is widened is narrowed to what it was. -/
theorem narrowMagnitude_widenMagnitude (he : e < 2 ^ 8) (hm : m < 2 ^ 23)
    (hquiet : ¬ (e = 255 ∧ 0 < m ∧ m < 2 ^ 22)) :
    narrowMagnitude (widenMagnitude e m / 2 ^ 52) (widenMagnitude e m % 2 ^ 52) =
      e * 2 ^ 23 + m := by
  unfold widenMagnitude
  split
  · rename_i h255
    subst h255
    split
    · rename_i hzero
      subst hzero
      decide
    · rename_i hne
      obtain ⟨hwide, hnarrow⟩ := quiet_or hm (by omega)
      rw [hwide, narrowMagnitude_fields (by omega), narrowMagnitude, if_pos rfl,
        if_neg (by omega), Nat.mul_div_cancel _ (by decide), hnarrow]
      omega
  · rename_i h255
    split
    · rename_i hzero
      subst hzero
      split
      · rename_i hzero
        subst hzero
        decide
      · rename_i hne
        -- the leading bit is implicit now, and comes back with the exponent
        have hlog : m.log2 < 23 := (Nat.log2_lt hne).mpr hm
        have hle : 2 ^ m.log2 ≤ m := Nat.log2_self_le hne
        have hlt : m < 2 ^ (m.log2 + 1) := Nat.lt_log2_self
        have hpow : 2 ^ m.log2 * 2 ^ (52 - m.log2) = 2 ^ 52 := by
          rw [← Nat.pow_add, Nat.add_sub_cancel' (by omega)]
        have hfraction : (m - 2 ^ m.log2) * 2 ^ (52 - m.log2) < 2 ^ 52 := by
          rw [← hpow]
          exact Nat.mul_lt_mul_of_pos_right (by omega) (Nat.two_pow_pos _)
        rw [narrowMagnitude_fields hfraction, narrowMagnitude, if_neg (by omega), if_neg (by omega),
          if_neg (by omega)]
        have hshift : 926 - (874 + m.log2) = 52 - m.log2 := by omega
        have hwhole : 2 ^ 52 + (m - 2 ^ m.log2) * 2 ^ (52 - m.log2) = m * 2 ^ (52 - m.log2) := by
          rw [← hpow, ← Nat.add_mul, Nat.add_sub_cancel' hle]
        rw [hshift, hwhole, roundShift_mul]
        omega
    · rename_i hzero
      have hwhole : 2 ^ 52 + m * 2 ^ 29 = (2 ^ 23 + m) * 2 ^ 29 := by omega
      rw [narrowMagnitude_fields (by omega), narrowMagnitude, if_neg (by omega), if_pos (by omega),
        hwhole, roundShift_mul]
      omega

theorem widenMagnitude_lt (he : e < 2 ^ 8) (hm : m < 2 ^ 23) : widenMagnitude e m < 2 ^ 63 := by
  unfold widenMagnitude
  split
  · split
    · decide
    · exact Nat.or_lt_two_pow (by decide) (by omega)
  · split
    · split
      · decide
      · rename_i hne
        have hlog : m.log2 < 23 := (Nat.log2_lt hne).mpr hm
        have hlt : m < 2 ^ (m.log2 + 1) := Nat.lt_log2_self
        have hpow : 2 ^ m.log2 * 2 ^ (52 - m.log2) = 2 ^ 52 := by
          rw [← Nat.pow_add, Nat.add_sub_cancel' (by omega)]
        have hfraction : (m - 2 ^ m.log2) * 2 ^ (52 - m.log2) ≤ 2 ^ 52 := by
          rw [← hpow]
          exact Nat.mul_le_mul_right _ (by omega)
        omega
    · omega

-- ---------------------------------------------------------------------------
-- Signs
-- ---------------------------------------------------------------------------

theorem narrow_ofNat {s magnitude : Nat} (hs : s < 2) (hmagnitude : magnitude < 2 ^ 63) :
    narrow (BitVec.ofNat 64 (s * 2 ^ 63 + magnitude)) =
      BitVec.ofNat 32 (s * 2 ^ 31 + narrowMagnitude (magnitude / 2 ^ 52) (magnitude % 2 ^ 52)) := by
  have hnat : (BitVec.ofNat 64 (s * 2 ^ 63 + magnitude)).toNat = s * 2 ^ 63 + magnitude := by
    rw [BitVec.toNat_ofNat, Nat.mod_eq_of_lt (by omega)]
  have hsign : (s * 2 ^ 63 + magnitude) / 2 ^ 63 = s := by omega
  have hexponent : (s * 2 ^ 63 + magnitude) / 2 ^ 52 % 2 ^ 11 = magnitude / 2 ^ 52 := by omega
  have hfraction : (s * 2 ^ 63 + magnitude) % 2 ^ 52 = magnitude % 2 ^ 52 := by omega
  rw [narrow, hnat, hsign, hexponent, hfraction]

/-- A float that goes through a double stays what it is. -/
theorem narrow_widen {f : BitVec 32} (h : isSignalling f = false) : narrow (widen f) = f := by
  have hlt := f.isLt
  have hsignalling : ¬ (f.toNat / 2 ^ 23 % 2 ^ 8 = 255 ∧ 0 < f.toNat % 2 ^ 23 ∧
      f.toNat % 2 ^ 23 < 2 ^ 22) := by
    have h := of_decide_eq_false h
    omega
  have he : f.toNat / 2 ^ 23 % 2 ^ 8 < 2 ^ 8 := Nat.mod_lt _ (by decide)
  have hm : f.toNat % 2 ^ 23 < 2 ^ 23 := Nat.mod_lt _ (by decide)
  have hfields : f.toNat / 2 ^ 31 * 2 ^ 31 +
      (f.toNat / 2 ^ 23 % 2 ^ 8 * 2 ^ 23 + f.toNat % 2 ^ 23) = f.toNat := by omega
  rw [widen, narrow_ofNat (by omega) (widenMagnitude_lt he hm),
    narrowMagnitude_widenMagnitude he hm hsignalling, hfields, BitVec.ofNat_toNat, BitVec.setWidth_eq]

theorem xor_two_pow {n k : Nat} (hn : n < 2 ^ (k + 1)) :
    (n ^^^ 2 ^ k) = (1 - n / 2 ^ k) * 2 ^ k + n % 2 ^ k := by
  have hpos : 0 < 2 ^ k := Nat.two_pow_pos k
  have hbit : n / 2 ^ k < 2 := by
    apply Nat.div_lt_of_lt_mul
    rwa [Nat.mul_comm, ← Nat.pow_succ']
  have hsplit := Nat.div_add_mod (n ^^^ 2 ^ k) (2 ^ k)
  rw [Nat.xor_div_two_pow, Nat.xor_mod_two_pow, Nat.div_self hpos, Nat.mod_self, Nat.xor_zero,
    Nat.mul_comm] at hsplit
  rw [← hsplit]
  generalize n / 2 ^ k = s at hbit
  obtain rfl | rfl : s = 0 ∨ s = 1 := by omega
  · rfl
  · rfl

theorem narrow_eq (d : BitVec 64) : narrow d = BitVec.ofNat 32 (d.toNat / 2 ^ 63 * 2 ^ 31 +
    narrowMagnitude (d.toNat % 2 ^ 63 / 2 ^ 52) (d.toNat % 2 ^ 63 % 2 ^ 52)) := by
  have hd : BitVec.ofNat 64 (d.toNat / 2 ^ 63 * 2 ^ 63 + d.toNat % 2 ^ 63) = d := by
    rw [Nat.mul_comm, Nat.div_add_mod, BitVec.ofNat_toNat, BitVec.setWidth_eq]
  have hlt := d.isLt
  conv_lhs => rw [← hd]
  exact narrow_ofNat (by omega) (by omega)

theorem roundShift_le (m k : Nat) : roundShift m k ≤ m / 2 ^ k + 1 := by
  simp only [roundShift]
  split <;> omega

theorem narrowMagnitude_lt (he : e < 2 ^ 11) (hm : m < 2 ^ 52) : narrowMagnitude e m < 2 ^ 31 := by
  unfold narrowMagnitude
  split
  · split
    · decide
    · exact Nat.or_lt_two_pow (by decide) (by omega)
  · split
    · omega
    · split
      · decide
      · have hle := roundShift_le (2 ^ 52 + m) (926 - e)
        have hdiv : (2 ^ 52 + m) / 2 ^ (926 - e) ≤ (2 ^ 52 + m) / 2 ^ 30 :=
          Nat.div_le_div_left (Nat.pow_le_pow_right (by decide) (by omega)) (by decide)
        omega

/-- The two signs are turned the same way. -/
theorem narrow_neg (d : BitVec 64) : narrow (neg d) = negFloat (narrow d) := by
  have hd := d.isLt
  have hneg : (neg d).toNat = (1 - d.toNat / 2 ^ 63) * 2 ^ 63 + d.toNat % 2 ^ 63 := by
    rw [neg, BitVec.toNat_xor]
    exact xor_two_pow hd
  have hmagnitude : narrowMagnitude (d.toNat % 2 ^ 63 / 2 ^ 52) (d.toNat % 2 ^ 63 % 2 ^ 52) < 2 ^ 31 :=
    narrowMagnitude_lt (by omega) (by omega)
  have hsign : (neg d).toNat / 2 ^ 63 = 1 - d.toNat / 2 ^ 63 := by omega
  have hrest : (neg d).toNat % 2 ^ 63 = d.toNat % 2 ^ 63 := by omega
  rw [narrow_eq, narrow_eq, hsign, hrest]
  generalize narrowMagnitude (d.toNat % 2 ^ 63 / 2 ^ 52) (d.toNat % 2 ^ 63 % 2 ^ 52) = n at hmagnitude
  apply BitVec.eq_of_toNat_eq
  rw [negFloat, BitVec.toNat_xor, BitVec.toNat_ofNat, BitVec.toNat_ofNat]
  have hlt : (d.toNat / 2 ^ 63 * 2 ^ 31 + n) % 2 ^ 32 < 2 ^ (31 + 1) := Nat.mod_lt _ (by decide)
  have htop : (0x80000000 : BitVec 32).toNat = 2 ^ 31 := rfl
  rw [htop, xor_two_pow hlt]
  omega

end Ieee
