-- SUMMARY: Rounding an integer to a multiple of a unit: down, up, to the nearest and toward zero.
import Mathlib.Algebra.Group.Int.Even
import Mathlib.Algebra.Order.Group.Unbundled.Int
import Mathlib.Order.Interval.Set.Basic
import Mathlib.Order.Bounds.Basic
import Mathlib.Tactic.Common

/-!
# Rounding to a unit

A rounding of `n` to the unit `u` is an integer `q`, read as `q` units. The
three modes are stated by what they are for (the greatest, the least, the
closest) and not by a formula.
-/

namespace Rounding

variable {u n q : Int}

/-- The greatest number of units that is not above `n`. -/
def IsFloor (u n q : Int) : Prop := IsGreatest {q : Int | q * u ≤ n} q

/-- The least number of units that is not below `n`. -/
def IsCeil (u n q : Int) : Prop := IsLeast {q : Int | n ≤ q * u} q

/-- At most half a unit away from `n`, and even when two are equally close. -/
structure IsNearest (u n q : Int) : Prop where
  close : 2 * |n - q * u| ≤ u
  tie : 2 * |n - q * u| = u → Even q

/-! ## Floor and ceiling -/

theorem isFloor_iff (hu : 0 < u) : IsFloor u n q ↔ q = n / u := by
  have hset : {q : Int | q * u ≤ n} = Set.Iic (n / u) :=
    Set.ext fun _ => (Int.le_ediv_iff_mul_le hu).symm
  unfold IsFloor
  rw [hset]
  exact ⟨fun h => h.unique isGreatest_Iic, fun h => h ▸ isGreatest_Iic⟩

theorem isCeil_iff (hu : 0 < u) : IsCeil u n q ↔ q = -(-n / u) := by
  have hset : {q : Int | n ≤ q * u} = Set.Ici (-(-n / u)) := by
    ext q
    have hle : -q ≤ -n / u ↔ -q * u ≤ -n := Int.le_ediv_iff_mul_le hu
    rw [Int.neg_mul] at hle
    simp only [Set.mem_ofPred_eq, Set.mem_Ici]
    omega
  unfold IsCeil
  rw [hset]
  exact ⟨fun h => h.unique isLeast_Ici, fun h => h ▸ isLeast_Ici⟩

/-- The bounds that single out the floor. -/
theorem isFloor_of_bounds (hu : 0 < u) (hle : q * u ≤ n) (hlt : n < (q + 1) * u) :
    IsFloor u n q := by
  rw [isFloor_iff hu]
  have hq := (Int.le_ediv_iff_mul_le hu).mpr hle
  have hq' := (Int.ediv_lt_iff_lt_mul hu).mpr hlt
  omega

theorem isCeil_of_bounds (hu : 0 < u) (hlt : (q - 1) * u < n) (hle : n ≤ q * u) :
    IsCeil u n q := by
  have hfloor : IsFloor u (-n) (-q) := by
    apply isFloor_of_bounds hu
    · rw [Int.neg_mul]
      omega
    · rw [show -q + 1 = -(q - 1) by omega, Int.neg_mul]
      omega
  rw [isCeil_iff hu, ← (isFloor_iff hu).mp hfloor, Int.neg_neg]

theorem IsFloor.le (h : IsFloor u n q) : q * u ≤ n := h.1

theorem IsFloor.lt (h : IsFloor u n q) : n < (q + 1) * u :=
  Int.lt_of_not_ge fun hge => absurd (h.2 hge) (by omega)

/-- The ceiling is the floor, or one more where the unit does not divide. -/
theorem IsFloor.isCeil_add (hu : 0 < u) (h : IsFloor u n q) :
    IsCeil u n (q + if u ∣ n then 0 else 1) := by
  rw [isFloor_iff hu] at h
  rw [isCeil_iff hu, Int.neg_ediv, Int.sign_eq_one_of_pos hu, h]
  split <;> omega

theorem IsCeil.sub_floor (hu : 0 < u) {c : Int} (hc : IsCeil u n c) (hf : IsFloor u n q) :
    c - q = if u ∣ n then 0 else 1 := by
  have heq := hc.unique (hf.isCeil_add hu)
  omega

theorem IsCeil.lt (h : IsCeil u n q) : (q - 1) * u < n :=
  Int.lt_of_not_ge fun hge => absurd (h.2 hge) (by omega)

theorem IsCeil.mono {n' q' : Int} (h : IsCeil u n q) (h' : IsCeil u n' q') (hn : n ≤ n') : q ≤ q' :=
  h.2 (Int.le_trans hn h'.1)

/-- No rounding leaves the range between the number and zero. -/
theorem IsFloor.min_le (hu : 0 < u) (h : IsFloor u n q) : min n 0 ≤ q := by
  apply h.2
  have hneg : 0 ≤ -min n 0 := by omega
  have := Int.mul_le_mul_of_nonneg_left (show 1 ≤ u by omega) hneg
  rw [Int.mul_one, Int.neg_mul] at this
  change min n 0 * u ≤ n
  omega

theorem IsCeil.le_max (hu : 0 < u) (h : IsCeil u n q) : q ≤ max n 0 := by
  apply h.2
  have hnonneg : 0 ≤ max n 0 := by omega
  have := Int.mul_le_mul_of_nonneg_left (show 1 ≤ u by omega) hnonneg
  rw [Int.mul_one] at this
  change n ≤ max n 0 * u
  omega

/-! ## The nearest -/

/-- The nearest is the floor or the ceiling, where that is another. -/
theorem IsNearest.between (hu : 0 < u) {r f c : Int} (hr : IsNearest u n r) (hf : IsFloor u n f)
    (hc : IsCeil u n c) : f ≤ r ∧ r ≤ c := by
  have hclose := hr.close
  have habove : n - r * u ≤ |n - r * u| := le_abs_self _
  have hbelow : -(n - r * u) ≤ |n - r * u| := neg_le_abs _
  constructor
  · -- one unit more than `r` is above `n`
    have hlt : f * u < (r + 1) * u := by
      have := hf.le
      rw [Int.add_mul]
      omega
    have := Int.lt_of_mul_lt_mul_right hlt hu.le
    omega
  · have hlt : (r - 1) * u < c * u := by
      have : n ≤ c * u := hc.1
      rw [Int.sub_mul]
      omega
    have := Int.lt_of_mul_lt_mul_right hlt hu.le
    omega

/-- Choosing between the floor and one more, by the two distances. -/
theorem IsFloor.isNearest (hf : IsFloor u n q) :
    IsNearest u n
      (if n - q * u = (q + 1) * u - n then (if q % 2 = 1 then q + 1 else q)
        else if n - q * u < (q + 1) * u - n then q else q + 1) := by
  have hle := hf.le
  have hlt := hf.lt
  have hstep : (q + 1) * u = q * u + u := by rw [Int.add_mul, Int.one_mul]
  have hbelow : |n - q * u| = n - q * u := abs_of_nonneg (by omega)
  have habove : |n - (q + 1) * u| = (q + 1) * u - n := by
    rw [abs_of_nonpos (by omega)]
    omega
  split
  · split
    · exact ⟨by omega, fun _ => Int.even_iff.mpr (by omega)⟩
    · exact ⟨by omega, fun _ => Int.even_iff.mpr (by omega)⟩
  · split
    · exact ⟨by omega, fun h => by omega⟩
    · exact ⟨by omega, fun h => by omega⟩

/-! ## Toward zero -/

/-- A number is truncated to its floor exactly where it is not negative or the
unit divides it. -/
theorem isFloor_tdiv (hu : 0 < u) : IsFloor u n (n.tdiv u) ↔ 0 ≤ n ∨ u ∣ n := by
  rw [isFloor_iff hu, Int.tdiv_eq_ediv, Int.sign_eq_one_of_pos hu]
  split <;> rename_i h
  · exact ⟨fun _ => h, fun _ => Int.add_zero _⟩
  · exact ⟨fun heq => by omega, fun hpos => (h hpos).elim⟩

/-- Truncation stays between the number and zero. -/
theorem tdiv_bounds (hu : 0 < u) : min n 0 ≤ n.tdiv u ∧ n.tdiv u ≤ max n 0 := by
  by_cases hn : 0 ≤ n
  · have hnonneg := Int.tdiv_nonneg hn hu.le
    have hle := Int.tdiv_le_self u hn
    omega
  · have hneg := Int.neg_tdiv n u
    have hle := Int.tdiv_le_self u (show 0 ≤ -n by omega)
    have hnonneg := Int.tdiv_nonneg (show 0 ≤ -n by omega) hu.le
    omega

/-- The truncated number lies between the number and zero. -/
theorem tdiv_mul_bounds (hu : 0 < u) :
    (0 ≤ n → n.tdiv u * u ≤ n ∧ n < n.tdiv u * u + u) ∧
      (n < 0 → n ≤ n.tdiv u * u ∧ n.tdiv u * u - u < n) := by
  have hsum := Int.tdiv_mul_add_tmod n u
  constructor
  · intro hn
    have hnonneg := Int.tmod_nonneg u hn
    have hlt := Int.tmod_lt_of_pos n hu
    omega
  · intro hn
    have hneg := Int.neg_tmod n u
    have hnonneg := Int.tmod_nonneg u (show 0 ≤ -n by omega)
    have hlt := Int.tmod_lt_of_pos (-n) hu
    omega

end Rounding
