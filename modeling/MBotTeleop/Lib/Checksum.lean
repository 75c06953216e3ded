-- SUMMARY: Byte sums that a check byte brings to 255, and the changes such a sum detects.
import Mathlib.Algebra.GroupWithZero.Nat
import Mathlib.Tactic.Common

/-!
# Checksums by sum

A block of bytes is followed by a byte that makes the sum of all of them 255
modulo 256. A receiver that only adds up what it gets notices every change of a
single byte.
-/

namespace Checksum

def sum (bytes : List UInt8) : Nat := (bytes.map UInt8.toNat).sum

/-- The check byte of a block. -/
def complement (bytes : List UInt8) : UInt8 := UInt8.ofNat (255 - sum bytes % 256)

/-- The bytes with indices from `lo` up to `hi`, without `hi`. -/
def segment (bytes : List UInt8) (lo hi : Nat) : List UInt8 := (bytes.take hi).drop lo

@[simp] theorem sum_append (as bs : List UInt8) : sum (as ++ bs) = sum as + sum bs := by
  simp only [sum, List.map_append, List.sum_append_nat]

theorem sum_eq_foldl (bytes : List UInt8) :
    sum bytes = bytes.foldl (fun sum b => sum + b.toNat) 0 := by
  rw [sum, List.sum_eq_foldl_nat, List.foldl_map]

theorem sum_append_complement (bytes : List UInt8) :
    sum (bytes ++ [complement bytes]) % 256 = 255 := by
  have hcheck : sum [complement bytes] = 255 - sum bytes % 256 := by
    simp only [sum, complement, List.map_cons, List.map_nil, List.sum_cons, List.sum_nil,
      UInt8.toNat_ofNat']
    omega
  rw [sum_append, hcheck]
  have := Nat.mod_lt (sum bytes) (show 0 < 256 by decide)
  omega

/-! ## Changes of a byte -/

theorem sum_set {bytes : List UInt8} {i : Nat} (hi : i < bytes.length) (b : UInt8) :
    sum (bytes.set i b) + bytes[i].toNat = sum bytes + b.toNat := by
  induction bytes generalizing i with
  | nil => cases hi
  | cons a bytes ih =>
    cases i with
    | zero =>
      simp only [sum, List.set_cons_zero, List.map_cons, List.sum_cons, List.getElem_cons_zero]
      omega
    | succ i =>
      have := ih (Nat.lt_of_succ_lt_succ hi)
      simp only [sum, List.set_cons_succ, List.map_cons, List.sum_cons, List.getElem_cons_succ] at this ⊢
      omega

/-- Two different bytes are not congruent. -/
theorem sum_set_ne {bytes : List UInt8} {i : Nat} (hi : i < bytes.length) {b : UInt8}
    (hb : b ≠ bytes[i]) : sum (bytes.set i b) % 256 ≠ sum bytes % 256 := by
  intro heq
  have hset := sum_set hi b
  have hlt := b.toNat_lt
  have hlt' := bytes[i].toNat_lt
  exact hb (UInt8.toNat_inj.mp (by omega))

/-! ## Segments -/

@[simp] theorem segment_length (bytes : List UInt8) (lo hi : Nat) :
    (segment bytes lo hi).length = min hi bytes.length - lo := by
  simp only [segment, List.length_drop, List.length_take]

/-- Cutting out the middle of three blocks. -/
theorem segment_append (pre mid post : List UInt8) {lo hi : Nat} (hlo : pre.length = lo)
    (hhi : pre.length + mid.length = hi) : segment (pre ++ mid ++ post) lo hi = mid := by
  unfold segment
  rw [← hlo, ← hhi, ← List.length_append, List.take_left, List.drop_left]

/-- A segment notices a change of any of its bytes. -/
theorem segment_set_ne {bytes : List UInt8} {lo i hi : Nat} (hi' : i < bytes.length)
    (hlo : lo ≤ i) (hlt : i < hi) {b : UInt8} (hb : b ≠ bytes[i]) :
    sum (segment (bytes.set i b) lo hi) % 256 ≠ sum (segment bytes lo hi) % 256 := by
  have hset : segment (bytes.set i b) lo hi = (segment bytes lo hi).set (i - lo) b := by
    unfold segment
    rw [List.take_set, List.drop_set, if_neg (by omega)]
  have hindex : i - lo < (segment bytes lo hi).length := by
    rw [segment_length]
    omega
  have hget : (segment bytes lo hi)[i - lo] = bytes[i] := by
    simp only [segment, List.getElem_drop, List.getElem_take, Nat.add_sub_cancel' hlo]
  rw [hset]
  exact sum_set_ne hindex (hget ▸ hb)

end Checksum
