-- SUMMARY: IEEE 754 numbers as bit patterns: the sign of a double, the order of doubles, and the conversion of a double to a float.
import Mathlib.Algebra.Group.Nat.Defs
import Mathlib.Tactic.Common

/-!
# Floating-point numbers

A double is its bit pattern: a sign bit, 11 bits of exponent and 52 of fraction.
A float has 8 bits of exponent and 23 of fraction. The conversion rounds to the
nearest float and ties to even, the mode programs start in.
-/

namespace Ieee

/-- Unary minus flips the sign bit, of a NaN too. -/
def neg (d : BitVec 64) : BitVec 64 := d ^^^ 0x8000000000000000

/-- The exponent is all ones, and the fraction is not zero. -/
def isNaN (d : BitVec 64) : Bool := 0x7ff0000000000000 < d.toNat % 2 ^ 63

/-- Doubles other than NaN are ordered as the bits below their sign are, and the
other way below zero. -/
def rank (d : BitVec 64) : Int :=
  let magnitude : Nat := d.toNat % 2 ^ 63
  if d.msb then -magnitude else magnitude

/-- `a <= b`, which is false of a NaN. -/
def le (a b : BitVec 64) : Bool := !isNaN a && !isNaN b && rank a ≤ rank b

-- 0.0 and -0.0, negative infinity and -1.0, and a NaN
example : le 0 0x8000000000000000 ∧ le 0x8000000000000000 0 := by decide
example : le 0xfff0000000000000 0xbff0000000000000 ∧ le 0x7ff8000000000000 0 = false := by decide

/-- `m / 2 ^ k`, rounded to the nearest natural and ties to even. -/
def roundShift (m k : Nat) : Nat :=
  let q := m / 2 ^ k
  let r := 2 * (m % 2 ^ k)
  if 2 ^ k < r ∨ (r = 2 ^ k ∧ q % 2 = 1) then q + 1 else q

/-- The bits below the sign of the float nearest to a double with biased
exponent `e` and fraction `m`. A carry out of the fraction goes into the
exponent, as it should. -/
def narrowMagnitude (e m : Nat) : Nat :=
  if e = 2047 then
    -- infinity stays; a NaN becomes quiet and keeps the upper bits of its payload
    if m = 0 then 0x7f800000 else 0x7fc00000 ||| m / 2 ^ 29
  else if 897 ≤ e then
    -- normal floats; what is too large becomes infinity
    min (roundShift (2 ^ 52 + m) 29 + (e - 897) * 2 ^ 23) 0x7f800000
  else if e = 0 then
    -- zero, or far below half the least float
    0
  else
    -- subnormal floats
    roundShift (2 ^ 52 + m) (926 - e)

/-- `static_cast<float>` of a double. -/
def narrow (d : BitVec 64) : BitVec 32 :=
  BitVec.ofNat 32 (d.toNat / 2 ^ 63 * 2 ^ 31 +
    narrowMagnitude (d.toNat / 2 ^ 52 % 2 ^ 11) (d.toNat % 2 ^ 52))

-- 0.25, 0.1, the largest float and the double above half an ulp past it, and the least subnormals
example : narrow 0x3fd0000000000000 = 0x3e800000 := by decide
example : narrow 0x3fb999999999999a = 0x3dcccccd := by decide
example : narrow 0x47efffffe0000000 = 0x7f7fffff ∧ narrow 0x47effffff0000000 = 0x7f800000 := by
  decide
example : narrow 0x36a0000000000000 = 1 ∧ narrow 0x3690000000000000 = 0 := by decide

end Ieee
