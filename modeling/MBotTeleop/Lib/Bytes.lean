-- SUMMARY: Byte memories with slices and block writes, and little-endian byte encodings of naturals.
import Mathlib.Algebra.Group.Nat.Defs
import Mathlib.Data.List.Basic
import Mathlib.Logic.Function.Basic
import Mathlib.Tactic.Common

/-!
# Bytes

A `Memory` is what a byte pointer leads to, at every offset from it. It has no
bounds: a program that stays inside a buffer is one whose reads and writes are
shown to, so an overrun can be stated and has to be excluded by proof.
-/

abbrev Memory := Nat → UInt8

namespace Memory

/-- The `n` bytes from offset `o` on. -/
def slice (m : Memory) (o : Nat) : Nat → List UInt8
  | 0 => []
  | n + 1 => m o :: slice m (o + 1) n

/-- Copy the bytes `bs` to offset `o`. -/
def write (m : Memory) (o : Nat) : List UInt8 → Memory
  | [] => m
  | b :: bs => write (Function.update m o b) (o + 1) bs

/-- A memory that starts with the bytes `bs`. -/
def ofList (bs : List UInt8) : Memory := fun i => bs.getD i 0

/-! ## Slices -/

@[simp] theorem slice_zero (m : Memory) (o : Nat) : m.slice o 0 = [] := rfl

@[simp] theorem slice_length (m : Memory) (o n : Nat) : (m.slice o n).length = n := by
  induction n generalizing o with
  | zero => rfl
  | succ n ih => simp [slice, ih]

theorem slice_add (m : Memory) (o a b : Nat) :
    m.slice o (a + b) = m.slice o a ++ m.slice (o + a) b := by
  induction a generalizing o with
  | zero => simp
  | succ a ih =>
    have hab : a + 1 + b = a + b + 1 := by omega
    have hoa : o + (a + 1) = o + 1 + a := by omega
    rw [hab, hoa]
    simp only [slice, List.cons_append]
    rw [ih]

theorem slice_congr {m m' : Memory} {o n : Nat}
    (h : ∀ i, o ≤ i → i < o + n → m i = m' i) : m.slice o n = m'.slice o n := by
  induction n generalizing o with
  | zero => rfl
  | succ n ih =>
    simp only [slice]
    rw [h o (by omega) (by omega), ih fun i hlo hhi => h i (by omega) (by omega)]

/-- Equal slices are equal byte by byte. -/
theorem slice_eq_iff {m m' : Memory} {o n : Nat} :
    m.slice o n = m'.slice o n ↔ ∀ i, o ≤ i → i < o + n → m i = m' i := by
  refine ⟨fun h => ?_, slice_congr⟩
  induction n generalizing o with
  | zero => intro i hlo hhi; omega
  | succ n ih =>
    simp only [slice, List.cons.injEq] at h
    intro i hlo hhi
    rcases Nat.eq_or_lt_of_le hlo with rfl | hlt
    · exact h.1
    · exact ih h.2 i hlt (by omega)

theorem slice_ofList (bs : List UInt8) : (ofList bs).slice 0 bs.length = bs := by
  have hgen : ∀ (pre post : List UInt8),
      (ofList (pre ++ post)).slice pre.length post.length = post := by
    intro pre post
    induction post generalizing pre with
    | nil => rfl
    | cons b post ih =>
      have hb : ofList (pre ++ b :: post) pre.length = b := by simp [ofList]
      have := ih (pre ++ [b])
      simp only [List.append_assoc, List.singleton_append, List.length_append,
        List.length_singleton] at this
      simp only [List.length_cons, slice, hb, this]
  simpa using hgen [] bs

/-- Inside the list a slice is a segment of it. -/
theorem slice_ofList_of_le {bs : List UInt8} {o n : Nat} (h : o + n ≤ bs.length) :
    (ofList bs).slice o n = (bs.drop o).take n := by
  have hsplit := slice_ofList bs
  rw [show bs.length = o + (n + (bs.length - o - n)) by omega, slice_add, slice_add,
    Nat.zero_add] at hsplit
  conv =>
    rhs
    rw [← hsplit]
  rw [List.drop_left' (slice_length ..), List.take_left' (slice_length ..)]

/-! ## Writes -/

@[simp] theorem write_nil (m : Memory) (o : Nat) : m.write o [] = m := rfl

theorem write_append (m : Memory) (o : Nat) (as bs : List UInt8) :
    m.write o (as ++ bs) = (m.write o as).write (o + as.length) bs := by
  induction as generalizing m o with
  | nil => rfl
  | cons a as ih =>
    have hlen : o + (as.length + 1) = o + 1 + as.length := by omega
    simp only [List.cons_append, write, List.length_cons, hlen]
    rw [ih]

/-- A write changes no byte outside the block it covers. -/
theorem write_frame (m : Memory) (o : Nat) (bs : List UInt8) {i : Nat}
    (h : i < o ∨ o + bs.length ≤ i) : m.write o bs i = m i := by
  induction bs generalizing m o with
  | nil => rfl
  | cons b bs ih =>
    simp only [List.length_cons] at h
    simp only [write]
    rw [ih _ _ (by omega)]
    exact Function.update_of_ne (by omega) _ _

/-- A block that was written reads back. -/
@[simp] theorem slice_write (m : Memory) (o : Nat) (bs : List UInt8) :
    (m.write o bs).slice o bs.length = bs := by
  induction bs generalizing m o with
  | nil => rfl
  | cons b bs ih =>
    simp only [write, List.length_cons, slice]
    rw [write_frame _ _ _ (by omega), ih]
    simp

end Memory

/-! ## Little-endian naturals -/

namespace LittleEndian

/-- The `w` low-order bytes of `n`, least significant first. -/
def encode : Nat → Nat → List UInt8
  | 0, _ => []
  | w + 1, n => UInt8.ofNat n :: encode w (n / 256)

/-- The natural whose little-endian bytes are given. -/
def decode : List UInt8 → Nat
  | [] => 0
  | b :: bs => b.toNat + 256 * decode bs

@[simp] theorem encode_length (w n : Nat) : (encode w n).length = w := by
  induction w generalizing n with
  | zero => rfl
  | succ w ih => simp [encode, ih]

theorem decode_encode (w n : Nat) : decode (encode w n) = n % 256 ^ w := by
  induction w generalizing n with
  | zero => simp [encode, decode, Nat.mod_one]
  | succ w ih =>
    have hpow : 256 ^ (w + 1) = 256 * 256 ^ w := Nat.pow_succ'
    rw [encode, decode, ih, UInt8.toNat_ofNat', hpow, Nat.mod_mul]

theorem decode_lt (bs : List UInt8) : decode bs < 256 ^ bs.length := by
  induction bs with
  | nil => simp [decode]
  | cons b bs ih =>
    have hb := b.toNat_lt
    simp only [decode, List.length_cons, Nat.pow_succ]
    omega

theorem encode_decode (bs : List UInt8) : encode bs.length (decode bs) = bs := by
  induction bs with
  | nil => rfl
  | cons b bs ih =>
    have hb := b.toNat_lt
    simp only [List.length_cons, decode, encode, List.cons.injEq]
    constructor
    · apply UInt8.toNat_inj.mp
      rw [UInt8.toNat_ofNat']
      omega
    · rw [Nat.add_mul_div_left _ _ (by omega), Nat.div_eq_of_lt (by omega), Nat.zero_add, ih]

/-- A bit vector that fits in `w` bytes is decoded from its encoding. -/
theorem ofNat_decode_encode {w n : Nat} (hw : 2 ^ n ≤ 256 ^ w) (v : BitVec n) :
    BitVec.ofNat n (decode (encode w v.toNat)) = v := by
  have hlt : v.toNat < 256 ^ w := Nat.lt_of_lt_of_le v.isLt hw
  rw [decode_encode, Nat.mod_eq_of_lt hlt, BitVec.ofNat_toNat, BitVec.setWidth_eq]

/-- Only the low-order bytes of a natural are encoded. -/
theorem encode_mod (w n : Nat) : encode w (n % 256 ^ w) = encode w n := by
  have h := encode_decode (encode w n)
  rwa [encode_length, decode_encode] at h

end LittleEndian
