-- SUMMARY: Packed C structs on a little-endian machine: their types as data, the bytes of a value, and every member at its offset.
import MBotTeleop.Lib.Layout

/-!
# Packed structs

The members of a packed struct lie one after another, without padding. A type is
data here, and its values, its size, its layout and the offsets of its members
follow from it.
-/

/-- Types made of words, arrays and members. -/
inductive CType where
  /-- An integer or a float of so many bytes, as its bits. -/
  | word (size : Nat)
  | array (element : CType) (count : Nat)
  | empty
  | member (name : String) (type rest : CType)
  deriving DecidableEq, Repr

namespace CType

/-- A packed struct with these members. -/
def struct (members : List (String × CType)) : CType :=
  members.foldr (fun m rest => member m.1 m.2 rest) empty

/-- `sizeof` -/
def sizeof : CType → Nat
  | word size => size
  | array element count => count * element.sizeof
  | empty => 0
  | member _ type rest => type.sizeof + rest.sizeof

/-- The values of a type. -/
def Val : CType → Type
  | word size => BitVec (8 * size)
  | array element count => { vs : List element.Val // vs.length = count }
  | empty => Unit
  | member _ type rest => type.Val × rest.Val

/-- The values of a word, least significant byte first. -/
def wordLayout (size : Nat) : Layout (BitVec (8 * size)) :=
  Layout.block size (fun v => LittleEndian.encode size v.toNat)
    (fun bytes => BitVec.ofNat (8 * size) (LittleEndian.decode bytes))
    (fun v => LittleEndian.encode_length size v.toNat)
    (LittleEndian.ofNat_decode_encode (Nat.le_of_eq (Nat.pow_mul 2 8 size)))
    (by
      rintro bytes rfl
      have hlt := LittleEndian.decode_lt bytes
      rw [BitVec.toNat_ofNat, Nat.pow_mul, Nat.mod_eq_of_lt hlt, LittleEndian.encode_decode])

/-- How the values of a type lie in memory. -/
def layout : (t : CType) → Layout t.Val
  | word size => wordLayout size
  | array element count => element.layout.array count
  | empty => Layout.unit
  | member _ type rest => type.layout.pair rest.layout

/-- The bytes of a value. -/
def bytes (t : CType) (v : t.Val) : List UInt8 := t.layout.encode v

/-- The value that a memory holds at an offset. -/
def read (t : CType) (m : Memory) (o : Nat) : t.Val := t.layout.value m o

-- ---------------------------------------------------------------------------
-- Sizes
-- ---------------------------------------------------------------------------

/-- An array of values of one extent has a multiple of it. -/
theorem viewEach_extent {α : Type} {A : Layout α} {w : Nat} (hw : ∀ m o, A.extent m o = w)
    (m : Memory) (n o : Nat) : (A.viewEach m n o).2 = n * w := by
  induction n generalizing o with
  | zero => exact (Nat.zero_mul w).symm
  | succ n ih =>
    have hhead : (A.view m o).2 = w := hw m o
    simp only [Layout.viewEach, ih, hhead]
    rw [Nat.add_mul, Nat.one_mul, Nat.add_comm]

/-- What a memory holds does not matter for the extent of a value. -/
theorem layout_extent (t : CType) (m : Memory) (o : Nat) : t.layout.extent m o = t.sizeof := by
  induction t generalizing m o with
  | word size => rfl
  | array element count ih => exact viewEach_extent ih m count o
  | empty => rfl
  | member name type rest ihtype ihrest =>
    have hhead : (type.layout.view m o).2 = type.sizeof := ihtype m o
    have htail : (rest.layout.view m (o + type.sizeof)).2 = rest.sizeof := ihrest m _
    change (type.layout.view m o).2 + (rest.layout.view m (o + (type.layout.view m o).2)).2 = _
    rw [hhead, htail, sizeof]

/-- There are no values that do not fit. -/
theorem layout_fits (t : CType) (v : t.Val) : t.layout.Fits v := by
  induction t with
  | word size => trivial
  | array element count ih => exact fun w _ => ih w
  | empty => trivial
  | member name type rest ihtype ihrest => exact ⟨ihtype v.1, ihrest v.2⟩

@[simp] theorem length_bytes (t : CType) (v : t.Val) : (t.bytes v).length = t.sizeof := by
  have hview := t.layout.view_encode (t.layout_fits v) (Memory.slice_ofList (t.bytes v))
  rw [← layout_extent t (Memory.ofList (t.bytes v)) 0, Layout.extent, hview]
  rfl

/-- A value is read back from where its bytes are. -/
theorem read_of_slice {t : CType} {v : t.Val} {m : Memory} {o : Nat}
    (h : m.slice o t.sizeof = t.bytes v) : t.read m o = v := by
  rw [← length_bytes t v] at h
  exact congrArg Prod.fst (t.layout.view_encode (t.layout_fits v) h)

-- ---------------------------------------------------------------------------
-- Members
-- ---------------------------------------------------------------------------

/-- The way from a type to a member of it, of a member of it, and so on. -/
inductive Path : CType → CType → Type where
  | here {t : CType} : Path t t
  | into {t u rest : CType} (name : String) (p : Path t u) : Path (member name t rest) u
  | past {t u rest : CType} {name : String} (p : Path rest u) : Path (member name t rest) u
  | index {t u : CType} {n : Nat} (i : Fin n) (p : Path t u) : Path (array t n) u

namespace Path

/-- `offsetof` -/
def offset {t u : CType} : Path t u → Nat
  | here => 0
  | into _ p => p.offset
  | past (t := t) p => t.sizeof + p.offset
  | index (t := t) i p => i * t.sizeof + p.offset

/-- The member of a value. -/
def get {t u : CType} : Path t u → t.Val → u.Val
  | here, v => v
  | into _ p, v => p.get v.1
  | past p, v => p.get v.2
  | index i p, v => p.get (v.val.get (i.cast v.property.symm))

end Path

/-- The values of an array, each at its own offset. -/
theorem getElem_viewEach {α : Type} {A : Layout α} {w : Nat} (hw : ∀ m o, A.extent m o = w)
    (m : Memory) {n o i : Nat} (hi : i < (A.viewEach m n o).1.length) :
    (A.viewEach m n o).1[i] = A.value m (o + i * w) := by
  induction n generalizing o i with
  | zero => cases hi
  | succ n ih =>
    cases i with
    | zero =>
      have hoffset : o + 0 * w = o := by rw [Nat.zero_mul, Nat.add_zero]
      rw [hoffset]
      rfl
    | succ i =>
      have hhead : (A.view m o).2 = w := hw m o
      have hoffset : o + (A.view m o).2 + i * w = o + (i + 1) * w := by
        rw [hhead, Nat.add_mul]
        omega
      rw [← hoffset]
      exact ih (Nat.lt_of_succ_lt_succ hi)

/-- A member alone is read at its offset as it is read in the whole. -/
theorem read_path {t u : CType} (p : Path t u) (m : Memory) (o : Nat) :
    u.read m (o + p.offset) = p.get (t.read m o) := by
  induction p generalizing o with
  | here => rfl
  | into name p ih => exact ih o
  | past p ih =>
    rename_i t u rest name
    have hextent : (t.layout.view m o).2 = t.sizeof := t.layout_extent m o
    have hrest : ((member name t rest).read m o).2 = rest.read m (o + t.sizeof) := by
      rw [← hextent]
      rfl
    rw [Path.offset, Path.get, hrest, ← ih, Nat.add_assoc]
  | index i p ih =>
    rename_i t u n
    have helement : (t.layout.viewEach m n o).1.get (i.cast (by simp)) =
        t.read m (o + i * t.sizeof) := getElem_viewEach t.layout_extent m (by simp)
    rw [Path.offset, ← Nat.add_assoc, ih, ← helement]
    rfl

/-- A member lies inside the whole. -/
theorem offset_le {t u : CType} (p : Path t u) : p.offset + u.sizeof ≤ t.sizeof := by
  induction p with
  | here => exact Nat.le_of_eq (Nat.zero_add _)
  | into name p ih => exact Nat.le_trans ih (Nat.le_add_right ..)
  | past p ih =>
    rw [Path.offset, sizeof]
    omega
  | index i p ih =>
    rename_i t u n
    have hmul : (i + 1) * t.sizeof ≤ n * t.sizeof := Nat.mul_le_mul_right _ i.isLt
    rw [Nat.add_mul, Nat.one_mul] at hmul
    rw [Path.offset, sizeof]
    omega

end CType
