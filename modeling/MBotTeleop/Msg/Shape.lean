-- SUMMARY: The shapes the message serializer handles, with the values of each shape.
import MBotTeleop.Lib.Bytes

/-!
# Shapes

`rix/msg/serialization.hpp` offers one pair of functions for each kind of data:
numbers, strings, messages, and fixed arrays and vectors of each. A message
class serializes its fields one after the other. `Shape` names these kinds, so
that a law of the format can be stated for all of them, at any nesting.
-/

namespace Rix.Msg

/-- The arithmetic types of the format. -/
inductive NumType where
  | bool
  | char
  | int8
  | uint8
  | int16
  | uint16
  | int32
  | uint32
  | int64
  | uint64
  | float
  | double
  deriving DecidableEq, Repr

namespace NumType

/-- `sizeof(T)`. -/
def sizeof : NumType → Nat
  | bool | char | int8 | uint8 => 1
  | int16 | uint16 => 2
  | int32 | uint32 | float => 4
  | int64 | uint64 | double => 8

/-- A number is its object representation, so a float or a double is its bit
pattern and a signed integer its two's complement. -/
abbrev Value (t : NumType) : Type := BitVec (8 * t.sizeof)

/-- The bytes of a number in memory, on a little-endian host. -/
def toBytes (t : NumType) (v : t.Value) : List UInt8 :=
  LittleEndian.encode t.sizeof v.toNat

def ofBytes (t : NumType) (bytes : List UInt8) : t.Value :=
  BitVec.ofNat _ (LittleEndian.decode bytes)

theorem sizeof_pos (t : NumType) : 0 < t.sizeof := by cases t <;> decide

theorem sizeof_le (t : NumType) : t.sizeof ≤ 8 := by cases t <;> decide

@[simp] theorem toBytes_length (t : NumType) (v : t.Value) : (t.toBytes v).length = t.sizeof := by
  simp [toBytes]

@[simp] theorem ofBytes_toBytes (t : NumType) (v : t.Value) : t.ofBytes (t.toBytes v) = v :=
  LittleEndian.ofNat_decode_encode (Nat.le_of_eq (Nat.pow_mul ..)) v

theorem toBytes_ofBytes (t : NumType) {bytes : List UInt8} (h : bytes.length = t.sizeof) :
    t.toBytes (t.ofBytes bytes) = bytes := by
  have hlt : LittleEndian.decode bytes < 2 ^ (8 * t.sizeof) := by
    have := LittleEndian.decode_lt bytes
    rwa [h, show (256 : Nat) = 2 ^ 8 from rfl, ← Nat.pow_mul] at this
  rw [toBytes, ofBytes, BitVec.toNat_ofNat, Nat.mod_eq_of_lt hlt, ← h,
    LittleEndian.encode_decode]

end NumType

/-- The kinds of data with a serializer. A message class is the list of its
fields, `field s₁ (field s₂ … done)`, and such a list is what stands for a
message wherever one is expected. -/
inductive Shape where
  | number (t : NumType)
  | string
  /-- `std::array<T, N>`. The type exists only if it fits in the address space. -/
  | numberArray (t : NumType) (N : Nat) (fits : N * t.sizeof < 2 ^ 63)
  | stringArray (N : Nat)
  | messageArray (msg : Shape) (N : Nat)
  | numberVector (t : NumType)
  | stringVector
  | messageVector (msg : Shape)
  | done
  | field (first : Shape) (rest : Shape)

namespace Shape

/-- The C++ values of a shape. A string is the sequence of its bytes. -/
def Value : Shape → Type
  | number t => t.Value
  | string => List UInt8
  | numberArray t N _ => { vs : List t.Value // vs.length = N }
  | stringArray N => { vs : List (List UInt8) // vs.length = N }
  | messageArray msg N => { vs : List msg.Value // vs.length = N }
  | numberVector t => List t.Value
  | stringVector => List (List UInt8)
  | messageVector msg => List msg.Value
  | done => Unit
  | field first rest => first.Value × rest.Value

/-- The value-initialised object, which `resize` appends. -/
def default : (s : Shape) → s.Value
  | number t => (0 : t.Value)
  | string => ([] : List UInt8)
  | numberArray _ N _ => ⟨List.replicate N 0, List.length_replicate⟩
  | stringArray N => ⟨List.replicate N [], List.length_replicate⟩
  | messageArray msg N => ⟨List.replicate N msg.default, List.length_replicate⟩
  | numberVector _ | stringVector | messageVector _ => ([] : List _)
  | done => ()
  | field first rest => (first.default, rest.default)

/-- Every string is shorter than `2 ^ 32` bytes and every vector has fewer than
`2 ^ 32` elements, at every nesting: the values whose lengths fit their prefix. -/
def Bounded : (s : Shape) → s.Value → Prop
  | number _, _ => True
  | string, (v : List UInt8) => v.length < 2 ^ 32
  | numberArray .., _ => True
  | stringArray _, v => ∀ x ∈ v.val, x.length < 2 ^ 32
  | messageArray msg _, v => ∀ x ∈ v.val, msg.Bounded x
  | numberVector _, (v : List _) => v.length < 2 ^ 32
  | stringVector, (v : List (List UInt8)) => v.length < 2 ^ 32 ∧ ∀ x ∈ v, x.length < 2 ^ 32
  | messageVector msg, (v : List msg.Value) => v.length < 2 ^ 32 ∧ ∀ x ∈ v, msg.Bounded x
  | done, _ => True
  | field first rest, (a, b) => first.Bounded a ∧ rest.Bounded b

end Shape

end Rix.Msg
