-- SUMMARY: The size, serialize and deserialize functions of rix/msg/serialization.hpp, over byte memories and wrapping offsets.
import MBotTeleop.Msg.Shape

/-!
# Serialization

The functions of `rix/msg/serialization.hpp`, in their order there. A buffer is
a `Memory`; an offset passed by reference is threaded through; `size_t` sums
wrap at `2 ^ 64` and `uint32_t` sums at `2 ^ 32`, as on the 64-bit hosts the
repository is built for.
-/

namespace Rix.Msg

/-- Conversion to `size_t`. -/
def sizeT (n : Nat) : Nat := n % 2 ^ 64

/-- Conversion to `uint32_t`. -/
def uint32 (n : Nat) : Nat := n % 2 ^ 32

-- ---------------------------------------------------------------------------
-- Sizes
-- ---------------------------------------------------------------------------

def sizeNumber (t : NumType) (_ : t.Value) : Nat := t.sizeof

def sizeString (src : List UInt8) : Nat := uint32 (sizeT (4 + src.length))

def sizeNumberArray (t : NumType) (N : Nat) (_ : List t.Value) : Nat := uint32 (sizeT (N * t.sizeof))

/-- `for (const auto &s : src) size += size_…(s)`, in a `uint32_t`. -/
def sizeEach {α : Type} (sizeElem : α → Nat) (size : Nat) (src : List α) : Nat :=
  src.foldl (fun size s => uint32 (size + sizeElem s)) size

def sizeStringArray (src : List (List UInt8)) : Nat := sizeEach sizeString 0 src

def sizeMessageArray {α : Type} (sizeMessage : α → Nat) (src : List α) : Nat :=
  sizeEach sizeMessage 0 src

def sizeNumberVector (t : NumType) (src : List t.Value) : Nat :=
  uint32 (sizeT (4 + src.length * t.sizeof))

def sizeStringVector (src : List (List UInt8)) : Nat := sizeEach sizeString 4 src

def sizeMessageVector {α : Type} (sizeMessage : α → Nat) (src : List α) : Nat :=
  sizeEach sizeMessage 4 src

/-- The size a shape reports: `size_…` for the kinds of `serialization.hpp`,
`Message::size` for a class. A class adds the `uint32_t` sizes of its fields
into a `size_t`, and `size_message` narrows the sum where the class is a member
of another. -/
def Shape.size : (s : Shape) → s.Value → Nat
  | number t, v => sizeNumber t v
  | string, v => sizeString v
  | numberArray t N _, v => sizeNumberArray t N v.val
  | stringArray _, v => sizeStringArray v.val
  | messageArray msg _, v => sizeMessageArray (fun m => uint32 (msg.size m)) v.val
  | numberVector t, v => sizeNumberVector t v
  | stringVector, v => sizeStringVector v
  | messageVector msg, v => sizeMessageVector (fun m => uint32 (msg.size m)) v
  | done, _ => 0
  | field first rest, (a, b) => sizeT (uint32 (first.size a) + rest.size b)

-- ---------------------------------------------------------------------------
-- Serializers
-- ---------------------------------------------------------------------------

/-- The destination buffer and the offset after a serializer ran. -/
abbrev Written := Memory × Nat

def serializeNumber (t : NumType) (dst : Memory) (offset : Nat) (src : t.Value) : Written :=
  (dst.write offset (t.toBytes src), sizeT (offset + t.sizeof))

def serializeString (dst : Memory) (offset : Nat) (src : List UInt8) : Written :=
  let len : BitVec 32 := BitVec.ofNat 32 src.length
  let (dst, offset) := serializeNumber .uint32 dst offset len
  if 0 < len.toNat then
    (dst.write offset (src.take len.toNat), sizeT (offset + len.toNat))
  else
    (dst, offset)

def serializeNumberArray (t : NumType) (N : Nat) (dst : Memory) (offset : Nat)
    (src : List t.Value) : Written :=
  if 0 < N then
    (dst.write offset (src.flatMap t.toBytes), sizeT (offset + sizeT (N * t.sizeof)))
  else
    (dst, offset)

/-- `for (const auto &s : src) serialize_…(dst, offset, s)`. -/
def serializeEach {α : Type} (serializeElem : Memory → Nat → α → Written) (dst : Memory)
    (offset : Nat) : List α → Written
  | [] => (dst, offset)
  | s :: src =>
    let (dst, offset) := serializeElem dst offset s
    serializeEach serializeElem dst offset src

def serializeStringArray (dst : Memory) (offset : Nat) (src : List (List UInt8)) : Written :=
  serializeEach serializeString dst offset src

def serializeMessageArray {α : Type} (serializeMessage : Memory → Nat → α → Written)
    (dst : Memory) (offset : Nat) (src : List α) : Written :=
  serializeEach serializeMessage dst offset src

def serializeNumberVector (t : NumType) (dst : Memory) (offset : Nat)
    (src : List t.Value) : Written :=
  let count : BitVec 32 := BitVec.ofNat 32 src.length
  let (dst, offset) := serializeNumber .uint32 dst offset count
  if 0 < count.toNat then
    (dst.write offset ((src.take count.toNat).flatMap t.toBytes),
      sizeT (offset + sizeT (count.toNat * t.sizeof)))
  else
    (dst, offset)

/-- The 32-bit count and then every element: the loop runs over the vector, not
up to the count. -/
def serializeCounted {α : Type} (serializeElem : Memory → Nat → α → Written) (dst : Memory)
    (offset : Nat) (src : List α) : Written :=
  let (dst, offset) := serializeNumber .uint32 dst offset (BitVec.ofNat 32 src.length)
  serializeEach serializeElem dst offset src

def serializeStringVector (dst : Memory) (offset : Nat) (src : List (List UInt8)) : Written :=
  serializeCounted serializeString dst offset src

def serializeMessageVector {α : Type} (serializeMessage : Memory → Nat → α → Written)
    (dst : Memory) (offset : Nat) (src : List α) : Written :=
  serializeCounted serializeMessage dst offset src

/-- The serializer of a shape. A message class serializes its fields in order. -/
def Shape.serialize : (s : Shape) → Memory → Nat → s.Value → Written
  | number t, dst, offset, v => serializeNumber t dst offset v
  | string, dst, offset, v => serializeString dst offset v
  | numberArray t N _, dst, offset, v => serializeNumberArray t N dst offset v.val
  | stringArray _, dst, offset, v => serializeStringArray dst offset v.val
  | messageArray msg _, dst, offset, v => serializeMessageArray msg.serialize dst offset v.val
  | numberVector t, dst, offset, v => serializeNumberVector t dst offset v
  | stringVector, dst, offset, v => serializeStringVector dst offset v
  | messageVector msg, dst, offset, v => serializeMessageVector msg.serialize dst offset v
  | done, dst, offset, _ => (dst, offset)
  | field first rest, dst, offset, (a, b) =>
    let (dst, offset) := first.serialize dst offset a
    rest.serialize dst offset b

-- ---------------------------------------------------------------------------
-- Deserializers
-- ---------------------------------------------------------------------------

/-- What a deserializer did that could go wrong: bytes read from the source, the
unbounded operands of the sums and products it computed in a `size_t`, and the
lengths it gave to strings and vectors, for which it needs memory. -/
inductive Access where
  | read (offset n : Nat)
  | sum (a b : Nat)
  | product (a b : Nat)
  | resize (n : Nat)
  deriving DecidableEq, Repr

/-- The offset that a deserializer advances, with the accesses made so far, the
latest first. -/
structure Cursor where
  offset : Nat
  trace : List Access
  deriving DecidableEq, Repr

namespace Cursor

def log (c : Cursor) (a : Access) : Cursor := { c with trace := a :: c.trace }

/-- A destination of variable length is resized. -/
def grow (c : Cursor) : Option Nat → Cursor
  | none => c
  | some n => c.log (.resize n)

def advance (c : Cursor) (n : Nat) : Cursor := { c with offset := sizeT (c.offset + n) }

@[simp] theorem log_offset (c : Cursor) (a : Access) : (c.log a).offset = c.offset := rfl
@[simp] theorem grow_offset (c : Cursor) (n : Option Nat) : (c.grow n).offset = c.offset := by
  cases n <;> rfl
@[simp] theorem advance_offset (c : Cursor) (n : Nat) :
    (c.advance n).offset = sizeT (c.offset + n) := rfl

end Cursor

/-- What a deserializer leaves: its return value, the destination (also after a
failure) and the cursor. It is what the call comes to where there is memory for
every `resize`. -/
structure Result (α : Type) where
  ok : Bool
  dst : α
  cursor : Cursor

/-- The step every primitive deserializer makes: fail if `offset + n > size`,
else give the destination its length, copy `n` bytes out of the source and
advance the offset. -/
def fetch (length : Option Nat) (src : Memory) (size n : Nat) (c : Cursor) : Result (List UInt8) :=
  if sizeT (c.offset + n) > size then
    ⟨false, [], c.log (.sum c.offset n)⟩
  else
    ⟨true, src.slice c.offset n,
      (((c.log (.sum c.offset n)).grow length).log (.read c.offset n)).advance n⟩

def deserializeNumber (t : NumType) (src : Memory) (size : Nat) (dst : t.Value) (c : Cursor) :
    Result t.Value :=
  let bytes := fetch none src size t.sizeof c
  ⟨bytes.ok, if bytes.ok then t.ofBytes bytes.dst else dst, bytes.cursor⟩

def deserializeString (src : Memory) (size : Nat) (dst : List UInt8) (c : Cursor) :
    Result (List UInt8) :=
  let len := deserializeNumber .uint32 src size 0 c
  if len.ok then
    let bytes := fetch (some len.dst.toNat) src size len.dst.toNat len.cursor
    ⟨bytes.ok, if bytes.ok then bytes.dst else dst, bytes.cursor⟩
  else
    ⟨false, dst, len.cursor⟩

/-- `memcpy` of `bytes` over the elements of a number array. -/
def storeNumbers (t : NumType) : List t.Value → List UInt8 → List t.Value
  | [], _ => []
  | _ :: dst, bytes => t.ofBytes (bytes.take t.sizeof) :: storeNumbers t dst (bytes.drop t.sizeof)

@[simp] theorem storeNumbers_length (t : NumType) (dst : List t.Value) (bytes : List UInt8) :
    (storeNumbers t dst bytes).length = dst.length := by
  induction dst generalizing bytes with
  | nil => rfl
  | cons d dst ih => simp [storeNumbers, ih]

def deserializeNumberArray (t : NumType) (N : Nat) (src : Memory) (size : Nat)
    (dst : List t.Value) (c : Cursor) : Result (List t.Value) :=
  let bytes := fetch none src size (sizeT (N * t.sizeof)) (c.log (.product N t.sizeof))
  ⟨bytes.ok, if bytes.ok then storeNumbers t dst bytes.dst else dst, bytes.cursor⟩

@[simp] theorem deserializeNumberArray_length (t : NumType) (N : Nat) (src : Memory) (size : Nat)
    (dst : List t.Value) (c : Cursor) :
    (deserializeNumberArray t N src size dst c).dst.length = dst.length := by
  simp only [deserializeNumberArray]
  split <;> simp

/-- `for (i = 0; i < n; ++i) if (!deserialize_…(dst[i], src, size, offset)) return false;`
over the `n` elements of `dst`. -/
def deserializeEach {α : Type} (deserializeElem : Memory → Nat → α → Cursor → Result α)
    (src : Memory) (size : Nat) : List α → Cursor → Result (List α)
  | [], c => ⟨true, [], c⟩
  | d :: dst, c =>
    let head := deserializeElem src size d c
    if head.ok then
      let tail := deserializeEach deserializeElem src size dst head.cursor
      ⟨tail.ok, head.dst :: tail.dst, tail.cursor⟩
    else
      ⟨false, head.dst :: dst, head.cursor⟩

@[simp] theorem deserializeEach_length {α : Type}
    (deserializeElem : Memory → Nat → α → Cursor → Result α) (src : Memory) (size : Nat)
    (dst : List α) (c : Cursor) :
    (deserializeEach deserializeElem src size dst c).dst.length = dst.length := by
  induction dst generalizing c with
  | nil => rfl
  | cons d dst ih =>
    simp only [deserializeEach]
    split <;> simp [ih]

def deserializeStringArray (src : Memory) (size : Nat) (dst : List (List UInt8)) (c : Cursor) :
    Result (List (List UInt8)) :=
  deserializeEach deserializeString src size dst c

def deserializeMessageArray {α : Type}
    (deserializeMessage : Memory → Nat → α → Cursor → Result α) (src : Memory) (size : Nat)
    (dst : List α) (c : Cursor) : Result (List α) :=
  deserializeEach deserializeMessage src size dst c

/-- `std::vector::resize`: keep the first elements, append value-initialised ones. -/
def resize {α : Type} (dst : List α) (count : Nat) (fill : α) : List α :=
  dst.take count ++ List.replicate (count - dst.length) fill

@[simp] theorem resize_length {α : Type} (dst : List α) (count : Nat) (fill : α) :
    (resize dst count fill).length = count := by
  simp only [resize, List.length_append, List.length_take, List.length_replicate]
  omega

def deserializeNumberVector (t : NumType) (src : Memory) (size : Nat) (dst : List t.Value)
    (c : Cursor) : Result (List t.Value) :=
  let count := deserializeNumber .uint32 src size 0 c
  if count.ok then
    let bytes := fetch (some count.dst.toNat) src size (sizeT (count.dst.toNat * t.sizeof))
      (count.cursor.log (.product count.dst.toNat t.sizeof))
    -- the vector is resized without being cleared, then overwritten
    ⟨bytes.ok,
      if bytes.ok then storeNumbers t (resize dst count.dst.toNat 0) bytes.dst else dst,
      bytes.cursor⟩
  else
    ⟨false, dst, count.cursor⟩

/-- The body `deserialize_string_vector` and `deserialize_message_vector` share:
the vector is cleared and resized to the announced count before any element is
read. -/
def deserializeCounted {α : Type} (deserializeElem : Memory → Nat → α → Cursor → Result α)
    (fill : α) (src : Memory) (size : Nat) (dst : List α) (c : Cursor) : Result (List α) :=
  let count := deserializeNumber .uint32 src size 0 c
  if count.ok then
    deserializeEach deserializeElem src size (resize [] count.dst.toNat fill)
      (count.cursor.log (.resize count.dst.toNat))
  else
    ⟨false, dst, count.cursor⟩

def deserializeStringVector (src : Memory) (size : Nat) (dst : List (List UInt8)) (c : Cursor) :
    Result (List (List UInt8)) :=
  deserializeCounted deserializeString [] src size dst c

def deserializeMessageVector {α : Type}
    (deserializeMessage : Memory → Nat → α → Cursor → Result α) (fill : α) (src : Memory)
    (size : Nat) (dst : List α) (c : Cursor) : Result (List α) :=
  deserializeCounted deserializeMessage fill src size dst c

/-- The deserializer of a shape. A message class reads its fields in order and
stops at the first that fails. -/
def Shape.deserialize : (s : Shape) → Memory → Nat → s.Value → Cursor → Result s.Value
  | number t, src, size, dst, c => deserializeNumber t src size dst c
  | string, src, size, dst, c => deserializeString src size dst c
  | numberArray t N _, src, size, dst, c =>
    let r := deserializeNumberArray t N src size dst.val c
    ⟨r.ok, ⟨r.dst, (deserializeNumberArray_length ..).trans dst.property⟩, r.cursor⟩
  | stringArray _, src, size, dst, c =>
    let r := deserializeStringArray src size dst.val c
    ⟨r.ok, ⟨r.dst, (deserializeEach_length ..).trans dst.property⟩, r.cursor⟩
  | messageArray msg _, src, size, dst, c =>
    let r := deserializeMessageArray msg.deserialize src size dst.val c
    ⟨r.ok, ⟨r.dst, (deserializeEach_length ..).trans dst.property⟩, r.cursor⟩
  | numberVector t, src, size, dst, c => deserializeNumberVector t src size dst c
  | stringVector, src, size, dst, c => deserializeStringVector src size dst c
  | messageVector msg, src, size, dst, c =>
    deserializeMessageVector msg.deserialize msg.default src size dst c
  | done, _, _, dst, c => ⟨true, dst, c⟩
  | field first rest, src, size, (a, b), c =>
    let head := first.deserialize src size a c
    if head.ok then
      let tail := rest.deserialize src size b head.cursor
      ⟨tail.ok, (head.dst, tail.dst), tail.cursor⟩
    else
      ⟨false, (head.dst, b), head.cursor⟩

end Rix.Msg
