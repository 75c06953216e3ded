-- SUMMARY: The wire format: the layout of every shape, and that the serializers write it and the size functions measure it.
import MBotTeleop.Lib.Layout
import MBotTeleop.Msg.Serialization

/-!
# The wire format

The layout of a shape says what its encoding is, apart from any buffer, offset
or machine word. The serializers of `Serialization.lean` write this encoding,
and the size functions compute its length, as far as their words reach.
-/

namespace Rix.Msg

/-- Numbers lie as their object representation. -/
def NumType.layout (t : NumType) : Layout t.Value :=
  .block t.sizeof t.toBytes t.ofBytes t.toBytes_length t.ofBytes_toBytes
    fun _ h => t.toBytes_ofBytes h

namespace Shape

/-- Lengths and counts are 4-byte prefixes. -/
def layout : (s : Shape) → Layout s.Value
  | number t => t.layout
  | string => .bytes 4
  | numberArray t N _ => t.layout.array N
  | stringArray N => (Layout.bytes 4).array N
  | messageArray msg N => msg.layout.array N
  | numberVector t => t.layout.counted 4
  | stringVector => (Layout.bytes 4).counted 4
  | messageVector msg => msg.layout.counted 4
  | done => .unit
  | field first rest => first.layout.pair rest.layout

/-- The bytes a value is serialized to. -/
abbrev encode (s : Shape) (v : s.Value) : List UInt8 := s.layout.encode v

theorem layout_fits {s : Shape} {v : s.Value} : s.layout.Fits v ↔ s.Bounded v := by
  induction s with
  | number t => exact Iff.rfl
  | string => exact Iff.rfl
  | numberArray t N fits => exact iff_of_true (fun _ _ => trivial) trivial
  | stringArray N => exact Iff.rfl
  | messageArray msg N ih => exact forall₂_congr fun _ _ => ih
  | numberVector t => exact ⟨fun h => h.1, fun h => ⟨h, fun _ _ => trivial⟩⟩
  | stringVector => exact Iff.rfl
  | messageVector msg ih => exact and_congr Iff.rfl (forall₂_congr fun _ _ => ih)
  | done => exact Iff.rfl
  | field first rest ih₁ ih₂ => exact and_congr ih₁ ih₂

end Shape

-- ---------------------------------------------------------------------------
-- Serializers
-- ---------------------------------------------------------------------------

/-- The lengths in `v` fit their prefix, or its encoding is short enough for
every `uint32_t` in its computation to be exact. -/
def Writable {α : Type} (L : Layout α) (v : α) : Prop :=
  L.Fits v ∨ (L.encode v).length < 2 ^ 32

/-- The serializer `f` writes the encoding of `L` and nothing else, and moves
the offset past it. -/
def Serializes {α : Type} (L : Layout α) (f : Memory → Nat → α → Written) : Prop :=
  ∀ dst offset v, Writable L v → offset + (L.encode v).length < 2 ^ 64 →
    f dst offset v = (dst.write offset (L.encode v), offset + (L.encode v).length)

theorem sizeT_eq {n : Nat} (h : n < 2 ^ 64) : sizeT n = n := Nat.mod_eq_of_lt h

theorem uint32_eq {n : Nat} (h : n < 2 ^ 32) : uint32 n = n := Nat.mod_eq_of_lt h

theorem serializeNumber_spec (t : NumType) : Serializes t.layout (serializeNumber t) := by
  intro dst offset v _ hroom
  have hlen : (t.layout.encode v).length = t.sizeof := t.toBytes_length v
  rw [hlen] at hroom ⊢
  simp only [serializeNumber, sizeT_eq hroom]
  rfl

/-- A length prefix is written as a number. -/
theorem serializeNumber_prefix (dst : Memory) {offset n : Nat} (hroom : offset + 4 < 2 ^ 64) :
    serializeNumber .uint32 dst offset (BitVec.ofNat 32 n) =
      (dst.write offset (LittleEndian.encode 4 n), offset + 4) := by
  have hbytes : NumType.uint32.toBytes (BitVec.ofNat 32 n) = LittleEndian.encode 4 n :=
    LittleEndian.encode_mod 4 n
  simp only [serializeNumber, NumType.sizeof, hbytes, sizeT_eq hroom]

theorem serializeString_spec : Serializes (.bytes 4) serializeString := by
  intro dst offset v hv hroom
  have henc : (Layout.bytes 4).encode v = LittleEndian.encode 4 v.length ++ v := rfl
  rw [henc, List.length_append, LittleEndian.encode_length] at hroom ⊢
  have hlen : v.length < 2 ^ 32 := by
    rcases hv with hfits | hshort
    · exact hfits
    · rw [henc, List.length_append] at hshort
      omega
  have htoNat : (BitVec.ofNat 32 v.length).toNat = v.length := by
    rw [BitVec.toNat_ofNat, Nat.mod_eq_of_lt hlen]
  simp only [serializeString, serializeNumber_prefix dst (show offset + 4 < 2 ^ 64 by omega),
    htoNat]
  split
  · rw [List.take_length, sizeT_eq (by omega), Memory.write_append, LittleEndian.encode_length,
      Nat.add_assoc]
  · have hnil : v = [] := List.eq_nil_of_length_eq_zero (by omega)
    simp [hnil]

@[simp] theorem length_flatMap_toBytes (t : NumType) (vs : List t.Value) :
    (vs.flatMap t.toBytes).length = vs.length * t.sizeof := by
  induction vs with
  | nil => simp
  | cons v vs ih =>
    rw [List.flatMap_cons, List.length_append, ih, t.toBytes_length, List.length_cons,
      Nat.succ_mul, Nat.add_comm]

theorem serializeNumberArray_spec (t : NumType) {N : Nat} (fits : N * t.sizeof < 2 ^ 63) :
    Serializes (t.layout.array N) fun dst offset v => serializeNumberArray t N dst offset v.val := by
  rintro dst offset ⟨vs, hN⟩ _ hroom
  have hlen : (vs.flatMap t.toBytes).length = N * t.sizeof := by rw [length_flatMap_toBytes, hN]
  change offset + (vs.flatMap t.toBytes).length < 2 ^ 64 at hroom
  change serializeNumberArray t N dst offset vs =
    (dst.write offset (vs.flatMap t.toBytes), offset + (vs.flatMap t.toBytes).length)
  rw [hlen] at hroom ⊢
  simp only [serializeNumberArray]
  split
  · rw [sizeT_eq (show N * t.sizeof < 2 ^ 64 by omega), sizeT_eq hroom]
  · obtain rfl : N = 0 := by omega
    obtain rfl : vs = [] := List.eq_nil_of_length_eq_zero hN
    simp

/-- The elements of a writable list are writable. -/
theorem Writable.of_mem {α : Type} {L : Layout α} {vs : List α}
    (h : (∀ v ∈ vs, L.Fits v) ∨ (vs.flatMap L.encode).length < 2 ^ 32) :
    ∀ v ∈ vs, Writable L v := by
  intro v hv
  rcases h with hfits | hshort
  · exact .inl (hfits v hv)
  · have hsub : (L.encode v).Sublist (vs.flatMap L.encode) :=
      List.sublist_flatten_of_mem (List.mem_map_of_mem hv)
    exact .inr (Nat.lt_of_le_of_lt hsub.length_le hshort)

theorem serializeEach_spec {α : Type} {L : Layout α} {f : Memory → Nat → α → Written}
    (hf : Serializes L f) {vs : List α} (hvs : ∀ v ∈ vs, Writable L v) (dst : Memory)
    {offset : Nat} (hroom : offset + (vs.flatMap L.encode).length < 2 ^ 64) :
    serializeEach f dst offset vs =
      (dst.write offset (vs.flatMap L.encode), offset + (vs.flatMap L.encode).length) := by
  induction vs generalizing dst offset with
  | nil => rfl
  | cons v vs ih =>
    rw [List.flatMap_cons, List.length_append] at hroom ⊢
    have hhead := hf dst offset v (hvs v List.mem_cons_self) (by omega)
    simp only [serializeEach, hhead]
    rw [ih (fun w hw => hvs w (List.mem_cons_of_mem _ hw)) _ (by omega), Memory.write_append,
      Nat.add_assoc]

/-- Fixed arrays of strings and of messages. -/
theorem serializeEach_array_spec {α : Type} {L : Layout α} {f : Memory → Nat → α → Written}
    (hf : Serializes L f) (N : Nat) :
    Serializes (L.array N) fun dst offset v => serializeEach f dst offset v.val :=
  fun dst _ _ hv hroom => serializeEach_spec hf (Writable.of_mem hv) dst hroom

theorem serializeNumberVector_spec (t : NumType) :
    Serializes (t.layout.counted 4) (serializeNumberVector t) := by
  intro dst offset vs hvs hroom
  have hpos := t.sizeof_pos
  have henc : (t.layout.counted 4).encode vs =
      LittleEndian.encode 4 vs.length ++ vs.flatMap t.toBytes := rfl
  have hmul : vs.length ≤ vs.length * t.sizeof := Nat.le_mul_of_pos_right _ hpos
  rw [henc, List.length_append, LittleEndian.encode_length, length_flatMap_toBytes] at hroom ⊢
  have hcount : vs.length < 2 ^ 32 := by
    rcases hvs with hfits | hshort
    · exact hfits.1
    · rw [henc, List.length_append, length_flatMap_toBytes] at hshort
      omega
  have htoNat : (BitVec.ofNat 32 vs.length).toNat = vs.length := by
    rw [BitVec.toNat_ofNat, Nat.mod_eq_of_lt hcount]
  simp only [serializeNumberVector, serializeNumber_prefix dst (show offset + 4 < 2 ^ 64 by omega),
    htoNat]
  split
  · rw [List.take_length, sizeT_eq (show vs.length * t.sizeof < 2 ^ 64 by omega),
      sizeT_eq (by omega), Memory.write_append, LittleEndian.encode_length, Nat.add_assoc]
  · have hnil : vs = [] := List.eq_nil_of_length_eq_zero (by omega)
    simp [hnil]

/-- Vectors of strings and of messages. -/
theorem serializeCounted_spec {α : Type} {L : Layout α} {f : Memory → Nat → α → Written}
    (hf : Serializes L f) : Serializes (L.counted 4) (serializeCounted f) := by
  intro dst offset vs hvs hroom
  have henc : (L.counted 4).encode vs =
      LittleEndian.encode 4 vs.length ++ vs.flatMap L.encode := rfl
  rw [henc, List.length_append, LittleEndian.encode_length] at hroom ⊢
  have hmem : ∀ v ∈ vs, Writable L v := by
    apply Writable.of_mem
    apply hvs.imp (fun hfits => hfits.2)
    intro hshort
    rw [henc, List.length_append] at hshort
    omega
  simp only [serializeCounted, serializeNumber_prefix dst (show offset + 4 < 2 ^ 64 by omega)]
  rw [serializeEach_spec hf hmem _ (by omega), Memory.write_append, LittleEndian.encode_length,
    Nat.add_assoc]

/-- A class with its first field and the class of the rest. -/
theorem serializeField_spec {α β : Type} {A : Layout α} {B : Layout β}
    {f : Memory → Nat → α → Written} {g : Memory → Nat → β → Written}
    (hf : Serializes A f) (hg : Serializes B g) :
    Serializes (A.pair B) fun dst offset v =>
      g (f dst offset v.1).1 (f dst offset v.1).2 v.2 := by
  rintro dst offset ⟨a, b⟩ hv hroom
  have henc : (A.pair B).encode (a, b) = A.encode a ++ B.encode b := rfl
  rw [henc, List.length_append] at hroom ⊢
  obtain ⟨ha, hb⟩ : Writable A a ∧ Writable B b := by
    rcases hv with ⟨ha, hb⟩ | hshort
    · exact ⟨.inl ha, .inl hb⟩
    · rw [henc, List.length_append] at hshort
      exact ⟨.inr (by omega), .inr (by omega)⟩
  simp only [hf dst offset a ha (by omega)]
  rw [hg _ _ b hb (by omega), Memory.write_append, Nat.add_assoc]

/-- Every serializer writes exactly the encoding of its shape. -/
theorem Shape.serialize_spec (s : Shape) : Serializes s.layout s.serialize := by
  induction s with
  | number t => exact serializeNumber_spec t
  | string => exact serializeString_spec
  | numberArray t N fits => exact serializeNumberArray_spec t fits
  | stringArray N => exact serializeEach_array_spec serializeString_spec N
  | messageArray msg N ih => exact serializeEach_array_spec ih N
  | numberVector t => exact serializeNumberVector_spec t
  | stringVector => exact serializeCounted_spec serializeString_spec
  | messageVector msg ih => exact serializeCounted_spec ih
  | done => intro dst offset v _ _; rfl
  | field first rest ih₁ ih₂ => exact serializeField_spec ih₁ ih₂

-- ---------------------------------------------------------------------------
-- Sizes
-- ---------------------------------------------------------------------------

/-- The size function `f` computes the length of the encoding of `L` in 32 bits. -/
structure Measures {α : Type} (L : Layout α) (f : α → Nat) : Prop where
  mod : ∀ v, uint32 (f v) = uint32 (L.encode v).length
  exact : ∀ v, (L.encode v).length < 2 ^ 32 → f v = (L.encode v).length

/-- A `uint32_t` result measures as soon as it is right modulo `2 ^ 32`. -/
theorem Measures.of_uint32 {α : Type} {L : Layout α} {f : α → Nat}
    (h : ∀ v, f v = uint32 (L.encode v).length) : Measures L f where
  mod v := by rw [h, uint32, uint32, Nat.mod_mod]
  exact v hv := (h v).trans (uint32_eq hv)

theorem uint32_sizeT (n : Nat) : uint32 (sizeT n) = uint32 n :=
  Nat.mod_mod_of_dvd n (by decide)

theorem sizeString_eq (src : List UInt8) :
    sizeString src = uint32 ((Layout.bytes 4).encode src).length := by
  simp [sizeString, uint32_sizeT, Layout.bytes]

theorem sizeNumber_measures (t : NumType) : Measures t.layout (sizeNumber t) := by
  have hlen : ∀ v, (t.layout.encode v).length = t.sizeof := t.toBytes_length
  exact ⟨fun v => by rw [hlen]; rfl, fun v _ => (hlen v).symm⟩

theorem sizeNumberArray_measures (t : NumType) (N : Nat) :
    Measures (t.layout.array N) fun v => sizeNumberArray t N v.val := by
  apply Measures.of_uint32
  rintro ⟨vs, hN⟩
  have hlen : ((t.layout.array N).encode ⟨vs, hN⟩).length = N * t.sizeof :=
    (length_flatMap_toBytes t vs).trans (by rw [hN])
  rw [sizeNumberArray, uint32_sizeT, hlen]

theorem sizeNumberVector_measures (t : NumType) :
    Measures (t.layout.counted 4) (sizeNumberVector t) := by
  apply Measures.of_uint32
  intro vs
  have hlen : ((t.layout.counted 4).encode vs).length = 4 + vs.length * t.sizeof := by
    rw [← length_flatMap_toBytes t vs]
    exact (List.length_append).trans (by rw [LittleEndian.encode_length]; rfl)
  rw [sizeNumberVector, uint32_sizeT, hlen]

/-- The accumulating loop adds the encoded lengths, modulo `2 ^ 32`. -/
theorem sizeEach_eq {α : Type} {L : Layout α} {f : α → Nat}
    (hf : ∀ v, f v = uint32 (L.encode v).length) {size : Nat} (hsize : size < 2 ^ 32)
    (vs : List α) : sizeEach f size vs = uint32 (size + (vs.flatMap L.encode).length) := by
  induction vs generalizing size with
  | nil => simp [sizeEach, uint32_eq hsize]
  | cons v vs ih =>
    have hstep : uint32 (size + f v) < 2 ^ 32 := Nat.mod_lt _ (by decide)
    have htail := ih hstep
    simp only [sizeEach, List.foldl_cons] at htail ⊢
    rw [htail, hf, List.flatMap_cons, List.length_append]
    simp only [uint32]
    omega

/-- Fixed arrays of strings and of messages. -/
theorem sizeEach_array_measures {α : Type} {L : Layout α} {f : α → Nat}
    (hf : ∀ v, f v = uint32 (L.encode v).length) (N : Nat) :
    Measures (L.array N) fun v => sizeEach f 0 v.val := by
  apply Measures.of_uint32
  intro vs
  rw [sizeEach_eq hf (by decide), Nat.zero_add]
  rfl

/-- Vectors of strings and of messages. -/
theorem sizeEach_counted_measures {α : Type} {L : Layout α} {f : α → Nat}
    (hf : ∀ v, f v = uint32 (L.encode v).length) : Measures (L.counted 4) (sizeEach f 4) := by
  apply Measures.of_uint32
  intro vs
  have hlen : ((L.counted 4).encode vs).length = 4 + (vs.flatMap L.encode).length :=
    (List.length_append).trans (by rw [LittleEndian.encode_length])
  rw [sizeEach_eq hf (by decide), hlen]

theorem sizeField_measures {α β : Type} {A : Layout α} {B : Layout β} {f : α → Nat} {g : β → Nat}
    (hf : Measures A f) (hg : Measures B g) :
    Measures (A.pair B) fun v => sizeT (uint32 (f v.1) + g v.2) := by
  have hlen : ∀ v, ((A.pair B).encode v).length = (A.encode v.1).length + (B.encode v.2).length :=
    fun v => List.length_append
  constructor
  · intro v
    have hmod := hg.mod v.2
    rw [uint32_sizeT, hf.mod, hlen]
    simp only [uint32] at hmod ⊢
    omega
  · intro v hv
    rw [hlen] at hv ⊢
    rw [hf.mod, uint32_eq (by omega), hg.exact _ (by omega), sizeT_eq (by omega)]

/-- Every size function measures the encoding of its shape. -/
theorem Shape.size_measures (s : Shape) : Measures s.layout s.size := by
  induction s with
  | number t => exact sizeNumber_measures t
  | string => exact .of_uint32 sizeString_eq
  | numberArray t N fits => exact sizeNumberArray_measures t N
  | stringArray N => exact sizeEach_array_measures sizeString_eq N
  | messageArray msg N ih => exact sizeEach_array_measures ih.mod N
  | numberVector t => exact sizeNumberVector_measures t
  | stringVector => exact sizeEach_counted_measures sizeString_eq
  | messageVector msg ih => exact sizeEach_counted_measures ih.mod
  | done => exact ⟨fun _ => rfl, fun _ _ => rfl⟩
  | field first rest ih₁ ih₂ => exact sizeField_measures ih₁ ih₂

end Rix.Msg
