-- SUMMARY: The laws of the serialization library: round trips both ways, memory safety, and exact sizes, for every shape.
import MBotTeleop.Msg.Messages

/-!
# Laws of the format

Every law is stated on the functions of `Serialization.lean`, at every shape,
and follows from the three specifications `serialize_spec`, `size_measures` and
`deserialize_spec`.
-/

namespace Rix.Msg.Shape

/-- Deserializing what was serialized gives the value back, wherever the bytes
lie and whatever surrounds them, into any destination. -/
theorem deserialize_serialize (s : Shape) (v dst : s.Value) (hv : s.Bounded v)
    (buffer src : Memory) (offset size : Nat) (trace : List Access)
    (hroom : offset + (s.encode v).length ≤ size) (hsize : size < 2 ^ 64)
    (hsrc : ∀ i, offset ≤ i → i < offset + (s.encode v).length →
      src i = (s.serialize buffer offset v).1 i) :
    let r := s.deserialize src size dst ⟨offset, trace⟩
    r.ok = true ∧ r.cursor.offset = (s.serialize buffer offset v).2 ∧ r.dst = v := by
  have hwritten := s.serialize_spec buffer offset v (.inl (layout_fits.mpr hv))
    (Nat.lt_of_le_of_lt hroom hsize)
  have hslice : src.slice offset (s.encode v).length = s.encode v := by
    rw [Memory.slice_congr hsrc, hwritten]
    exact Memory.slice_write ..
  obtain ⟨hok, hdst, hend⟩ := deserialize_encode (c := ⟨offset, trace⟩) hv dst hslice hroom hsize
  exact ⟨hok, by rw [hend, hwritten], hdst⟩

/-- A header after three other bytes, read into an object that held another one. -/
theorem deserialize_serialize_header :
    let s := Message.shape Standard.Header
    let v := Message.toValue { seq := 7, frameId := [0x6d, 0x62] : Standard.Header }
    let written := s.serialize (fun _ => 0xff) 3 v
    let r := s.deserialize written.1 64 (Message.toValue { frameId := [1] : Standard.Header }) ⟨3, []⟩
    r.ok = true ∧ r.cursor.offset = written.2 ∧ r.dst = v := by
  have hbounded : (Message.shape Standard.Header).Bounded
      (Message.toValue { seq := 7, frameId := [0x6d, 0x62] : Standard.Header }) :=
    ⟨trivial, ⟨trivial, trivial, trivial⟩, (by decide : 2 < 2 ^ 32), trivial⟩
  exact deserialize_serialize _ _ _ hbounded _ _ 3 64 [] (by decide) (by decide) fun _ _ _ => rfl

/-- The deserializers accept canonical encodings only: what was accepted is what
the value serializes to. So no proper prefix of it is accepted, and the bytes
consumed determine the value. No C++ object has `2 ^ 63` bytes. -/
theorem serialize_deserialize (s : Shape) (src : Memory) (size offset : Nat) (dst : s.Value)
    (trace : List Access) (hsize : size < 2 ^ 63) (hoffset : offset ≤ size)
    (hok : (s.deserialize src size dst ⟨offset, trace⟩).ok = true) :
    let r := s.deserialize src size dst ⟨offset, trace⟩
    let n := r.cursor.offset - offset
    (∀ buffer,
      (s.serialize buffer offset r.dst).2 = r.cursor.offset ∧
      (s.serialize buffer offset r.dst).1.slice offset n = src.slice offset n) ∧
    (n < 2 ^ 32 → s.size r.dst = n) ∧
    (∀ src' size' dst' trace', offset ≤ size' → size' < r.cursor.offset →
      src'.slice offset (size' - offset) = src.slice offset (size' - offset) →
      (s.deserialize src' size' dst' ⟨offset, trace'⟩).ok = false) ∧
    (∀ src' size' dst' trace', size' < 2 ^ 63 → offset ≤ size' →
      src'.slice offset n = src.slice offset n →
      (s.deserialize src' size' dst' ⟨offset, trace'⟩).ok = true →
      (s.deserialize src' size' dst' ⟨offset, trace'⟩).dst = r.dst ∧
        (s.deserialize src' size' dst' ⟨offset, trace'⟩).cursor.offset = r.cursor.offset) := by
  intro r n
  have hspec := s.deserialize_spec dst
  obtain ⟨hdst, hend⟩ := hspec.of_ok (c := ⟨offset, trace⟩) hsize hoffset hok
  have hle := (hspec.bounds (m := src) (c := ⟨offset, trace⟩) hsize hoffset).2
  change r.dst = s.layout.value src offset at hdst
  change r.cursor.offset = offset + s.layout.extent src offset at hend
  change r.cursor.offset ≤ size at hle
  have hn : n = s.layout.extent src offset := by omega
  have henc : s.encode r.dst = src.slice offset n := by
    rw [hdst, hn]
    exact s.layout.encode_value src offset
  have hlen : (s.encode r.dst).length = n := by rw [henc, Memory.slice_length]
  refine ⟨fun buffer => ?_, fun hshort => ?_, ?_, ?_⟩
  · have hwritten := s.serialize_spec buffer offset r.dst (.inl (hdst ▸ s.layout.fits_view ..))
      (by rw [hlen]; omega)
    rw [hwritten]
    refine ⟨by rw [hlen]; omega, ?_⟩
    rw [← henc, ← hlen]
    exact Memory.slice_write ..
  · have := s.size_measures.exact r.dst (by rw [hlen]; exact hshort)
    rwa [hlen] at this
  · intro src' size' dst' trace' hoffset' hsize' hsrc'
    by_contra hok'
    have hfit := ((s.deserialize_spec dst').ok_iff (c := ⟨offset, trace'⟩) (by omega) hoffset').mp
      (by simpa using hok')
    change offset + s.layout.extent src' offset ≤ size' at hfit
    -- the shorter source would hold a value that ends earlier, and `src` would hold it too
    have hsame : s.layout.view src offset = s.layout.view src' offset :=
      s.layout.view_congr fun i hlo hhi => Memory.slice_eq_iff.mp hsrc' i hlo (by omega)
    have hext : s.layout.extent src offset = s.layout.extent src' offset := congrArg Prod.snd hsame
    omega
  · intro src' size' dst' trace' hsize' hoffset' hsrc' hok'
    obtain ⟨hdst', hend'⟩ := (s.deserialize_spec dst').of_ok (c := ⟨offset, trace'⟩) hsize' hoffset' hok'
    have hsame : s.layout.view src' offset = s.layout.view src offset :=
      s.layout.view_congr fun i hlo hhi => (Memory.slice_eq_iff.mp hsrc' i hlo (by omega)).symm
    rw [hsame] at hdst' hend'
    exact ⟨hdst'.trans hdst.symm, hend'.trans hend.symm⟩

/-- A string of two bytes, and bytes that do not belong to it. -/
theorem serialize_deserialize_string :
    (string.serialize (fun _ => 0) 1 [0x41, 0x42]).2 = 7 ∧
      (string.serialize (fun _ => 0) 1 [0x41, 0x42]).1.slice 1 6 = [2, 0, 0, 0, 0x41, 0x42] :=
  (serialize_deserialize string (Memory.ofList [9, 2, 0, 0, 0, 0x41, 0x42, 8]) 8 1 [] []
    (by decide) (by decide) rfl).1 _

/-- `size()` is the length of the encoding, the serializer ends that far from
where it began, fills exactly these bytes and changes no other. -/
theorem serialize_size (s : Shape) (v : s.Value) (hshort : (s.encode v).length < 2 ^ 32)
    (buffer : Memory) (offset capacity : Nat) (hroom : offset + s.size v ≤ capacity)
    (hcapacity : capacity < 2 ^ 64) :
    (s.serialize buffer offset v).2 = offset + s.size v ∧
    (s.serialize buffer offset v).1.slice offset (s.size v) = s.encode v ∧
    (∀ i, i < offset ∨ offset + s.size v ≤ i → (s.serialize buffer offset v).1 i = buffer i) := by
  have hsize : s.size v = (s.encode v).length := s.size_measures.exact v hshort
  have hwritten := s.serialize_spec buffer offset v (.inr hshort) (by rw [← hsize]; omega)
  rw [hwritten, hsize]
  exact ⟨rfl, Memory.slice_write .., fun i hi => Memory.write_frame _ _ _ hi⟩

theorem serialize_size_header :
    let s := Message.shape Standard.Header
    let v := Message.toValue { seq := 7, frameId := [0x6d, 0x62] : Standard.Header }
    (s.serialize (fun _ => 0xff) 3 v).2 = 3 + s.size v ∧
      (s.serialize (fun _ => 0xff) 3 v).1.slice 3 (s.size v) = s.encode v :=
  have hsize := serialize_size (Message.shape Standard.Header)
    (Message.toValue { seq := 7, frameId := [0x6d, 0x62] : Standard.Header }) (by decide)
    (fun _ => 0xff) 3 64 (by decide) (by decide)
  ⟨hsize.1, hsize.2.1⟩

end Rix.Msg.Shape
