-- SUMMARY: How long a vector decoder can make its destination, and which decoders check the count before they resize.
import Mathlib.Order.Bounds.Defs
import MBotTeleop.Msg.Allocation

/-!
# Growth of vectors

A count read from the wire is bounded by what follows it: every element takes at
least the minimum size of its kind. A decoder that checks this before it resizes
never makes its destination longer than its input can hold.
-/

namespace Rix.Msg

-- ---------------------------------------------------------------------------
-- Minimum sizes
-- ---------------------------------------------------------------------------

namespace Shape

/-- The least number of bytes that a value of the shape is encoded to. -/
def minSize : Shape → Nat
  | number t => t.sizeof
  | string | numberVector _ | stringVector | messageVector _ => 4
  | numberArray t N _ => N * t.sizeof
  | stringArray N => N * 4
  | messageArray msg N => N * msg.minSize
  | done => 0
  | field first rest => first.minSize + rest.minSize

theorem le_viewEach_extent {α : Type} {L : Layout α} {m : Memory} {least : Nat}
    (h : ∀ o, least ≤ L.extent m o) (n o : Nat) : n * least ≤ (L.viewEach m n o).2 := by
  induction n generalizing o with
  | zero => exact Nat.le_of_eq (Nat.zero_mul _)
  | succ n ih =>
    have hhead := h o
    have htail := ih (o + L.extent m o)
    simp only [Layout.viewEach, Nat.succ_mul]
    unfold Layout.extent at hhead htail
    omega

theorem bytes_extent (m : Memory) (o : Nat) : 4 ≤ (Layout.bytes 4).extent m o :=
  Nat.le_add_right ..

/-- No value takes less, whatever bytes announce it. -/
theorem minSize_le_extent (s : Shape) (m : Memory) (o : Nat) : s.minSize ≤ s.layout.extent m o := by
  induction s generalizing o with
  | number t => exact Nat.le_refl _
  | string => exact bytes_extent m o
  | numberArray t N fits => exact le_viewEach_extent (fun _ => Nat.le_refl _) N o
  | stringArray N => exact le_viewEach_extent (bytes_extent m) N o
  | messageArray msg N ih => exact le_viewEach_extent ih N o
  | numberVector t | stringVector | messageVector msg => exact Nat.le_add_right ..
  | done => exact Nat.le_refl _
  | field first rest ih₁ ih₂ => exact Nat.add_le_add (ih₁ o) (ih₂ _)

theorem length_flatMap_replicate {α : Type} (f : α → List UInt8) (N : Nat) (v : α) :
    ((List.replicate N v).flatMap f).length = N * (f v).length := by
  simp only [List.length_flatMap, List.map_replicate, List.sum_replicate_nat]

/-- The value-initialised object takes no more. -/
theorem length_encode_default (s : Shape) : (s.encode s.default).length = s.minSize := by
  induction s with
  | number t => exact t.toBytes_length _
  | string => rfl
  | numberArray t N fits =>
    exact (length_flatMap_replicate _ N _).trans (congrArg (N * ·) (t.toBytes_length 0))
  | stringArray N => exact length_flatMap_replicate _ N _
  | messageArray msg N ih => exact (length_flatMap_replicate _ N _).trans (congrArg (N * ·) ih)
  | numberVector t | stringVector | messageVector msg => rfl
  | done => rfl
  | field first rest ih₁ ih₂ =>
    change (first.encode first.default ++ rest.encode rest.default).length = _
    rw [List.length_append, ih₁, ih₂]
    rfl

theorem bounded_default (s : Shape) : s.Bounded s.default := by
  induction s with
  | number t | numberArray t N fits | done => trivial
  | string | numberVector t => exact Nat.two_pow_pos 32
  | stringArray N =>
    intro x hx
    rw [List.eq_of_mem_replicate hx]
    exact Nat.two_pow_pos 32
  | messageArray msg N ih =>
    intro x hx
    rwa [List.eq_of_mem_replicate hx]
  | stringVector | messageVector msg => exact ⟨Nat.two_pow_pos 32, nofun⟩
  | field first rest ih₁ ih₂ => exact ⟨ih₁, ih₂⟩

/-- It is the least length of an encoding. -/
theorem isLeast_minSize (s : Shape) :
    IsLeast {n | ∃ v, s.Bounded v ∧ (s.encode v).length = n} s.minSize := by
  refine ⟨⟨s.default, s.bounded_default, s.length_encode_default⟩, ?_⟩
  rintro n ⟨v, hv, rfl⟩
  have hview := s.layout.view_encode (layout_fits.mpr hv) (Memory.slice_ofList (s.encode v))
  have hle := s.minSize_le_extent (Memory.ofList (s.encode v)) 0
  rwa [Layout.extent, hview] at hle

end Shape

-- ---------------------------------------------------------------------------
-- The law
-- ---------------------------------------------------------------------------

/-- The count at an offset, if there are bytes for it, is one that the bytes
after it can satisfy, at `least` bytes for an element. -/
def Satisfiable (least : Nat) (src : Memory) (size offset : Nat) : Prop :=
  offset + 4 ≤ size → Layout.announced 4 src offset * least ≤ size - offset - 4

/-- A run into `dst` that ended in `r` kept to the law: the destination is not
longer than before or than the input can hold, and a count that cannot be
satisfied is rejected before anything is resized. -/
structure Contained (least : Nat) (src : Memory) (size offset : Nat) {α : Type} (dst : List α)
    (trace : List Access) (r : Result (List α)) : Prop where
  bounded : r.dst.length ≤ max dst.length ((size - offset) / least)
  checked : ¬ Satisfiable least src size offset →
    r.ok = false ∧ requests r.cursor.trace = requests trace

variable {src : Memory} {size offset : Nat} {trace : List Access}

/-- The count is read where there are bytes for it. -/
theorem count_ok_iff (src : Memory) (trace : List Access) (hsize : size < 2 ^ 63)
    (hoffset : offset ≤ size) :
    (deserializeNumber .uint32 src size 0 ⟨offset, trace⟩).ok = true ↔ offset + 4 ≤ size :=
  (deserializeNumber_spec .uint32 0).ok_iff (c := ⟨offset, trace⟩) hsize hoffset

theorem count_value (hsize : size < 2 ^ 63) (hoffset : offset ≤ size)
    (hok : (deserializeNumber .uint32 src size 0 ⟨offset, trace⟩).ok = true) :
    (deserializeNumber .uint32 src size 0 ⟨offset, trace⟩).dst.toNat =
      Layout.announced 4 src offset := by
  have hof := (deserializeNumber_spec .uint32 0).of_ok (c := ⟨offset, trace⟩) hsize hoffset hok
  rw [hof.1]
  exact layout_uint32_value src offset

/-- A vector that cannot be satisfied is rejected, by each of the decoders. -/
theorem reject_of_not_satisfiable {α : Type} {L : Layout α} {least : Nat}
    {f : Memory → Nat → List α → Cursor → Result (List α)} (hf : Deserializes (L.counted 4) f)
    (hleast : ∀ o, least ≤ L.extent src o) (hsize : size < 2 ^ 63) (hoffset : offset ≤ size)
    (hnot : ¬ Satisfiable least src size offset) (dst : List α) (trace : List Access) :
    (f src size dst ⟨offset, trace⟩).ok = false := by
  have hextent := Shape.le_viewEach_extent hleast (Layout.announced 4 src offset) (offset + 4)
  apply (hf dst).reject (c := ⟨offset, trace⟩) hsize hoffset
  change size < offset + (4 + (L.viewEach src (Layout.announced 4 src offset) (offset + 4)).2)
  unfold Satisfiable at hnot
  omega

/-- What a satisfiable count can resize a destination to. -/
theorem satisfiable_bounded {least : Nat} (hpos : 0 < least)
    (h : Satisfiable least src size offset) (hcount : offset + 4 ≤ size) :
    Layout.announced 4 src offset ≤ (size - offset) / least := by
  rw [Nat.le_div_iff_mul_le hpos]
  have := h hcount
  omega

/-- A vector of numbers is left alone where it is rejected. -/
theorem deserializeNumberVector_rejected (t : NumType) (dst : List t.Value) {c : Cursor}
    (h : (deserializeNumberVector t src size dst c).ok = false) :
    (deserializeNumberVector t src size dst c).dst = dst := by
  unfold deserializeNumberVector at h ⊢
  simp only at h ⊢
  split
  · rename_i hcount
    rw [if_pos hcount] at h
    exact if_neg (Bool.not_eq_true _ ▸ h)
  · rfl

/-- `deserialize_number_vector` keeps to the law. -/
theorem numberVector_contained (t : NumType) (dst : List t.Value) (hsize : size < 2 ^ 63)
    (hoffset : offset ≤ size) :
    Contained t.sizeof src size offset dst trace
      (deserializeNumberVector t src size dst ⟨offset, trace⟩) := by
  have hspec := deserializeNumberVector_spec t
  have hreject (hnot : ¬ Satisfiable t.sizeof src size offset) :=
    reject_of_not_satisfiable hspec (fun _ => Nat.le_refl _) hsize hoffset hnot dst trace
  have hiff := (hspec dst).ok_iff (m := src) (c := ⟨offset, trace⟩) hsize hoffset
  constructor
  · cases hok : (deserializeNumberVector t src size dst ⟨offset, trace⟩).ok with
    | true =>
      have hsat : Satisfiable t.sizeof src size offset := by
        by_contra hnot
        rw [hreject hnot] at hok
        cases hok
      have hcount : offset + 4 ≤ size :=
        Nat.le_trans (Nat.add_le_add_left (Nat.le_add_right ..) offset) (hiff.mp hok)
      rw [((hspec dst).of_ok (c := ⟨offset, trace⟩) hsize hoffset hok).1]
      change (t.layout.viewEach src (Layout.announced 4 src offset) (offset + 4)).1.length ≤ _
      rw [Layout.viewEach_length]
      exact Nat.le_trans (satisfiable_bounded t.sizeof_pos hsat hcount) (Nat.le_max_right ..)
    | false =>
      rw [deserializeNumberVector_rejected t dst hok]
      exact Nat.le_max_left ..
  · intro hnot
    have hrejected := hreject hnot
    have hfit : ¬ offset + (t.layout.counted 4).extent src offset ≤ size := fun hfit => by
      rw [hiff.mpr hfit] at hrejected
      cases hrejected
    refine ⟨hrejected, ?_⟩
    rw [(deserializeNumberVector_asks t dst).made hsize hoffset, asksNumbers, if_neg hfit,
      List.append_nil]

/-- The other vectors are as long as announced, as soon as the count was read. -/
theorem deserializeCounted_length {α : Type} (f : Memory → Nat → α → Cursor → Result α) (fill : α)
    (dst : List α) (trace : List Access) (hsize : size < 2 ^ 63) (hoffset : offset ≤ size) :
    (deserializeCounted f fill src size dst ⟨offset, trace⟩).dst.length =
      if offset + 4 ≤ size then Layout.announced 4 src offset else dst.length := by
  have hiff := count_ok_iff src trace hsize hoffset
  unfold deserializeCounted
  simp only
  split
  · rename_i hok
    rw [deserializeEach_length, resize_length, count_value hsize hoffset hok, if_pos (hiff.mp hok)]
  · rename_i hnot
    rw [if_neg fun hcount => hnot (hiff.mpr hcount)]

section Counted

variable {α : Type} {L : Layout α} {asks : Memory → Nat → Nat → List Nat}
  {f : Memory → Nat → α → Cursor → Result α} {least : Nat}

/-- They keep to the law only where the count can be satisfied. -/
theorem counted_contained_iff (hf : Deserializes L f)
    (hasks : ∀ dst, Asks asks fun src size c => f src size dst c) (hpos : 0 < least) (fill : α)
    (dst : List α) (hsize : size < 2 ^ 63) (hoffset : offset ≤ size) :
    Contained least src size offset dst trace
        (deserializeCounted f fill src size dst ⟨offset, trace⟩) ↔
      Satisfiable least src size offset := by
  constructor
  · intro h
    by_contra hnot
    -- the vector was resized as soon as its count was read
    have hcount : offset + 4 ≤ size := (Classical.not_imp.mp hnot).1
    have hsame := (h.checked hnot).2
    rw [(deserializeCounted_asks hf hasks fill dst).made hsize hoffset, asksCounted,
      if_pos hcount] at hsame
    exact List.cons_ne_nil _ _ (List.self_eq_append_right.mp hsame.symm)
  · intro h
    refine ⟨?_, fun hnot => (hnot h).elim⟩
    rw [deserializeCounted_length f fill dst trace hsize hoffset]
    split
    · rename_i hcount
      exact Nat.le_trans (satisfiable_bounded hpos h hcount) (Nat.le_max_right ..)
    · exact Nat.le_max_left ..

/-- Where it cannot be satisfied they do reject it, with all the elements it
announces in the destination. -/
theorem counted_rejected (hf : Deserializes L f) (hleast : ∀ o, least ≤ L.extent src o) (fill : α)
    (dst : List α) (hsize : size < 2 ^ 63) (hoffset : offset ≤ size)
    (hnot : ¬ Satisfiable least src size offset) :
    (deserializeCounted f fill src size dst ⟨offset, trace⟩).ok = false ∧
      (deserializeCounted f fill src size dst ⟨offset, trace⟩).dst.length =
        Layout.announced 4 src offset := by
  refine ⟨reject_of_not_satisfiable (deserializeCounted_spec hf fill) hleast hsize hoffset hnot dst
    trace, ?_⟩
  rw [deserializeCounted_length f fill dst trace hsize hoffset,
    if_pos (Classical.not_imp.mp hnot).1]

end Counted

/-- In every run the number vectors keep to the law. The vectors of strings and
of messages keep to it exactly where the count can be satisfied. Every message
class takes at least four bytes. -/
theorem vectors_contained (src : Memory) (size offset : Nat) (trace : List Access)
    (hsize : size < 2 ^ 63) (hoffset : offset ≤ size) :
    (∀ (t : NumType) (dst : List t.Value),
      Contained t.sizeof src size offset dst trace
        (deserializeNumberVector t src size dst ⟨offset, trace⟩)) ∧
    (∀ dst : List (List UInt8),
      Contained 4 src size offset dst trace
          (deserializeStringVector src size dst ⟨offset, trace⟩) ↔
        Satisfiable 4 src size offset) ∧
    (∀ (msg : Shape) (dst : List msg.Value), 0 < msg.minSize →
      IsLeast {n | ∃ v, msg.Bounded v ∧ (msg.encode v).length = n} msg.minSize ∧
      (Contained msg.minSize src size offset dst trace
          (deserializeMessageVector msg.deserialize msg.default src size dst ⟨offset, trace⟩) ↔
        Satisfiable msg.minSize src size offset)) ∧
    (∀ msg ∈ [Message.shape Standard.UInt32, Message.shape Standard.Time,
        Message.shape Standard.Duration, Message.shape Standard.Header,
        Message.shape Geometry.Twist2D, Message.shape Geometry.Twist2DStamped],
      4 ≤ msg.minSize) := by
  refine ⟨fun t dst => numberVector_contained t dst hsize hoffset, fun dst => ?_,
    fun msg dst hpos => ?_, by decide⟩
  · exact counted_contained_iff deserializeString_spec deserializeString_asks (by decide) [] dst
      hsize hoffset
  · exact ⟨msg.isLeast_minSize, counted_contained_iff msg.deserialize_spec msg.deserialize_asks hpos
      msg.default dst hsize hoffset⟩

/-- Two strings announced and none given. -/
theorem stringVector_grows :
    ¬ Contained 4 (Memory.ofList [2, 0, 0, 0]) 4 0 [] []
      (deserializeStringVector (Memory.ofList [2, 0, 0, 0]) 4 [] ⟨0, []⟩) := by
  intro h
  have hbounded := h.bounded
  revert hbounded
  decide

/-- A vector of one string that is there. -/
theorem vectors_contained_example :
    Contained 4 (Memory.ofList [1, 0, 0, 0, 1, 0, 0, 0, 0x41]) 9 0 [] []
      (deserializeStringVector (Memory.ofList [1, 0, 0, 0, 1, 0, 0, 0, 0x41]) 9 [] ⟨0, []⟩) :=
  ((vectors_contained (Memory.ofList [1, 0, 0, 0, 1, 0, 0, 0, 0x41]) 9 0 [] (by decide)
    (by decide)).2.1 []).mpr fun _ => by decide

end Rix.Msg
