-- SUMMARY: Self-delimiting layouts of values in byte memories, closed under pairs, arrays and counted lists.
import MBotTeleop.Lib.Bytes

/-!
# Layouts

A layout says how the values of a type lie in memory: how a value is encoded,
and what value, of what extent, a memory holds at an offset. `view` reads
without any bound, as if the memory were complete, so it also says how far an
encoding that has been cut off would reach.
-/

structure Layout (α : Type) where
  encode : α → List UInt8
  /-- The values that their encoding determines: every length in them fits its
  prefix. -/
  Fits : α → Prop
  /-- The value at an offset and its extent. -/
  view : Memory → Nat → α × Nat
  view_encode : ∀ {m : Memory} {o : Nat} {v : α}, Fits v →
    m.slice o (encode v).length = encode v → view m o = (v, (encode v).length)
  encode_view : ∀ (m : Memory) (o : Nat), encode (view m o).1 = m.slice o (view m o).2
  fits_view : ∀ (m : Memory) (o : Nat), Fits (view m o).1

namespace Layout

variable {α β : Type}

/-- The extent of the value at an offset. -/
def extent (L : Layout α) (m : Memory) (o : Nat) : Nat := (L.view m o).2

/-- The value at an offset. -/
def value (L : Layout α) (m : Memory) (o : Nat) : α := (L.view m o).1

theorem encode_value (L : Layout α) (m : Memory) (o : Nat) :
    L.encode (L.value m o) = m.slice o (L.extent m o) := L.encode_view m o

@[simp] theorem length_encode_value (L : Layout α) (m : Memory) (o : Nat) :
    (L.encode (L.value m o)).length = L.extent m o := by
  rw [encode_value, Memory.slice_length]

/-- What a memory holds at an offset depends only on the bytes of its extent. -/
theorem view_congr (L : Layout α) {m m' : Memory} {o : Nat}
    (h : ∀ i, o ≤ i → i < o + L.extent m o → m i = m' i) : L.view m' o = L.view m o := by
  have henc : m'.slice o (L.encode (L.value m o)).length = L.encode (L.value m o) := by
    rw [length_encode_value, encode_value]
    exact (Memory.slice_congr h).symm
  rw [L.view_encode (L.fits_view m o) henc]
  simp only [L.encode_view, Memory.slice_length]

-- ---------------------------------------------------------------------------
-- Fixed blocks
-- ---------------------------------------------------------------------------

/-- A block of `w` bytes. -/
def block (w : Nat) (toBytes : α → List UInt8) (ofBytes : List UInt8 → α)
    (hlen : ∀ v, (toBytes v).length = w) (hleft : ∀ v, ofBytes (toBytes v) = v)
    (hright : ∀ bytes, bytes.length = w → toBytes (ofBytes bytes) = bytes) : Layout α where
  encode := toBytes
  Fits _ := True
  view m o := (ofBytes (m.slice o w), w)
  view_encode := by
    intro m o v _ h
    rw [hlen] at h
    rw [h, hleft, hlen]
  encode_view m o := hright _ (Memory.slice_length m o w)
  fits_view _ _ := trivial

/-- No bytes at all. -/
def unit : Layout Unit where
  encode _ := []
  Fits _ := True
  view _ _ := ((), 0)
  view_encode := by intro _ _ _ _ _; rfl
  encode_view _ _ := rfl
  fits_view _ _ := trivial

-- ---------------------------------------------------------------------------
-- Sequences
-- ---------------------------------------------------------------------------

/-- Slices of a concatenation are slices of its parts. -/
private theorem slice_append {m : Memory} {o : Nat} {as bs : List UInt8}
    (h : m.slice o (as ++ bs).length = as ++ bs) :
    m.slice o as.length = as ∧ m.slice (o + as.length) bs.length = bs := by
  rw [List.length_append, Memory.slice_add] at h
  exact List.append_inj h (by simp)

/-- One value after another. -/
def pair (A : Layout α) (B : Layout β) : Layout (α × β) where
  encode v := A.encode v.1 ++ B.encode v.2
  Fits v := A.Fits v.1 ∧ B.Fits v.2
  view m o :=
    let a := A.view m o
    let b := B.view m (o + a.2)
    ((a.1, b.1), a.2 + b.2)
  view_encode := by
    rintro m o ⟨a, b⟩ ⟨ha, hb⟩ h
    obtain ⟨hsa, hsb⟩ := slice_append h
    simp only [A.view_encode ha hsa, B.view_encode hb hsb, List.length_append]
  encode_view m o := by simp only [A.encode_view, B.encode_view, Memory.slice_add]
  fits_view m o := ⟨A.fits_view .., B.fits_view ..⟩

/-- The `n` values that lie one after another from an offset on, and their extent. -/
def viewEach (A : Layout α) (m : Memory) : Nat → Nat → List α × Nat
  | 0, _ => ([], 0)
  | n + 1, o =>
    let a := A.view m o
    let as := viewEach A m n (o + a.2)
    (a.1 :: as.1, a.2 + as.2)

@[simp] theorem viewEach_length (A : Layout α) (m : Memory) (n o : Nat) :
    (viewEach A m n o).1.length = n := by
  induction n generalizing o with
  | zero => rfl
  | succ n ih => simp [viewEach, ih]

theorem viewEach_encode (A : Layout α) {m : Memory} {o : Nat} {vs : List α}
    (hvs : ∀ v ∈ vs, A.Fits v)
    (h : m.slice o (vs.flatMap A.encode).length = vs.flatMap A.encode) :
    viewEach A m vs.length o = (vs, (vs.flatMap A.encode).length) := by
  induction vs generalizing o with
  | nil => rfl
  | cons v vs ih =>
    rw [List.flatMap_cons] at h ⊢
    obtain ⟨hv, hrest⟩ := slice_append h
    have hhead := A.view_encode (hvs v List.mem_cons_self) hv
    have htail := ih (fun w hw => hvs w (List.mem_cons_of_mem _ hw)) hrest
    simp only [List.length_cons, viewEach, hhead, htail, List.length_append]

theorem encode_viewEach (A : Layout α) (m : Memory) (n o : Nat) :
    (viewEach A m n o).1.flatMap A.encode = m.slice o (viewEach A m n o).2 := by
  induction n generalizing o with
  | zero => rfl
  | succ n ih => simp only [viewEach, List.flatMap_cons, A.encode_view, ih, Memory.slice_add]

theorem fits_viewEach (A : Layout α) (m : Memory) (n o : Nat) :
    ∀ v ∈ (viewEach A m n o).1, A.Fits v := by
  induction n generalizing o with
  | zero => intro v hv; cases hv
  | succ n ih =>
    intro v hv
    cases hv with
    | head => exact A.fits_view m o
    | tail _ hv => exact ih _ v hv

/-- Exactly `n` values. -/
def array (A : Layout α) (n : Nat) : Layout { vs : List α // vs.length = n } where
  encode vs := vs.val.flatMap A.encode
  Fits vs := ∀ v ∈ vs.val, A.Fits v
  view m o := (⟨(viewEach A m n o).1, viewEach_length A m n o⟩, (viewEach A m n o).2)
  view_encode := by
    rintro m o ⟨vs, rfl⟩ hvs h
    simp only [viewEach_encode A hvs h]
  encode_view m o := encode_viewEach A m n o
  fits_view m o := fits_viewEach A m n o

-- ---------------------------------------------------------------------------
-- Lengths that are data
-- ---------------------------------------------------------------------------

/-- The length that a `w`-byte little-endian prefix announces. -/
def announced (w : Nat) (m : Memory) (o : Nat) : Nat := LittleEndian.decode (m.slice o w)

theorem announced_lt (w : Nat) (m : Memory) (o : Nat) : announced w m o < 256 ^ w := by
  simpa [announced] using LittleEndian.decode_lt (m.slice o w)

theorem encode_announced (w : Nat) (m : Memory) (o : Nat) :
    LittleEndian.encode w (announced w m o) = m.slice o w := by
  simpa [announced] using LittleEndian.encode_decode (m.slice o w)

theorem announced_encode {w n : Nat} {m : Memory} {o : Nat} (hn : n < 256 ^ w)
    (h : m.slice o w = LittleEndian.encode w n) : announced w m o = n := by
  rw [announced, h, LittleEndian.decode_encode, Nat.mod_eq_of_lt hn]

/-- A list of values after the `w`-byte count of them. -/
def counted (w : Nat) (A : Layout α) : Layout (List α) where
  encode vs := LittleEndian.encode w vs.length ++ vs.flatMap A.encode
  Fits vs := vs.length < 256 ^ w ∧ ∀ v ∈ vs, A.Fits v
  view m o :=
    let vs := viewEach A m (announced w m o) (o + w)
    (vs.1, w + vs.2)
  view_encode := by
    rintro m o vs ⟨hlen, hvs⟩ h
    obtain ⟨hcount, hdata⟩ := slice_append h
    rw [LittleEndian.encode_length] at hcount hdata
    simp only [announced_encode hlen hcount, viewEach_encode A hvs hdata, List.length_append,
      LittleEndian.encode_length]
  encode_view m o := by
    simp only [viewEach_length, encode_announced, encode_viewEach, Memory.slice_add]
  fits_view m o := ⟨by simpa using announced_lt w m o, fits_viewEach A m _ _⟩

/-- Bytes after the `w`-byte count of them. -/
def bytes (w : Nat) : Layout (List UInt8) where
  encode bs := LittleEndian.encode w bs.length ++ bs
  Fits bs := bs.length < 256 ^ w
  view m o := (m.slice (o + w) (announced w m o), w + announced w m o)
  view_encode := by
    intro m o bs hlen h
    obtain ⟨hcount, hdata⟩ := slice_append h
    rw [LittleEndian.encode_length] at hcount hdata
    simp only [announced_encode hlen hcount, hdata, List.length_append,
      LittleEndian.encode_length]
  encode_view m o := by
    simp only [Memory.slice_length, encode_announced, Memory.slice_add]
  fits_view m o := by simpa using announced_lt w m o

end Layout
