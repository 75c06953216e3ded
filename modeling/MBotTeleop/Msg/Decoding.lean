-- SUMMARY: The deserializers read exactly the layout of their shape, inside the bounds they are given.
import MBotTeleop.Msg.Format

/-!
# Decoding

`Reads g f` says everything about a deserializer `f` that its callers rely on:
it accepts exactly when the view `g` of the source fits in `size`, it then
returns that view, it touches nothing outside its bounds, and it depends only
on the bytes it read. It is proved for the step all primitives share and for
the ways the deserializers are put together, and follows for every shape.
-/

namespace Rix.Msg

/-- The access stays inside `[lo, size)`, or computes a `size_t` without wrapping. -/
def Access.Safe (lo size : Nat) : Access → Prop
  | read offset n => lo ≤ offset ∧ offset + n ≤ size
  | sum a b => a + b < 2 ^ 64
  | product a b => a * b < 2 ^ 64
  | resize _ => True

/-- The two memories hold the same bytes wherever the access reads. -/
def Access.Agree (src src' : Memory) : Access → Prop
  | read offset n => ∀ i, offset ≤ i → i < offset + n → src i = src' i
  | _ => True

theorem Access.Safe.mono {lo lo' size : Nat} (h : lo ≤ lo') {a : Access} (ha : a.Safe lo' size) :
    a.Safe lo size := by
  cases a with
  | read offset n => exact ⟨Nat.le_trans h ha.1, ha.2⟩
  | sum a b => exact ha
  | product a b => exact ha
  | resize n => trivial

variable {α β : Type}

/-- The deserializer `f` reads the view `g` of its source. -/
structure Reads (g : Memory → Nat → α × Nat) (f : Memory → Nat → Cursor → Result α) : Prop where
  accept : ∀ {m n c}, n < 2 ^ 64 → c.offset + (g m c.offset).2 ≤ n →
    (f m n c).ok = true ∧ (f m n c).dst = (g m c.offset).1 ∧
      (f m n c).cursor.offset = c.offset + (g m c.offset).2
  reject : ∀ {m n c}, n < 2 ^ 63 → c.offset ≤ n →
    n < c.offset + (g m c.offset).2 → (f m n c).ok = false
  bounds : ∀ {m n c}, n < 2 ^ 63 → c.offset ≤ n →
    c.offset ≤ (f m n c).cursor.offset ∧ (f m n c).cursor.offset ≤ n
  safe : ∀ {m n c}, n < 2 ^ 63 → c.offset ≤ n →
    ∀ a ∈ (f m n c).cursor.trace, a ∈ c.trace ∨ a.Safe c.offset n
  keeps : ∀ {m n c}, c.trace <:+ (f m n c).cursor.trace
  determined : ∀ {m m' n c}, (∀ a ∈ (f m n c).cursor.trace, a.Agree m m') →
    f m' n c = f m n c

namespace Reads

variable {g : Memory → Nat → α × Nat} {f : Memory → Nat → Cursor → Result α}

/-- A deserializer accepts exactly the sources whose announced value fits. -/
theorem ok_iff (h : Reads g f) {m : Memory} {n : Nat} {c : Cursor} (hsize : n < 2 ^ 63)
    (hc : c.offset ≤ n) :
    (f m n c).ok = true ↔ c.offset + (g m c.offset).2 ≤ n := by
  constructor
  · intro hok
    by_contra hlt
    rw [h.reject hsize hc (by omega)] at hok
    cases hok
  · exact fun hfit => (h.accept (by omega) hfit).1

/-- What an accepting run returns. -/
theorem of_ok (h : Reads g f) {src : Memory} {size : Nat} {c : Cursor} (hsize : size < 2 ^ 63)
    (hc : c.offset ≤ size) (hok : (f src size c).ok = true) :
    (f src size c).dst = (g src c.offset).1 ∧
      (f src size c).cursor.offset = c.offset + (g src c.offset).2 :=
  (h.accept (by omega) ((h.ok_iff hsize hc).mp hok)).2

/-- Reading nothing. -/
theorem pure (a : α) : Reads (fun _ _ => (a, 0)) fun _ _ c => ⟨true, a, c⟩ where
  accept _ _ := ⟨rfl, rfl, rfl⟩
  reject _ hc hlt := by omega
  bounds _ hc := ⟨Nat.le_refl _, hc⟩
  safe _ _ _ ha := .inl ha
  keeps := List.suffix_rfl
  determined _ := rfl

/-- What happens to the destination of a failed run does not matter, and an
accepted value may be converted. -/
theorem post (h : Reads g f) (F : Result α → Result β) (φ : α → β)
    (hok : ∀ r, (F r).ok = r.ok) (hcursor : ∀ r, (F r).cursor = r.cursor)
    (hdst : ∀ r, r.ok = true → (F r).dst = φ r.dst) :
    Reads (fun m o => (φ (g m o).1, (g m o).2)) fun src size c => F (f src size c) where
  accept hsize hfit := by
    obtain ⟨h₁, h₂, h₃⟩ := h.accept hsize hfit
    exact ⟨(hok _).trans h₁, (hdst _ h₁).trans (congrArg φ h₂), (congrArg _ (hcursor _)).trans h₃⟩
  reject hsize hc hlt := (hok _).trans (h.reject hsize hc hlt)
  bounds hsize hc := by
    rw [hcursor]
    exact h.bounds hsize hc
  safe hsize hc := by
    rw [hcursor]
    exact h.safe hsize hc
  keeps := by
    intro m n c
    rw [hcursor]
    exact h.keeps
  determined hagree := by
    rw [hcursor] at hagree
    exact congrArg F (h.determined hagree)

/-- Products are computed before the bytes they measure are asked for, and a
vector is resized before its elements are. -/
theorem logged (h : Reads g f) {a : Access} (ha : ∀ lo size, a.Safe lo size) :
    Reads g fun src size c => f src size (c.log a) where
  accept hsize hfit := h.accept hsize hfit
  reject hsize hc hlt := h.reject hsize hc hlt
  bounds := by
    intro src size c hsize hc
    exact h.bounds (c := c.log a) hsize hc
  safe := by
    intro src size c hsize hc x hx
    rcases h.safe (c := c.log a) hsize hc x hx with hmem | hsafe
    · cases hmem with
      | head => exact .inr (ha ..)
      | tail _ hmem => exact .inl hmem
    · exact .inr hsafe
  keeps := by
    intro src size c
    exact (List.suffix_cons a c.trace).trans (h.keeps (c := c.log a))
  determined hagree := h.determined hagree

/-- One deserializer after another, the second chosen by what the first read. -/
theorem andThen {g' : α → Memory → Nat → β × Nat} {f' : α → Memory → Nat → Cursor → Result β}
    (h : Reads g f) (h' : ∀ a, Reads (g' a) (f' a)) (fail : α → β) :
    Reads
      (fun m o =>
        let a := g m o
        let b := g' a.1 m (o + a.2)
        (b.1, a.2 + b.2))
      fun src size c =>
        let r := f src size c
        if r.ok then f' r.dst src size r.cursor else ⟨false, fail r.dst, r.cursor⟩ where
  accept := by
    intro src size c hsize hfit
    obtain ⟨hok, hdst, hoff⟩ := h.accept (m := src) (c := c) hsize (by dsimp only at hfit; omega)
    have hfit' : (f src size c).cursor.offset +
        (g' (f src size c).dst src (f src size c).cursor.offset).2 ≤ size := by
      rw [hdst, hoff]
      dsimp only at hfit
      omega
    obtain ⟨hok', hdst', hoff'⟩ := (h' (f src size c).dst).accept hsize hfit'
    simp only [hok, if_true]
    refine ⟨hok', ?_, ?_⟩
    · rw [hdst', hdst, hoff]
    · rw [hoff', hdst, hoff, Nat.add_assoc]
  reject := by
    intro src size c hsize hc hlt
    dsimp only at hlt ⊢
    split
    · rename_i hok
      obtain ⟨hdst, hoff⟩ := h.of_ok hsize hc hok
      have hle := (h.bounds (m := src) hsize hc).2
      apply (h' _).reject hsize hle
      rw [hdst, hoff]
      omega
    · rfl
  bounds := by
    intro src size c hsize hc
    have hb := h.bounds (m := src) hsize hc
    dsimp only
    split
    · have hb' := (h' (f src size c).dst).bounds (m := src) hsize hb.2
      exact ⟨Nat.le_trans hb.1 hb'.1, hb'.2⟩
    · exact hb
  safe := by
    intro src size c hsize hc x hx
    have hb := h.bounds (m := src) hsize hc
    dsimp only at hx
    split at hx
    · rcases (h' _).safe hsize hb.2 x hx with hmem | hsafe
      · exact h.safe hsize hc x hmem
      · exact .inr (hsafe.mono hb.1)
    · exact h.safe hsize hc x hx
  keeps := by
    intro src size c
    dsimp only
    split
    · exact h.keeps.trans (h' _).keeps
    · exact h.keeps
  determined := by
    intro src src' size c hagree
    have hhead : f src' size c = f src size c := by
      apply h.determined
      intro a ha
      apply hagree
      dsimp only
      split
      · exact (h' _).keeps.subset ha
      · exact ha
    simp only [hhead]
    split
    · rename_i hok
      simp only [hok, if_true] at hagree
      exact (h' _).determined hagree
    · rfl

/-- The view may be described in another way. -/
theorem congr {g' : Memory → Nat → α × Nat} (h : Reads g f) (hg : ∀ m o, g m o = g' m o) :
    Reads g' f := by
  obtain rfl : g = g' := funext fun m => funext fun o => hg m o
  exact h

/-- A deserializer reads what its image under an injection does. -/
theorem of_image {φ : β → α} (hφ : Function.Injective φ) {g' : Memory → Nat → β × Nat}
    {f' : Memory → Nat → Cursor → Result β}
    (h : Reads (fun m o => (φ (g' m o).1, (g' m o).2)) f)
    (hf : ∀ src size c, f src size c =
      ⟨(f' src size c).ok, φ (f' src size c).dst, (f' src size c).cursor⟩) :
    Reads g' f' where
  accept := by
    intro src size c hsize hfit
    have := h.accept hsize hfit
    rw [hf] at this
    exact ⟨this.1, hφ this.2.1, this.2.2⟩
  reject := by
    intro src size c hsize hc hlt
    have := h.reject hsize hc hlt
    rwa [hf] at this
  bounds := by
    intro src size c hsize hc
    have := h.bounds (m := src) hsize hc
    rwa [hf] at this
  safe := by
    intro src size c hsize hc
    have := h.safe (m := src) hsize hc
    rwa [hf] at this
  keeps := by
    intro src size c
    have := h.keeps (m := src) (n := size) (c := c)
    rwa [hf] at this
  determined := by
    intro src src' size c hagree
    have heq : (∀ a ∈ (f src size c).cursor.trace, a.Agree src src') →
        f src' size c = f src size c := h.determined
    rw [hf, hf] at heq
    have := heq hagree
    simp only [Result.mk.injEq] at this
    obtain ⟨hok, hdst, hcursor⟩ := this
    cases h₁ : f' src size c
    cases h₂ : f' src' size c
    simp_all only [hφ.eq_iff]

end Reads

-- ---------------------------------------------------------------------------
-- The deserializers
-- ---------------------------------------------------------------------------

/-- The deserializer `f` reads the layout `L`, whatever its destination held. -/
def Deserializes (L : Layout α) (f : Memory → Nat → α → Cursor → Result α) : Prop :=
  ∀ dst, Reads L.view fun src size c => f src size dst c

theorem Cursor.suffix_grow (c : Cursor) (length : Option Nat) :
    c.trace <:+ (c.grow length).trace := by
  cases length with
  | none => exact List.suffix_rfl
  | some n => exact List.suffix_cons ..

theorem Cursor.mem_grow {c : Cursor} {length : Option Nat} {a : Access}
    (h : a ∈ (c.grow length).trace) : (∃ n, a = .resize n) ∨ a ∈ c.trace := by
  cases length with
  | none => exact .inr h
  | some n =>
    rcases List.mem_cons.mp h with rfl | h
    · exact .inl ⟨n, rfl⟩
    · exact .inr h

theorem fetch_reads (length : Option Nat) {n : Nat} (hn : n < 2 ^ 63) :
    Reads (fun m o => (m.slice o n, n)) fun src size c => fetch length src size n c where
  accept := by
    intro src size c hsize hfit
    dsimp only at hfit
    have hsum : sizeT (c.offset + n) = c.offset + n := sizeT_eq (by omega)
    have hle : ¬ c.offset + n > size := by omega
    simp only [fetch, hsum, hle, if_false, Cursor.advance_offset, Cursor.log_offset,
      Cursor.grow_offset]
    exact ⟨trivial, trivial, trivial⟩
  reject := by
    intro src size c hsize hc hlt
    have hsum : sizeT (c.offset + n) = c.offset + n := sizeT_eq (by omega)
    simp [fetch, hsum, hlt]
  bounds := by
    intro src size c hsize hc
    have hsum : sizeT (c.offset + n) = c.offset + n := sizeT_eq (by omega)
    simp only [fetch, hsum]
    split
    · exact ⟨Nat.le_refl _, hc⟩
    · simp only [Cursor.advance_offset, Cursor.log_offset, Cursor.grow_offset, hsum]
      omega
  safe := by
    intro src size c hsize hc a ha
    have hsum : sizeT (c.offset + n) = c.offset + n := sizeT_eq (by omega)
    have hsafe : (Access.sum c.offset n).Safe c.offset size := by
      change c.offset + n < 2 ^ 64
      omega
    simp only [fetch, hsum] at ha
    split at ha
    · cases ha with
      | head => exact .inr hsafe
      | tail _ ha => exact .inl ha
    · rename_i hle
      cases ha with
      | head => exact .inr ⟨Nat.le_refl _, by simpa using hle⟩
      | tail _ ha =>
        rcases Cursor.mem_grow ha with ⟨k, rfl⟩ | ha
        · exact .inr trivial
        · cases ha with
          | head => exact .inr hsafe
          | tail _ ha => exact .inl ha
  keeps := by
    intro src size c
    simp only [fetch]
    split
    · exact List.suffix_cons ..
    · have hgrow := Cursor.suffix_grow (c.log (.sum c.offset n)) length
      exact ((List.suffix_cons _ _).trans hgrow).trans (List.suffix_cons _ _)
  determined := by
    intro src src' size c hagree
    simp only [fetch] at hagree ⊢
    split
    · rfl
    · rename_i hle
      simp only [hle, if_false] at hagree
      have hread := hagree (.read c.offset n) List.mem_cons_self
      rw [Memory.slice_congr hread]

theorem deserializeNumber_spec (t : NumType) : Deserializes t.layout (deserializeNumber t) :=
  fun dst => (fetch_reads none (n := t.sizeof) (by have := t.sizeof_le; omega)).post
    (fun r => ⟨r.ok, if r.ok then t.ofBytes r.dst else dst, r.cursor⟩) t.ofBytes
    (fun _ => rfl) (fun _ => rfl) fun _ hok => if_pos hok

/-- A prefix read as a number is the length it announces. -/
theorem layout_uint32_value (m : Memory) (o : Nat) :
    (NumType.uint32.layout.view m o).1.toNat = Layout.announced 4 m o := by
  have hlt := Layout.announced_lt 4 m o
  exact Nat.mod_eq_of_lt hlt

theorem deserializeString_spec : Deserializes (.bytes 4) deserializeString := by
  intro dst
  have hbytes : ∀ len : NumType.uint32.Value, Reads (fun m o => (m.slice o len.toNat, len.toNat))
      fun src size c =>
        let bytes := fetch (some len.toNat) src size len.toNat c
        ⟨bytes.ok, if bytes.ok then bytes.dst else dst, bytes.cursor⟩ := by
    intro len
    have hlen : len.toNat < 2 ^ 32 := len.isLt
    exact (fetch_reads (some len.toNat) (n := len.toNat) (by omega)).post
      (fun r => ⟨r.ok, if r.ok then r.dst else dst, r.cursor⟩) id
      (fun _ => rfl) (fun _ => rfl) fun _ hok => if_pos hok
  apply ((deserializeNumber_spec .uint32 0).andThen hbytes fun _ => dst).congr
  intro m o
  simp only [layout_uint32_value]
  rfl

/-- Numbers stored from a block are the numbers that lie in it. -/
theorem storeNumbers_slice (t : NumType) (dst : List t.Value) (m : Memory) (o : Nat) :
    storeNumbers t dst (m.slice o (dst.length * t.sizeof)) =
      (Layout.viewEach t.layout m dst.length o).1 := by
  induction dst generalizing o with
  | nil => rfl
  | cons d dst ih =>
    have hlen : (dst.length + 1) * t.sizeof = t.sizeof + dst.length * t.sizeof := by
      rw [Nat.succ_mul, Nat.add_comm]
    simp only [List.length_cons, storeNumbers, hlen, Memory.slice_add, Layout.viewEach,
      List.take_left', List.drop_left', Memory.slice_length, ih]
    rfl

theorem viewEach_number_extent (t : NumType) (m : Memory) (n o : Nat) :
    (Layout.viewEach t.layout m n o).2 = n * t.sizeof := by
  induction n generalizing o with
  | zero => simp [Layout.viewEach]
  | succ n ih =>
    simp only [Layout.viewEach, ih, Nat.succ_mul]
    exact Nat.add_comm _ _

/-- A block of numbers copied over the elements of `dst`. -/
theorem fetchNumbers_reads (t : NumType) (length : Option Nat) (keep dst : List t.Value)
    (fits : dst.length * t.sizeof < 2 ^ 63) :
    Reads (fun m o => Layout.viewEach t.layout m dst.length o) fun src size c =>
      let bytes := fetch length src size (sizeT (dst.length * t.sizeof))
        (c.log (.product dst.length t.sizeof))
      ⟨bytes.ok, if bytes.ok then storeNumbers t dst bytes.dst else keep, bytes.cursor⟩ := by
  rw [sizeT_eq (show dst.length * t.sizeof < 2 ^ 64 by omega)]
  have hmul : ∀ lo size, (Access.product dst.length t.sizeof).Safe lo size := by
    intro lo size
    change dst.length * t.sizeof < 2 ^ 64
    omega
  refine (((fetch_reads length fits).logged hmul).post
    (fun r => ⟨r.ok, if r.ok then storeNumbers t dst r.dst else keep, r.cursor⟩)
    (storeNumbers t dst) (fun _ => rfl) (fun _ => rfl) fun _ hok => if_pos hok).congr fun m o => ?_
  exact Prod.ext (storeNumbers_slice t dst m o) (viewEach_number_extent t m _ o).symm

theorem deserializeNumberArray_spec (t : NumType) {N : Nat} (fits : N * t.sizeof < 2 ^ 63) :
    Deserializes (Shape.numberArray t N fits).layout (Shape.numberArray t N fits).deserialize := by
  rintro ⟨dst, rfl⟩
  exact (fetchNumbers_reads t none dst dst fits).of_image Subtype.val_injective fun _ _ _ => rfl

theorem deserializeEach_reads {L : Layout α} {f : Memory → Nat → α → Cursor → Result α}
    (hf : Deserializes L f) (dst : List α) :
    Reads (fun m o => L.viewEach m dst.length o) fun src size c =>
      deserializeEach f src size dst c := by
  induction dst with
  | nil => exact .pure []
  | cons d dst ih =>
    exact (hf d).andThen
      (fun a => ih.post (fun r => ⟨r.ok, a :: r.dst, r.cursor⟩) (a :: ·)
        (fun _ => rfl) (fun _ => rfl) fun _ _ => rfl)
      fun d => d :: dst

theorem deserializeNumberVector_spec (t : NumType) :
    Deserializes (t.layout.counted 4) (deserializeNumberVector t) := by
  intro dst
  have hnumbers : ∀ count : NumType.uint32.Value,
      Reads (fun m o => Layout.viewEach t.layout m count.toNat o) fun src size c =>
        let bytes := fetch (some count.toNat) src size (sizeT (count.toNat * t.sizeof))
          (c.log (.product count.toNat t.sizeof))
        ⟨bytes.ok, if bytes.ok then storeNumbers t (resize dst count.toNat 0) bytes.dst else dst,
          bytes.cursor⟩ := by
    intro count
    have hcount : count.toNat < 2 ^ 32 := count.isLt
    have hmul : count.toNat * t.sizeof ≤ count.toNat * 8 := Nat.mul_le_mul_left _ t.sizeof_le
    have := fetchNumbers_reads t (some count.toNat) dst (resize dst count.toNat 0)
      (by rw [resize_length]; omega)
    rwa [resize_length] at this
  apply ((deserializeNumber_spec .uint32 0).andThen hnumbers fun _ => dst).congr
  intro m o
  simp only [layout_uint32_value]
  rfl

/-- Vectors of strings and of messages. -/
theorem deserializeCounted_spec {L : Layout α} {f : Memory → Nat → α → Cursor → Result α}
    (hf : Deserializes L f) (fill : α) :
    Deserializes (L.counted 4) (deserializeCounted f fill) := by
  intro dst
  have helems : ∀ count : NumType.uint32.Value,
      Reads (fun m o => L.viewEach m count.toNat o) fun src size c =>
        deserializeEach f src size (resize [] count.toNat fill) (c.log (.resize count.toNat)) := by
    intro count
    have := deserializeEach_reads hf (resize [] count.toNat fill)
    rw [resize_length] at this
    exact this.logged fun _ _ => trivial
  apply ((deserializeNumber_spec .uint32 0).andThen helems fun _ => dst).congr
  intro m o
  simp only [layout_uint32_value]
  rfl

/-- Every deserializer reads the layout of its shape. -/
theorem Shape.deserialize_spec (s : Shape) : Deserializes s.layout s.deserialize := by
  induction s with
  | number t => exact deserializeNumber_spec t
  | string => exact deserializeString_spec
  | numberArray t N fits => exact deserializeNumberArray_spec t fits
  | stringArray N =>
    rintro ⟨dst, rfl⟩
    exact (deserializeEach_reads deserializeString_spec dst).of_image Subtype.val_injective
      fun _ _ _ => rfl
  | messageArray msg N ih =>
    rintro ⟨dst, rfl⟩
    exact (deserializeEach_reads ih dst).of_image Subtype.val_injective fun _ _ _ => rfl
  | numberVector t => exact deserializeNumberVector_spec t
  | stringVector => exact deserializeCounted_spec deserializeString_spec []
  | messageVector msg ih => exact deserializeCounted_spec ih msg.default
  | done => exact fun _ => .pure ()
  | field first rest ih₁ ih₂ =>
    rintro ⟨a, b⟩
    exact (ih₁ a).andThen
      (fun a => (ih₂ b).post (fun r => ⟨r.ok, (a, r.dst), r.cursor⟩) (a, ·)
        (fun _ => rfl) (fun _ => rfl) fun _ _ => rfl)
      fun a => (a, b)

/-- A source that holds an encoding is accepted, and gives the encoded value. -/
theorem Shape.deserialize_encode {s : Shape} {v : s.Value} (hv : s.Bounded v) (dst : s.Value)
    {src : Memory} {size : Nat} {c : Cursor}
    (hsrc : src.slice c.offset (s.encode v).length = s.encode v)
    (hfit : c.offset + (s.encode v).length ≤ size) (hsize : size < 2 ^ 64) :
    (s.deserialize src size dst c).ok = true ∧ (s.deserialize src size dst c).dst = v ∧
      (s.deserialize src size dst c).cursor.offset = c.offset + (s.encode v).length := by
  have hview := s.layout.view_encode (layout_fits.mpr hv) hsrc
  have haccept := (s.deserialize_spec dst).accept (m := src) (c := c) hsize
  rw [hview] at haccept
  exact haccept hfit

end Rix.Msg
