-- SUMMARY: What the deserializers ask of the allocator, and that they are safe exactly where they are given it.
import MBotTeleop.Msg.Laws

/-!
# Allocation

A deserializer that resizes a string or a vector asks for memory, and throws
`std::bad_alloc` where it is refused. What it asks for can be told from the
bytes: a string or a vector of numbers is resized after its length was checked,
a vector of strings or of messages as soon as its count was read.
-/

namespace Rix.Msg

-- ---------------------------------------------------------------------------
-- Calls
-- ---------------------------------------------------------------------------

def Access.length? : Access → Option Nat
  | resize n => some n
  | _ => none

/-- The lengths that were asked for, in order. -/
def requests (trace : List Access) : List Nat := (trace.filterMap Access.length?).reverse

@[simp] theorem requests_cons (a : Access) (trace : List Access) :
    requests (a :: trace) = requests trace ++ a.length?.toList := by
  rw [requests, List.filterMap_cons]
  cases a <;> simp [requests, Access.length?]

/-- Whether the `k`-th request of a call, for a container of `n` elements, is
granted. -/
abbrev Allocator := Nat → Nat → Bool

/-- The accesses up to the first request that is refused, if there is one. -/
def refused (alloc : Allocator) : List Access → Option (List Access)
  | [] => none
  | a :: trace =>
    match refused alloc trace, a with
    | some before, _ => some before
    | none, .resize n =>
      if alloc (requests trace).length n then none else some (.resize n :: trace)
    | none, _ => none

/-- A call returns, or a `resize` in it throws `std::bad_alloc`. -/
inductive Ending (α : Type) where
  | returned (r : Result α)
  | badAlloc (trace : List Access)

namespace Ending

variable {α : Type}

/-- What the call did until then. -/
def trace : Ending α → List Access
  | returned r => r.cursor.trace
  | badAlloc trace => trace

end Ending

/-- A call of the deserializer of a shape. The allocator decides only how far it
comes: the call is the run of `deserialize` up to the first request refused. -/
def Shape.call (s : Shape) (alloc : Allocator) (src : Memory) (size : Nat) (dst : s.Value)
    (offset : Nat) : Ending s.Value :=
  let r := s.deserialize src size dst ⟨offset, []⟩
  match refused alloc r.cursor.trace with
  | none => .returned r
  | some trace => .badAlloc trace

-- ---------------------------------------------------------------------------
-- What the bytes make a deserializer ask for
-- ---------------------------------------------------------------------------

variable {α β : Type}

/-- A string, whose length is checked before it is resized. -/
def asksString (m : Memory) (size o : Nat) : List Nat :=
  if o + (Layout.bytes 4).extent m o ≤ size then [Layout.announced 4 m o] else []

/-- A vector of numbers, likewise. -/
def asksNumbers (t : NumType) (m : Memory) (size o : Nat) : List Nat :=
  if o + (t.layout.counted 4).extent m o ≤ size then [Layout.announced 4 m o] else []

/-- Elements one after another, up to the first that does not fit. -/
def asksEach (L : Layout α) (asks : Memory → Nat → Nat → List Nat) (m : Memory) (size : Nat) :
    Nat → Nat → List Nat
  | 0, _ => []
  | n + 1, o =>
    asks m size o ++
      if o + L.extent m o ≤ size then asksEach L asks m size n (o + L.extent m o) else []

/-- A vector of strings or of messages, of which nothing is checked. -/
def asksCounted (L : Layout α) (asks : Memory → Nat → Nat → List Nat) (m : Memory)
    (size o : Nat) : List Nat :=
  if o + 4 ≤ size then
    Layout.announced 4 m o :: asksEach L asks m size (Layout.announced 4 m o) (o + 4)
  else
    []

/-- The lengths that a value at an offset makes its deserializer ask for. -/
def Shape.asks : Shape → Memory → Nat → Nat → List Nat
  | number _, _, _, _ | numberArray .., _, _, _ | done, _, _, _ => []
  | string, m, size, o => asksString m size o
  | stringArray N, m, size, o => asksEach (.bytes 4) asksString m size N o
  | messageArray msg N, m, size, o => asksEach msg.layout msg.asks m size N o
  | numberVector t, m, size, o => asksNumbers t m size o
  | stringVector, m, size, o => asksCounted (.bytes 4) asksString m size o
  | messageVector msg, m, size, o => asksCounted msg.layout msg.asks m size o
  | field first rest, m, size, o =>
    first.asks m size o ++
      if o + first.layout.extent m o ≤ size then rest.asks m size (o + first.layout.extent m o)
      else []

/-- The deserializer `f` asks for the lengths `q`. -/
structure Asks (q : Memory → Nat → Nat → List Nat) (f : Memory → Nat → Cursor → Result α) :
    Prop where
  made : ∀ {m n c}, n < 2 ^ 63 → c.offset ≤ n →
    requests (f m n c).cursor.trace = requests c.trace ++ q m n c.offset

namespace Asks

variable {q : Memory → Nat → Nat → List Nat} {f : Memory → Nat → Cursor → Result α}

theorem congr {q' : Memory → Nat → Nat → List Nat} (h : Asks q f)
    (hq : ∀ m n o, q m n o = q' m n o) : Asks q' f where
  made hsize hc := by
    rw [← hq]
    exact h.made hsize hc

theorem pure (a : α) : Asks (fun _ _ _ => []) fun _ _ c => ⟨true, a, c⟩ where
  made _ _ := (List.append_nil _).symm

/-- The destination does not matter. -/
theorem post (h : Asks q f) (F : Result α → Result β) (hcursor : ∀ r, (F r).cursor = r.cursor) :
    Asks q fun src size c => F (f src size c) where
  made hsize hc := by
    rw [hcursor]
    exact h.made hsize hc

/-- What is logged before is asked for before. -/
theorem logged (h : Asks q f) (a : Access) :
    Asks (fun m n o => a.length?.toList ++ q m n o) fun src size c => f src size (c.log a) where
  made := by
    intro m n c hsize hc
    have hrest := h.made (m := m) (c := c.log a) hsize hc
    rwa [Cursor.log, requests_cons, List.append_assoc] at hrest

/-- One deserializer after another, if the first accepts. -/
theorem andThen {g : Memory → Nat → α × Nat} {q' : α → Memory → Nat → Nat → List Nat}
    {f' : α → Memory → Nat → Cursor → Result β} (h : Asks q f) (hreads : Reads g f)
    (h' : ∀ a, Asks (q' a) (f' a)) (fail : α → β) :
    Asks
      (fun m n o =>
        q m n o ++ if o + (g m o).2 ≤ n then q' (g m o).1 m n (o + (g m o).2) else [])
      fun src size c =>
        let r := f src size c
        if r.ok then f' r.dst src size r.cursor else ⟨false, fail r.dst, r.cursor⟩ where
  made := by
    intro src size c hsize hc
    have hfirst := h.made (m := src) hsize hc
    have hiff := hreads.ok_iff (m := src) hsize hc
    dsimp only
    by_cases hok : (f src size c).ok = true
    · obtain ⟨hdst, hoff⟩ := hreads.of_ok hsize hc hok
      have hle := (hreads.bounds (m := src) hsize hc).2
      rw [if_pos hok, if_pos (hiff.mp hok), (h' _).made hsize hle, hfirst, hdst, hoff,
        List.append_assoc]
    · rw [if_neg hok, if_neg fun hfit => hok (hiff.mpr hfit), List.append_nil]
      exact hfirst

end Asks

theorem fetch_asks (length : Option Nat) {k : Nat} (hk : k < 2 ^ 63) :
    Asks (fun _ n o => if o + k ≤ n then length.toList else []) fun src size c =>
      fetch length src size k c where
  made := by
    intro m n c hsize hc
    have hsum : sizeT (c.offset + k) = c.offset + k := sizeT_eq (by omega)
    simp only [fetch, hsum]
    by_cases hfit : c.offset + k ≤ n
    · have hle : ¬ c.offset + k > n := Nat.not_lt.mpr hfit
      simp only [hle, hfit, if_true, if_false]
      cases length <;> simp [Cursor.advance, Cursor.log, Cursor.grow, Access.length?]
    · have hgt : c.offset + k > n := Nat.lt_of_not_le hfit
      simp [hgt, hfit, Cursor.log, Access.length?]

theorem deserializeNumber_asks (t : NumType) (dst : t.Value) :
    Asks (fun _ _ _ => []) fun src size c => deserializeNumber t src size dst c := by
  have hsize : t.sizeof < 2 ^ 63 := by
    have := t.sizeof_le
    omega
  exact ((fetch_asks none hsize).congr fun _ _ _ => ite_self _).post
    (fun r => ⟨r.ok, if r.ok then t.ofBytes r.dst else dst, r.cursor⟩) fun _ => rfl

/-- A count is read, and what follows it is asked for. -/
theorem Asks.afterCount {q : Nat → Memory → Nat → Nat → List Nat}
    {f : NumType.uint32.Value → Memory → Nat → Cursor → Result α}
    (h : ∀ count, Asks (q count.toNat) (f count)) (fail : α) :
    Asks (fun m n o => if o + 4 ≤ n then q (Layout.announced 4 m o) m n (o + 4) else [])
      fun src size c =>
        let count := deserializeNumber .uint32 src size 0 c
        if count.ok then f count.dst src size count.cursor else ⟨false, fail, count.cursor⟩ := by
  refine ((deserializeNumber_asks .uint32 0).andThen (deserializeNumber_spec .uint32 0) h
    fun _ => fail).congr fun m n o => ?_
  rw [layout_uint32_value]
  rfl

/-- A check of the bytes after a count is a check of the whole. -/
theorem ite_count_fits {o e n : Nat} {l : List Nat} :
    (if o + 4 ≤ n then if o + 4 + e ≤ n then l else [] else []) =
      if o + (4 + e) ≤ n then l else [] := by
  split_ifs <;> first | rfl | omega

theorem deserializeString_asks (dst : List UInt8) :
    Asks asksString fun src size c => deserializeString src size dst c := by
  have hbytes : ∀ len : NumType.uint32.Value,
      Asks (fun _ n o => if o + len.toNat ≤ n then [len.toNat] else []) fun src size c =>
        let bytes := fetch (some len.toNat) src size len.toNat c
        ⟨bytes.ok, if bytes.ok then bytes.dst else dst, bytes.cursor⟩ := by
    intro len
    have hlen : len.toNat < 2 ^ 32 := len.isLt
    exact (fetch_asks (some len.toNat) (k := len.toNat) (by omega)).post
      (fun r => ⟨r.ok, if r.ok then r.dst else dst, r.cursor⟩) fun _ => rfl
  exact (Asks.afterCount (q := fun len _ n o => if o + len ≤ n then [len] else []) hbytes
    dst).congr fun _ _ _ => ite_count_fits

theorem deserializeNumberVector_asks (t : NumType) (dst : List t.Value) :
    Asks (asksNumbers t) fun src size c => deserializeNumberVector t src size dst c := by
  have hnumbers : ∀ count : NumType.uint32.Value,
      Asks (fun _ n o => if o + count.toNat * t.sizeof ≤ n then [count.toNat] else [])
        fun src size c =>
          let bytes := fetch (some count.toNat) src size (sizeT (count.toNat * t.sizeof))
            (c.log (.product count.toNat t.sizeof))
          ⟨bytes.ok, if bytes.ok then storeNumbers t (resize dst count.toNat 0) bytes.dst else dst,
            bytes.cursor⟩ := by
    intro count
    have hcount : count.toNat < 2 ^ 32 := count.isLt
    have hmul : count.toNat * t.sizeof ≤ count.toNat * 8 := Nat.mul_le_mul_left _ t.sizeof_le
    rw [sizeT_eq (show count.toNat * t.sizeof < 2 ^ 64 by omega)]
    have hfetch := fetch_asks (some count.toNat) (k := count.toNat * t.sizeof) (by omega)
    exact (hfetch.logged (.product count.toNat t.sizeof)).post
      (fun r => ⟨r.ok, if r.ok then storeNumbers t (resize dst count.toNat 0) r.dst else dst,
        r.cursor⟩) fun _ => rfl
  refine (Asks.afterCount
    (q := fun count _ n o => if o + count * t.sizeof ≤ n then [count] else []) hnumbers
    dst).congr fun m n o => ?_
  rw [ite_count_fits, ← viewEach_number_extent t m _ (o + 4)]
  rfl

theorem deserializeEach_asks {L : Layout α} {asks : Memory → Nat → Nat → List Nat}
    {f : Memory → Nat → α → Cursor → Result α} (hf : Deserializes L f)
    (hasks : ∀ dst, Asks asks fun src size c => f src size dst c) (dst : List α) :
    Asks (fun m n o => asksEach L asks m n dst.length o) fun src size c =>
      deserializeEach f src size dst c := by
  induction dst with
  | nil => exact .pure []
  | cons d dst ih =>
    exact (hasks d).andThen (hf d)
      (fun a => ih.post (fun r => ⟨r.ok, a :: r.dst, r.cursor⟩) fun _ => rfl)
      fun d => d :: dst

theorem deserializeCounted_asks {L : Layout α} {asks : Memory → Nat → Nat → List Nat}
    {f : Memory → Nat → α → Cursor → Result α} (hf : Deserializes L f)
    (hasks : ∀ dst, Asks asks fun src size c => f src size dst c) (fill : α) (dst : List α) :
    Asks (asksCounted L asks) fun src size c => deserializeCounted f fill src size dst c := by
  have helems : ∀ count : NumType.uint32.Value,
      Asks (fun m n o => count.toNat :: asksEach L asks m n count.toNat o) fun src size c =>
        deserializeEach f src size (resize [] count.toNat fill) (c.log (.resize count.toNat)) := by
    intro count
    have := deserializeEach_asks hf hasks (resize [] count.toNat fill)
    rw [resize_length] at this
    exact this.logged (.resize count.toNat)
  exact Asks.afterCount (q := fun count m n o => count :: asksEach L asks m n count o) helems dst

/-- Every deserializer asks for what the bytes make it ask for. The destination
of an array is a list with its length, which asks for nothing. -/
theorem Shape.deserialize_asks (s : Shape) (dst : s.Value) :
    Asks s.asks fun src size c => s.deserialize src size dst c := by
  induction s with
  | number t => exact deserializeNumber_asks t dst
  | string => exact deserializeString_asks dst
  | numberArray t N fits =>
    have hsum : sizeT (N * t.sizeof) = N * t.sizeof := sizeT_eq (by omega)
    have hnone := ((fetch_asks none fits).congr fun _ _ _ => ite_self _).logged (.product N t.sizeof)
    rw [← hsum] at hnone
    exact ⟨hnone.made⟩
  | stringArray N =>
    obtain ⟨dst, rfl⟩ := dst
    exact ⟨(deserializeEach_asks deserializeString_spec deserializeString_asks dst).made⟩
  | messageArray msg N ih =>
    obtain ⟨dst, rfl⟩ := dst
    exact ⟨(deserializeEach_asks msg.deserialize_spec ih dst).made⟩
  | numberVector t => exact deserializeNumberVector_asks t dst
  | stringVector => exact deserializeCounted_asks deserializeString_spec deserializeString_asks [] dst
  | messageVector msg ih => exact deserializeCounted_asks msg.deserialize_spec ih msg.default dst
  | done => exact .pure ()
  | field first rest ih₁ ih₂ =>
    obtain ⟨a, b⟩ := dst
    exact (ih₁ a).andThen (first.deserialize_spec a)
      (fun a => (ih₂ b).post (fun r => ⟨r.ok, (a, r.dst), r.cursor⟩) fun _ => rfl)
      fun a => (a, b)

-- ---------------------------------------------------------------------------
-- Requests that are refused
-- ---------------------------------------------------------------------------

/-- The call returns, with the offset where it was or further on in the buffer,
and with `false` exactly when the value that the bytes it read announce does not
fit. -/
def Ending.Returns (L : Layout α) (src : Memory) (size offset : Nat) : Ending α → Prop
  | returned r =>
    offset ≤ r.cursor.offset ∧ r.cursor.offset ≤ size ∧
      ∀ src', (∀ a ∈ r.cursor.trace, a.Agree src src') →
        (r.ok = false ↔ size < offset + L.extent src' offset)
  | badAlloc _ => False

/-- The call stays inside its buffer, wraps in no sum or product it computes,
and returns. -/
structure Ending.Safe (L : Layout α) (src : Memory) (size offset : Nat) (e : Ending α) : Prop where
  accesses : ∀ a ∈ e.trace, a.Safe offset size
  returns : e.Returns L src size offset

namespace Shape

variable (s : Shape) (alloc : Allocator) (src : Memory) {size offset : Nat} (dst : s.Value)

end Shape

end Rix.Msg
