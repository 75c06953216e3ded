-- SUMMARY: The descriptor table and the pipes of the kernel, as far as the IPC classes use them.
import MBotTeleop.Ipc.Interfaces
import Mathlib.Logic.Function.Basic

/-!
# Descriptors and pipes

The calls of the kernel on the pipes of one process. A descriptor refers to an
open file description, which it may share with its duplicates.
-/

namespace Rix.Ipc

/-- An open file description. The two ends of a pipe are two descriptions. -/
inductive OpenFile where
  | readEnd (pipe : Nat)
  | writeEnd (pipe : Nat)
  /-- A file that is no pipe of this process. -/
  | other (file : Nat)
  deriving DecidableEq, Repr

structure Kernel where
  /-- `RLIMIT_NOFILE`: every descriptor is smaller. -/
  limit : Nat
  /-- The description a descriptor refers to, if it is open. -/
  fds : Int → Option OpenFile
  /-- The descriptions with `O_NONBLOCK` set. -/
  nonblock : OpenFile → Bool
  /-- The bytes in a pipe. -/
  buffer : Nat → List UInt8
  /-- How many bytes a pipe holds. -/
  capacity : Nat
  /-- The next pipe to be made. -/
  next : Nat

namespace Kernel

/-- A process that has made no pipe yet, with the descriptors `files` open. -/
def initial (limit capacity : Nat) (files : Int → Option Nat) : Kernel where
  limit := limit
  fds fd := if 0 ≤ fd ∧ fd < limit then (files fd).map .other else none
  nonblock _ := false
  buffer _ := []
  capacity := capacity
  next := 0

/-- A descriptor of the process refers to `f`. -/
def isOpen (k : Kernel) (f : OpenFile) : Bool :=
  (List.range k.limit).any fun fd => k.fds fd = some f

/-- `::pipe`, when it returns the descriptors `r` and `w`. -/
def pipe (k : Kernel) (r w : Int) : Kernel :=
  { k with
    fds := Function.update (Function.update k.fds r (some (.readEnd k.next)))
      w (some (.writeEnd k.next))
    nonblock := Function.update (Function.update k.nonblock (.readEnd k.next) false)
      (.writeEnd k.next) false
    buffer := Function.update k.buffer k.next []
    next := k.next + 1 }

/-- What `::pipe` may return: two free descriptors. -/
def Free (k : Kernel) (r w : Int) : Prop :=
  (0 ≤ r ∧ r < k.limit ∧ k.fds r = none) ∧ (0 ≤ w ∧ w < k.limit ∧ k.fds w = none) ∧ r ≠ w

instance (k : Kernel) (r w : Int) : Decidable (k.Free r w) := inferInstanceAs (Decidable (_ ∧ _))

/-- `::close`. A pipe without descriptors is lost, with the bytes in it. -/
def close (k : Kernel) (fd : Int) : Kernel := { k with fds := Function.update k.fds fd none }

/-- What a call that opens a descriptor may return. -/
def Available (k : Kernel) (fd : Int) : Prop := 0 ≤ fd ∧ fd < k.limit ∧ k.fds fd = none

instance (k : Kernel) (fd : Int) : Decidable (k.Available fd) := inferInstanceAs (Decidable (_ ∧ _))

/-- `::dup`, when it returns `fd'`. -/
def dup (k : Kernel) (fd fd' : Int) : Kernel :=
  { k with fds := Function.update k.fds fd' (k.fds fd) }

/-- `O_NONBLOCK` in `::fcntl(fd, F_GETFL)`. -/
def getNonblock (k : Kernel) (fd : Int) : Bool := ((k.fds fd).map k.nonblock).getD false

/-- `::fcntl(fd, F_SETFL, flags)` with `O_NONBLOCK` set or cleared in `flags`. -/
def setNonblock (k : Kernel) (fd : Int) (status : Bool) : Kernel :=
  match k.fds fd with
  | some f => { k with nonblock := Function.update k.nonblock f status }
  | none => k

/-- `POLLIN` is in `revents` after `::poll` on the read end of a pipe: bytes are
buffered. An empty pipe without writers has `POLLHUP` alone. -/
def pollIn (k : Kernel) (fd : Int) : Bool :=
  match k.fds fd with
  | some (.readEnd p) => !(k.buffer p).isEmpty
  | _ => false

def setBuffer (k : Kernel) (p : Nat) (bytes : List UInt8) : Kernel :=
  { k with buffer := Function.update k.buffer p bytes }

/-- `::read` of at most `n` bytes; `none` where it blocks. -/
def read (k : Kernel) (fd : Int) (n : Nat) : Option (ReadResult × Kernel) :=
  match k.fds fd with
  | some (.readEnd p) =>
    if (k.buffer p).isEmpty then
      if !k.isOpen (.writeEnd p) then some (.eof, k)
      else if k.nonblock (.readEnd p) then some (.failed .eagain, k)
      else none
    else
      some (.bytes ((k.buffer p).take n), k.setBuffer p ((k.buffer p).drop n))
  | _ => some (.failed .other, k)

/-- `::write` of one byte; `none` where it blocks. -/
def writeByte (k : Kernel) (fd : Int) (b : UInt8) : Option (WriteResult × Kernel) :=
  match k.fds fd with
  | some (.writeEnd p) =>
    if !k.isOpen (.readEnd p) then some (.failed .other, k)
    else if (k.buffer p).length < k.capacity then
      some (.wrote 1, k.setBuffer p (k.buffer p ++ [b]))
    else if k.nonblock (.writeEnd p) then some (.failed .eagain, k)
    else none
  | _ => some (.failed .other, k)

/-! ## The descriptor table -/

/-- The kernel knows the pipes that it made, and every descriptor is in range. -/
structure WF (k : Kernel) : Prop where
  range : ∀ {fd f}, k.fds fd = some f → 0 ≤ fd ∧ fd < k.limit
  readEnd_lt : ∀ {fd p}, k.fds fd = some (.readEnd p) → p < k.next
  writeEnd_lt : ∀ {fd p}, k.fds fd = some (.writeEnd p) → p < k.next

variable {k : Kernel}

/-- A description that a descriptor refers to is open. -/
theorem WF.isOpen (h : k.WF) {fd : Int} {f : OpenFile} (hfd : k.fds fd = some f) :
    k.isOpen f = true := by
  obtain ⟨hlo, hhi⟩ := h.range hfd
  rw [Kernel.isOpen, List.any_eq_true]
  refine ⟨fd.toNat, List.mem_range.mpr (by omega), ?_⟩
  rw [Int.toNat_of_nonneg hlo, decide_eq_true_iff]
  exact hfd

/-- A descriptor that is still open was not closed. -/
theorem close_fds_eq_some {fd fd' : Int} {f : OpenFile} :
    (k.close fd).fds fd' = some f ↔ fd' ≠ fd ∧ k.fds fd' = some f := by
  by_cases h : fd' = fd
  · simp [close, h]
  · simp [close, h]

theorem WF.close (h : k.WF) (fd : Int) : (k.close fd).WF where
  range hfd := h.range (close_fds_eq_some.mp hfd).2
  readEnd_lt hfd := h.readEnd_lt (close_fds_eq_some.mp hfd).2
  writeEnd_lt hfd := h.writeEnd_lt (close_fds_eq_some.mp hfd).2

theorem pipe_fds_read {r w : Int} (h : k.Free r w) :
    (k.pipe r w).fds r = some (.readEnd k.next) := by
  simp [pipe, h.2.2]

theorem pipe_fds_write (r w : Int) : (k.pipe r w).fds w = some (.writeEnd k.next) := by
  simp [pipe]

/-- The descriptors that were open before are as they were. -/
theorem pipe_fds_of_some {r w fd : Int} {f : OpenFile} (h : k.Free r w) (hfd : k.fds fd = some f) :
    (k.pipe r w).fds fd = some f := by
  have hr : fd ≠ r := fun heq => by rw [heq, h.1.2.2] at hfd; cases hfd
  have hw : fd ≠ w := fun heq => by rw [heq, h.2.1.2.2] at hfd; cases hfd
  simp [pipe, hr, hw, hfd]

theorem pipe_fds_cases {r w fd : Int} {f : OpenFile} (hfd : (k.pipe r w).fds fd = some f) :
    (fd = r ∧ f = .readEnd k.next) ∨ (fd = w ∧ f = .writeEnd k.next) ∨ k.fds fd = some f := by
  simp only [pipe, Function.update_apply] at hfd
  split at hfd
  · rename_i heq
    exact .inr (.inl ⟨heq, (Option.some.inj hfd).symm⟩)
  · split at hfd
    · rename_i heq
      exact .inl ⟨heq, (Option.some.inj hfd).symm⟩
    · exact .inr (.inr hfd)

theorem WF.pipe (h : k.WF) {r w : Int} (hfree : k.Free r w) : (k.pipe r w).WF where
  range hfd := by
    rcases pipe_fds_cases hfd with ⟨rfl, -⟩ | ⟨rfl, -⟩ | hold
    · exact ⟨hfree.1.1, hfree.1.2.1⟩
    · exact ⟨hfree.2.1.1, hfree.2.1.2.1⟩
    · exact h.range hold
  readEnd_lt hfd := by
    rcases pipe_fds_cases hfd with ⟨-, heq⟩ | ⟨-, heq⟩ | hold
    · cases heq
      exact Nat.lt_succ_self _
    · cases heq
    · exact Nat.lt_succ_of_lt (h.readEnd_lt hold)
  writeEnd_lt hfd := by
    rcases pipe_fds_cases hfd with ⟨-, heq⟩ | ⟨-, heq⟩ | hold
    · cases heq
    · cases heq
      exact Nat.lt_succ_self _
    · exact Nat.lt_succ_of_lt (h.writeEnd_lt hold)

@[simp] theorem pipe_buffer_new (r w : Int) : (k.pipe r w).buffer k.next = [] := by
  simp [pipe]

theorem pipe_buffer_of_lt {r w : Int} {p : Nat} (h : p < k.next) :
    (k.pipe r w).buffer p = k.buffer p := by
  simp [pipe, Nat.ne_of_lt h]

/-- An available descriptor is made to refer to a description that is open, or to
a file. -/
theorem WF.opened (h : k.WF) {k' : Kernel} {fd : Int} {f : OpenFile} (havail : k.Available fd)
    (hfds : k'.fds = Function.update k.fds fd (some f)) (hlimit : k'.limit = k.limit)
    (hnext : k'.next = k.next) (hf : (∃ fd, k.fds fd = some f) ∨ ∃ n, f = .other n) : k'.WF := by
  have hcases {fd' : Int} {f' : OpenFile} (h' : k'.fds fd' = some f') :
      fd' = fd ∧ f' = f ∨ k.fds fd' = some f' := by
    rw [hfds, Function.update_apply] at h'
    split at h'
    · rename_i heq
      exact .inl ⟨heq, (Option.some.inj h').symm⟩
    · exact .inr h'
  refine ⟨fun h' => ?_, fun h' => ?_, fun h' => ?_⟩
  · rw [hlimit]
    rcases hcases h' with ⟨rfl, -⟩ | hold
    · exact ⟨havail.1, havail.2.1⟩
    · exact h.range hold
  · rw [hnext]
    rcases hcases h' with ⟨-, rfl⟩ | hold
    · rcases hf with ⟨fd, hfd⟩ | ⟨n, hn⟩
      · exact h.readEnd_lt hfd
      · cases hn
    · exact h.readEnd_lt hold
  · rw [hnext]
    rcases hcases h' with ⟨-, rfl⟩ | hold
    · rcases hf with ⟨fd, hfd⟩ | ⟨n, hn⟩
      · exact h.writeEnd_lt hfd
      · cases hn
    · exact h.writeEnd_lt hold

theorem wf_initial (limit capacity : Nat) (files : Int → Option Nat) :
    (initial limit capacity files).WF := by
  refine ⟨fun h => ?_, fun h => ?_, fun h => ?_⟩ <;> simp only [initial] at h <;> split at h
  · assumption
  · cases h
  · simp at h
  · cases h
  · simp at h
  · cases h

/-! ## Buffers and flags -/

@[simp] theorem setBuffer_buffer (p : Nat) (bytes : List UInt8) :
    (k.setBuffer p bytes).buffer p = bytes := Function.update_self ..

theorem setBuffer_buffer_of_ne {p q : Nat} (h : q ≠ p) (bytes : List UInt8) :
    (k.setBuffer p bytes).buffer q = k.buffer q := Function.update_of_ne h ..

@[simp] theorem setBuffer_setBuffer (p : Nat) (bytes bytes' : List UInt8) :
    (k.setBuffer p bytes).setBuffer p bytes' = k.setBuffer p bytes' := by
  simp [setBuffer]

theorem setBuffer_eq_self (p : Nat) : k.setBuffer p (k.buffer p) = k := by
  simp [setBuffer]

/-- Setting a flag and setting it back. -/
theorem setNonblock_restore {fd : Int} {f : OpenFile} (h : k.fds fd = some f) (status : Bool)
    (p : Nat) (bytes : List UInt8) :
    ((k.setNonblock fd status).setBuffer p bytes).setNonblock fd (k.getNonblock fd) =
      k.setBuffer p bytes := by
  simp [setNonblock, setBuffer, getNonblock, h]

/-! ## Calls that leave the table alone -/

/-- The same descriptors and pipes, with other flags or bytes. -/
structure SameTable (k k' : Kernel) : Prop where
  fds : k'.fds = k.fds
  limit : k'.limit = k.limit
  next : k'.next = k.next
  capacity : k'.capacity = k.capacity

theorem SameTable.refl (k : Kernel) : k.SameTable k := ⟨rfl, rfl, rfl, rfl⟩

theorem SameTable.trans {k' k'' : Kernel} (h : k.SameTable k') (h' : k'.SameTable k'') :
    k.SameTable k'' :=
  ⟨h'.fds.trans h.fds, h'.limit.trans h.limit, h'.next.trans h.next,
    h'.capacity.trans h.capacity⟩

theorem setNonblock_sameTable (fd : Int) (status : Bool) : k.SameTable (k.setNonblock fd status) := by
  unfold setNonblock
  split <;> exact ⟨rfl, rfl, rfl, rfl⟩

/-- What a call of `::read` can do. -/
theorem read_cases {fd : Int} {n : Nat} {r : ReadResult} {k' : Kernel}
    (h : k.read fd n = some (r, k')) :
    k' = k ∨ ∃ p, k.fds fd = some (.readEnd p) ∧ r = .bytes ((k.buffer p).take n) ∧
      k' = k.setBuffer p ((k.buffer p).drop n) := by
  unfold read at h
  split at h
  · rename_i p hfd
    split at h
    · split at h
      · cases h
        exact .inl rfl
      · split at h <;> cases h
        exact .inl rfl
    · cases h
      exact .inr ⟨p, hfd, rfl, rfl⟩
  · cases h
    exact .inl rfl

theorem read_sameTable {fd : Int} {n : Nat} {r : ReadResult} {k' : Kernel}
    (h : k.read fd n = some (r, k')) : k.SameTable k' := by
  rcases read_cases h with rfl | ⟨p, -, -, rfl⟩ <;> exact ⟨rfl, rfl, rfl, rfl⟩

/-- What a call of `::write` can do. -/
theorem writeByte_cases {fd : Int} {b : UInt8} {r : WriteResult} {k' : Kernel}
    (h : k.writeByte fd b = some (r, k')) :
    k' = k ∨ ∃ p, k.fds fd = some (.writeEnd p) ∧
      k' = k.setBuffer p (k.buffer p ++ [b]) := by
  unfold writeByte at h
  split at h
  · rename_i p hfd
    split at h
    · cases h
      exact .inl rfl
    · split at h
      · cases h
        exact .inr ⟨p, hfd, rfl⟩
      · split at h <;> cases h
        exact .inl rfl
  · cases h
    exact .inl rfl

theorem writeByte_sameTable {fd : Int} {b : UInt8} {r : WriteResult} {k' : Kernel}
    (h : k.writeByte fd b = some (r, k')) : k.SameTable k' := by
  rcases writeByte_cases h with rfl | ⟨p, -, rfl⟩ <;> exact ⟨rfl, rfl, rfl, rfl⟩

end Kernel

end Rix.Ipc
