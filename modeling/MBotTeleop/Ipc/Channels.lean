-- SUMMARY: Bytes through pipes, by any number of Pipe objects: what is read, when a read ends, and when a write fails.
import MBotTeleop.Ipc.Descriptors

/-!
# Pipes as channels

`read` and `write` of `Pipe` objects, in any order with their constructors,
assignments and destructors. An end of a pipe is gone with the last object that
has it, unless a descriptor of it were left behind in the process.
-/

namespace Rix.Ipc

/-- `::write`, when it takes `n` of the bytes; `none` where it cannot take as many,
or blocks. A call that waits for room in between counts as several. -/
def Kernel.write (k : Kernel) (fd : Int) (bytes : List UInt8) (n : Nat) :
    Option (WriteResult × Kernel) :=
  match k.fds fd with
  | some (.writeEnd p) =>
    if bytes.isEmpty then some (.wrote 0, k)
    else if !k.isOpen (.readEnd p) then some (.failed .other, k)
    else if 0 < n ∧ n ≤ bytes.length ∧ (k.buffer p).length + n ≤ k.capacity then
      some (.wrote n, k.setBuffer p (k.buffer p ++ bytes.take n))
    else if k.nonblock (.writeEnd p) then some (.failed .eagain, k)
    else none
  | _ => some (.failed .other, k)

/-- `write` -/
def Pipe.write (k : Kernel) (p : Pipe) (bytes : List UInt8) (n : Nat) :
    Option (WriteResult × Kernel) :=
  if p.fd < 0 then some (.failed .other, k) else k.write p.fd bytes n

namespace Objects

-- ---------------------------------------------------------------------------
-- Traffic
-- ---------------------------------------------------------------------------

/-- The objects, and all that was written to each pipe and read from it. -/
structure Traffic where
  objects : State
  sent : Nat → List UInt8 := fun _ => []
  received : Nat → List UInt8 := fun _ => []

abbrev Traffic.kernel (s : Traffic) : Kernel := s.objects.process.kernel

/-- Calls that make and unmake objects, and calls that use them. -/
inductive Use where
  | call (e : Event)
  | write (id : Nat) (bytes : List UInt8) (n : Nat)
  | read (id size : Nat)
  | setNonblocking (id : Nat) (status : Bool)
  deriving DecidableEq, Repr

/-- A log with more bytes for the pipe that `f` is an end of. -/
def record (log : Nat → List UInt8) (f : Option OpenFile) (bytes : List UInt8) : Nat → List UInt8 :=
  match f with
  | some (.readEnd q) | some (.writeEnd q) => Function.update log q (log q ++ bytes)
  | _ => log

def State.withKernel (s : State) (k : Kernel) : State :=
  { s with process := { s.process with kernel := k } }

/-- A use of objects. `none` where it is not possible, or blocks. -/
def Traffic.step (s : Traffic) : Use → Option Traffic
  | .call e => (Objects.step s.objects e).map fun objects => { s with objects }
  | .write id bytes n =>
    match s.objects.live id with
    | some (.pipe p) => (p.write s.kernel bytes n).map fun r =>
      { s with
        objects := s.objects.withKernel r.2
        sent := record s.sent (s.kernel.fds p.fd) (bytes.take r.1.accepted) }
    | _ => none
  | .read id size =>
    match s.objects.live id with
    | some (.pipe p) => (p.read s.kernel size).map fun r =>
      { s with
        objects := s.objects.withKernel r.2
        received := record s.received (s.kernel.fds p.fd) r.1.delivered }
    | _ => none
  | .setNonblocking id status =>
    match s.objects.live id with
    | some (.pipe p) => some
      { s with objects := s.objects.withKernel (p.setNonblocking s.kernel status) }
    | _ => none

/-- A process that makes pipes and uses them. -/
def traffic (limit capacity : Nat) (files : Int → Option Nat) : Machine Traffic Use where
  init := { objects := (Objects.objects limit capacity files).init }
  step := Traffic.step

/-- A valid object has this end. -/
def State.HasEnd (s : State) (f : OpenFile) : Prop :=
  ∃ id o, s.live id = some o ∧ o.ok = true ∧ s.process.kernel.fds o.fd = some f

/-- What was sent was received, but for what is under way. -/
def Conserved (sent received buffer : Nat → List UInt8) : Prop :=
  ∀ q, sent q = received q ++ buffer q

/-- An end of a pipe, and no other file. -/
def IsEnd : OpenFile → Prop
  | .readEnd _ | .writeEnd _ => True
  | .other _ => False

/-- No byte is lost in a pipe, or comes to another place, and the ends that are
open are those of the objects. -/
structure Carries (s : Traffic) : Prop where
  tidy : Tidy s.objects
  backed : Custody.Backed IsEnd s.objects.custody
  conserved : Conserved s.sent s.received s.kernel.buffer
  fresh : ∀ q, s.kernel.next ≤ q → s.sent q = []

variable {s s' : State} {e : Event} {t t' : Traffic} {k' : Kernel}

-- ---------------------------------------------------------------------------
-- What a use leaves alone
-- ---------------------------------------------------------------------------

theorem custody_withKernel (h : s.process.kernel.SameTable k') :
    (s.withKernel k').custody = s.custody := by
  simp only [State.custody, Process.custody, State.withKernel, h.fds]
  rfl

/-- Bytes and flags do not matter for who holds what. -/
theorem Tidy.withKernel (h : Tidy s) (hsame : s.process.kernel.SameTable k') :
    Tidy (s.withKernel k') where
  sane := {
    wf := by
      obtain ⟨hrange, hread, hwrite⟩ := h.sane.wf
      refine ⟨fun hfd => ?_, fun hfd => ?_, fun hfd => ?_⟩ <;>
        simp only [State.withKernel, hsame.fds, hsame.limit, hsame.next] at hfd ⊢
      · exact hrange hfd
      · exact hread hfd
      · exact hwrite hfd
    sound := (custody_withKernel hsame).symm ▸ h.sane.sound
    ids := h.sane.ids }
  accounted := (custody_withKernel hsame).symm ▸ h.accounted
  noFile := h.noFile
  reports id o ho := by
    have hkeeps : s.process.Keeps (s.withKernel k').process fun _ => False := by
      intro fd f hfd _
      exact ⟨(congrFun hsame.fds fd).trans hfd, fun _ _ => rfl⟩
    exact (h.reports id o ho).keep hkeeps fun _ => not_false

/-- A call on objects touches no byte in a pipe. -/
structure Quiet (p p' : Process) : Prop where
  buffer : p'.kernel.buffer = p.kernel.buffer
  next : p.kernel.next ≤ p'.kernel.next

variable {p p' : Process}

theorem Quiet.refl (p : Process) : Quiet p p := ⟨rfl, Nat.le_refl _⟩

theorem quiet_closeFd (p : Process) (fd : Int) : Quiet p (closeFd p fd).1 := by
  unfold closeFd
  split <;> exact ⟨rfl, Nat.le_refl _⟩

theorem quiet_dupFd {src fd : Int} {dup : Option Int} (h : dupFd p src dup = some (p', fd)) :
    Quiet p p' := by
  cases dupFd_cases h <;> exact ⟨rfl, Nat.le_refl _⟩

theorem quiet_openPath {nonblocking : Bool} {opener : Option (String × Mode)}
    {opened : Option (Int × Nat)} {fd : Int}
    (h : p.openPath nonblocking opener opened = some (p', fd)) : Quiet p p' := by
  cases openPath_cases h <;> exact ⟨rfl, Nat.le_refl _⟩

/-- A pipe is made empty, as it was before it was made. -/
theorem quiet_create (hfresh : p.kernel.buffer p.kernel.next = []) {pipe : Option (Int × Int)}
    {readEnd writeEnd : Pipe} (h : Pipe.create p pipe = some (p', readEnd, writeEnd)) :
    Quiet p p' := by
  cases create_cases h with
  | failed => exact .refl p
  | done r w hfree =>
    refine ⟨?_, Nat.le_succ _⟩
    change Function.update p.kernel.buffer p.kernel.next [] = p.kernel.buffer
    rw [← hfresh, Function.update_eq_self]

theorem Called.quiet (hcall : Called s e s')
    (hfresh : s.process.kernel.buffer s.process.kernel.next = []) : Quiet s.process s'.process := by
  cases hcall with
  | default | adopt | noFifo | copyUnset | copySelf | moveConstruct => exact .refl _
  | openFile new call | openFifo new call => exact quiet_openPath call
  | create new₀ new₁ ne call => exact quiet_create hfresh call
  | copyConstruct new source call => exact quiet_dupFd call
  | @copyAssign _ _ _ d _ _ _ dest source ne call =>
    have hclose := quiet_closeFd s.process d.fd
    have hdup := quiet_dupFd call
    exact ⟨hdup.buffer.trans hclose.buffer, Nat.le_trans hclose.next hdup.next⟩
  | moveSelf | moveAssign | destroy => exact quiet_closeFd ..

-- ---------------------------------------------------------------------------
-- What a use does to the bytes
-- ---------------------------------------------------------------------------

/-- What a call of `write` can do. -/
theorem write_cases {k : Kernel} {f : Pipe} {bytes : List UInt8} {n : Nat} {r : WriteResult}
    (h : f.write k bytes n = some (r, k')) :
    k' = k ∧ bytes.take r.accepted = [] ∨ ∃ q, k.fds f.fd = some (.writeEnd q) ∧
      k' = k.setBuffer q (k.buffer q ++ bytes.take r.accepted) := by
  unfold Pipe.write Kernel.write at h
  split at h
  · cases h
    exact .inl ⟨rfl, List.take_zero⟩
  · split at h
    · rename_i q hfd
      split at h
      · cases h
        exact .inl ⟨rfl, List.take_zero⟩
      · split at h
        · cases h
          exact .inl ⟨rfl, List.take_zero⟩
        · split at h
          · cases h
            exact .inr ⟨q, hfd, rfl⟩
          · split at h <;> cases h
            exact .inl ⟨rfl, List.take_zero⟩
    · cases h
      exact .inl ⟨rfl, List.take_zero⟩

/-- What a call of `read` can do. -/
theorem read_cases {k : Kernel} {f : Pipe} {size : Nat} {r : ReadResult}
    (h : f.read k size = some (r, k')) :
    k' = k ∧ r.delivered = [] ∨ ∃ q, k.fds f.fd = some (.readEnd q) ∧
      r.delivered = (k.buffer q).take size ∧ k' = k.setBuffer q ((k.buffer q).drop size) := by
  unfold Pipe.read Kernel.read at h
  split at h
  · cases h
    exact .inl ⟨rfl, rfl⟩
  · split at h
    · rename_i q hfd
      split at h
      · split at h
        · cases h
          exact .inl ⟨rfl, rfl⟩
        · split at h <;> cases h
          exact .inl ⟨rfl, rfl⟩
      · cases h
        exact .inr ⟨q, hfd, rfl, rfl⟩
    · cases h
      exact .inl ⟨rfl, rfl⟩

section

variable {sent received buffer : Nat → List UInt8}

/-- Bytes go to the end of a pipe. -/
theorem Conserved.push (h : Conserved sent received buffer) (q : Nat) (bytes : List UInt8) :
    Conserved (Function.update sent q (sent q ++ bytes)) received
      (Function.update buffer q (buffer q ++ bytes)) := by
  intro p
  by_cases hp : p = q
  · subst hp
    rw [Function.update_self, Function.update_self, h, List.append_assoc]
  · rw [Function.update_of_ne hp, Function.update_of_ne hp, h]

/-- Bytes come from the front of a pipe. -/
theorem Conserved.pop (h : Conserved sent received buffer) (q n : Nat) :
    Conserved sent (Function.update received q (received q ++ (buffer q).take n))
      (Function.update buffer q ((buffer q).drop n)) := by
  intro p
  by_cases hp : p = q
  · subst hp
    rw [Function.update_self, Function.update_self, List.append_assoc, List.take_append_drop, h]
  · rw [Function.update_of_ne hp, Function.update_of_ne hp, h]

end

/-- A log with no more bytes. -/
theorem record_nil (log : Nat → List UInt8) (f : Option OpenFile) : record log f [] = log := by
  unfold record
  split
  · rw [List.append_nil, Function.update_eq_self]
  · rw [List.append_nil, Function.update_eq_self]
  · rfl

-- ---------------------------------------------------------------------------
-- Runs
-- ---------------------------------------------------------------------------

theorem Carries.write (h : Carries t) {f : Pipe} {bytes : List UInt8} {n : Nat} {r : WriteResult}
    (hwrite : f.write t.kernel bytes n = some (r, k')) :
    Carries { t with
      objects := t.objects.withKernel k'
      sent := record t.sent (t.kernel.fds f.fd) (bytes.take r.accepted) } := by
  rcases write_cases hwrite with ⟨rfl, hnone⟩ | ⟨q, hfd, rfl⟩
  · rw [hnone, record_nil]
    exact h
  · have hsame : t.kernel.SameTable
        (t.kernel.setBuffer q (t.kernel.buffer q ++ bytes.take r.accepted)) := ⟨rfl, rfl, rfl, rfl⟩
    rw [hfd]
    refine ⟨h.tidy.withKernel hsame, (custody_withKernel hsame).symm ▸ h.backed,
      h.conserved.push q _, fun p hp => ?_⟩
    -- the pipe has been made, so it is none of those to come
    have hlt : q < t.kernel.next := h.tidy.sane.wf.writeEnd_lt hfd
    have hle : t.kernel.next ≤ p := hp
    exact (Function.update_of_ne (by omega) ..).trans (h.fresh p hp)

theorem Carries.read (h : Carries t) {f : Pipe} {size : Nat} {r : ReadResult}
    (hread : f.read t.kernel size = some (r, k')) :
    Carries { t with
      objects := t.objects.withKernel k'
      received := record t.received (t.kernel.fds f.fd) r.delivered } := by
  rcases read_cases hread with ⟨rfl, hnone⟩ | ⟨q, hfd, hbytes, rfl⟩
  · rw [hnone, record_nil]
    exact h
  · have hsame : t.kernel.SameTable (t.kernel.setBuffer q ((t.kernel.buffer q).drop size)) :=
      ⟨rfl, rfl, rfl, rfl⟩
    rw [hfd, hbytes]
    exact ⟨h.tidy.withKernel hsame, (custody_withKernel hsame).symm ▸ h.backed,
      h.conserved.pop q size, h.fresh⟩

/-- A flag holds up no bytes. -/
theorem Carries.setNonblocking (h : Carries t) (f : Pipe) (status : Bool) :
    Carries { t with objects := t.objects.withKernel (f.setNonblocking t.kernel status) } := by
  have hsame : t.kernel.SameTable (f.setNonblocking t.kernel status) := by
    unfold Pipe.setNonblocking
    split
    · exact .refl _
    · exact Kernel.setNonblock_sameTable ..
  have hbuffer : (f.setNonblocking t.kernel status).buffer = t.kernel.buffer := by
    unfold Pipe.setNonblocking Kernel.setNonblock
    split
    · rfl
    · split <;> rfl
  refine ⟨h.tidy.withKernel hsame, (custody_withKernel hsame).symm ▸ h.backed, ?_, ?_⟩
  · rw [Traffic.kernel, State.withKernel, hbuffer]
    exact h.conserved
  · rw [Traffic.kernel, State.withKernel, hsame.next]
    exact h.fresh

theorem Carries.call (h : Carries t) (hstep : Objects.step t.objects e = some s') (hno : e.NoFile) :
    Carries { t with objects := s' } := by
  have hcall := step_called hstep
  have hadopt : e.Adopts → False := by
    cases e with
    | adopt => exact fun _ => hno
    | default | openFile | create | openFifo | copyConstruct | copyAssign | moveConstruct | moveAssign
    | destroy => exact id
  have hempty : t.kernel.buffer t.kernel.next = [] := by
    have hsent := h.fresh t.kernel.next (Nat.le_refl _)
    rw [h.conserved, List.append_eq_nil_iff] at hsent
    exact hsent.2
  have hquiet := hcall.quiet hempty
  have hdoes := hcall.does h.tidy.sane (h.tidy.setsFd e) hadopt
  refine ⟨h.tidy.step hstep hno, h.backed.steps h.tidy.accounted hdoes.steps, ?_, fun q hq => ?_⟩
  · rw [Traffic.kernel, hquiet.buffer]
    exact h.conserved
  · exact h.fresh q (Nat.le_trans hquiet.next hq)

/-- A call of a constructor of `File` is not among the uses. -/
def Use.NoFile : Use → Prop
  | call e => e.NoFile
  | write .. | read .. | setNonblocking .. => True

theorem Carries.step {u : Use} (h : Carries t) (hno : u.NoFile) (hstep : t.step u = some t') :
    Carries t' := by
  cases u with
  | call e =>
    obtain ⟨s', hcall, rfl⟩ := Option.map_eq_some_iff.mp hstep
    exact h.call hcall hno
  | write id bytes n =>
    simp only [Traffic.step] at hstep
    split at hstep
    · obtain ⟨⟨r, k'⟩, hwrite, rfl⟩ := Option.map_eq_some_iff.mp hstep
      exact h.write hwrite
    · cases hstep
  | read id size =>
    simp only [Traffic.step] at hstep
    split at hstep
    · obtain ⟨⟨r, k'⟩, hread, rfl⟩ := Option.map_eq_some_iff.mp hstep
      exact h.read hread
    · cases hstep
  | setNonblocking id status =>
    simp only [Traffic.step] at hstep
    split at hstep
    · cases hstep
      exact h.setNonblocking ..
    · cases hstep

variable {limit capacity : Nat} {files : Int → Option Nat} {us : List Use}

theorem carries_init (hzero : (Kernel.initial limit capacity files).fds 0 ≠ none) :
    Carries (traffic limit capacity files).init := by
  refine ⟨tidy_init hzero, ?_, fun q => rfl, fun q _ => rfl⟩
  intro fd f hfd hend
  change (Kernel.initial limit capacity files).fds fd = some f at hfd
  simp only [Kernel.initial] at hfd
  split at hfd
  · obtain ⟨n, -, rfl⟩ := Option.map_eq_some_iff.mp hfd
    exact hend.elim
  · cases hfd

theorem run_carries (hzero : (Kernel.initial limit capacity files).fds 0 ≠ none)
    (hus : ∀ u ∈ us, u.NoFile) (hrun : (traffic limit capacity files).run us = some t) :
    Carries t := by
  exact (traffic limit capacity files).runFrom_invariant (fun h hno hstep => h.step hno hstep) hus
    (carries_init hzero) hrun

-- ---------------------------------------------------------------------------
-- Ends of pipes
-- ---------------------------------------------------------------------------

/-- An end of a pipe is open while an object has it. -/
theorem Carries.isOpen_iff (h : Carries t) {f : OpenFile} (hf : IsEnd f) :
    t.kernel.isOpen f = true ↔ t.objects.HasEnd f := by
  constructor
  · intro hopen
    obtain ⟨fd, -, hfd⟩ := List.any_eq_true.mp hopen
    have hfd : t.kernel.fds fd = some f := of_decide_eq_true hfd
    obtain ⟨id, hid⟩ := h.tidy.accounted.holder h.backed hfd hf
    obtain ⟨o, ho, heq⟩ := Option.map_eq_some_iff.mp hid
    refine ⟨id, o, ho, ?_, heq ▸ hfd⟩
    exact decide_eq_true (heq ▸ (h.tidy.sane.wf.range hfd).1)
  · rintro ⟨id, o, -, -, hfd⟩
    exact h.tidy.sane.wf.isOpen hfd

/-- What `read` of at least one byte returns from pipe `q`. -/
structure Reads (t : Traffic) (q size : Nat) (f : Pipe) (outcome : Option ReadResult) : Prop where
  bytes : ∀ bs, outcome = some (.bytes bs) ↔ bs = (t.kernel.buffer q).take size ∧ bs ≠ []
  /-- It says that the input has ended iff no object can write any more. -/
  eof : outcome = some .eof ↔ t.kernel.buffer q = [] ∧ ¬ t.objects.HasEnd (.writeEnd q)
  again : outcome = some (.failed .eagain) ↔ t.kernel.buffer q = [] ∧
    t.objects.HasEnd (.writeEnd q) ∧ f.isNonblocking t.kernel = true
  blocks : outcome = none ↔ t.kernel.buffer q = [] ∧
    t.objects.HasEnd (.writeEnd q) ∧ f.isNonblocking t.kernel = false

theorem Carries.reads (h : Carries t) {f : Pipe} {q size : Nat} (hvalid : 0 ≤ f.fd)
    (hfd : t.kernel.fds f.fd = some (.readEnd q)) (hsize : 0 < size) :
    Reads t q size f ((f.read t.kernel size).map Prod.fst) := by
  have hnot : ¬ f.fd < 0 := Int.not_lt.mpr hvalid
  have hopen := h.isOpen_iff (f := .writeEnd q) trivial
  have hflag : f.isNonblocking t.kernel = t.kernel.nonblock (.readEnd q) := by
    simp only [Pipe.isNonblocking, hnot, if_false, Kernel.getNonblock, hfd, Option.map_some,
      Option.getD_some]
  have htake : (t.kernel.buffer q).take size = [] ↔ t.kernel.buffer q = [] := by
    rw [List.take_eq_nil_iff]
    exact or_iff_right (by omega)
  simp only [Pipe.read, hnot, if_false, Kernel.read, hfd, List.isEmpty_iff]
  by_cases hempty : t.kernel.buffer q = []
  · cases hwriter : t.kernel.isOpen (.writeEnd q) with
    | false =>
      have hnone : ¬ t.objects.HasEnd (.writeEnd q) := by simp [← hopen, hwriter]
      constructor <;> simp [hempty, hnone]
    | true =>
      have hsome : t.objects.HasEnd (.writeEnd q) := hopen.mp hwriter
      cases hagain : t.kernel.nonblock (.readEnd q) <;>
        constructor <;> simp [hempty, hsome, hflag, hagain]
  · have hbytes : (t.kernel.buffer q).take size ≠ [] := fun h => hempty (htake.mp h)
    constructor
    · intro bs
      simp only [hempty, if_false, Option.map_some, Option.some.injEq, ReadResult.bytes.injEq]
      constructor
      · rintro rfl
        exact ⟨rfl, hbytes⟩
      · exact fun h => h.1.symm
    all_goals simp [hempty]

/-- `write` of any bytes fails for good iff no object can read them any more. -/
theorem Carries.writes (h : Carries t) {f : Pipe} {q n : Nat} {bytes : List UInt8}
    (hvalid : 0 ≤ f.fd) (hfd : t.kernel.fds f.fd = some (.writeEnd q)) (hbytes : bytes ≠ []) :
    (f.write t.kernel bytes n).map Prod.fst = some (.failed .other) ↔
      ¬ t.objects.HasEnd (.readEnd q) := by
  have hnot : ¬ f.fd < 0 := Int.not_lt.mpr hvalid
  have hopen := h.isOpen_iff (f := .readEnd q) trivial
  simp only [Pipe.write, hnot, if_false, Kernel.write, hfd, List.isEmpty_iff, hbytes, ← hopen]
  cases t.kernel.isOpen (.readEnd q) with
  | false => simp
  | true =>
    simp only [Bool.not_true, Bool.false_eq_true, if_false, not_true_eq_false, iff_false]
    split
    · simp
    · split <;> simp

/-- Pipes between any number of `Pipe` objects that are copied, moved, assigned
and destroyed: every byte that was written is read once, in order, and a reader
finds the end of its input, and a writer the end of its readers, exactly when
the last object with the other end is gone. -/
theorem pipes_carry (hzero : (Kernel.initial limit capacity files).fds 0 ≠ none)
    (hus : ∀ u ∈ us, u.NoFile) (hrun : (traffic limit capacity files).run us = some t) :
    (∀ q, t.sent q = t.received q ++ t.kernel.buffer q) ∧
    ∀ id f, t.objects.live id = some (.pipe f) → f.ok = true →
      ∃ q, t.kernel.fds f.fd = some (if f.readEnd then .readEnd q else .writeEnd q) ∧
        (f.readEnd = true → ∀ size, 0 < size →
          Reads t q size f ((f.read t.kernel size).map Prod.fst)) ∧
        (f.readEnd = false → ∀ bytes n, bytes ≠ [] →
          ((f.write t.kernel bytes n).map Prod.fst = some (.failed .other) ↔
            ¬ t.objects.HasEnd (.readEnd q))) := by
  have h := run_carries hzero hus hrun
  refine ⟨h.conserved, fun id f hid hok => ?_⟩
  have hvalid : 0 ≤ f.fd := of_decide_eq_true hok
  obtain ⟨q, hq⟩ := h.tidy.reports id _ hid hvalid
  refine ⟨q, hq, fun hread size hsize => ?_, fun hwrite bytes n hbytes => ?_⟩
  · rw [hread, if_pos rfl] at hq
    exact h.reads hvalid hq hsize
  · rw [hwrite, if_neg (by decide)] at hq
    exact h.writes hvalid hq hbytes

/-- A write end and its copy, of which the copy goes last. -/
theorem pipes_carry_lastWriter :
    let f : Pipe := { fd := 3, readEnd := true }
    ∃ t q, (traffic 8 16 fun fd => if fd = 0 then some 0 else none).run
      [.call (.create 0 1 (some (3, 4))), .call (.copyConstruct 2 1 (some 5) 0),
        .write 2 [7, 8, 9] 2, .call (.destroy 1), .read 0 1, .setNonblocking 0 true, .read 0 4,
        .call (.destroy 2)] = some t ∧
      t.received 0 ++ t.kernel.buffer 0 = [7, 8] ∧ (f.read t.kernel 4).map Prod.fst = some .eof ∧
      t.kernel.buffer q = [] ∧ ¬ t.objects.HasEnd (.writeEnd q) := by
  intro f
  have hview : ((traffic 8 16 fun fd => if fd = 0 then some 0 else none).run
      [.call (.create 0 1 (some (3, 4))), .call (.copyConstruct 2 1 (some 5) 0),
        .write 2 [7, 8, 9] 2, .call (.destroy 1), .read 0 1, .setNonblocking 0 true, .read 0 4,
        .call (.destroy 2)]).map
      (fun t => (t.objects.live 0, t.sent 0, (f.read t.kernel 4).map Prod.fst)) =
        some (some (.pipe f), [7, 8], some .eof) := by
    decide +kernel
  obtain ⟨t, hrun, hview⟩ := Option.map_eq_some_iff.mp hview
  obtain ⟨hlive, hview⟩ := Prod.mk.inj hview
  obtain ⟨hsent, heof⟩ := Prod.mk.inj hview
  obtain ⟨hconserved, hends⟩ := pipes_carry (by decide) (by simp [Use.NoFile, Event.NoFile]) hrun
  obtain ⟨q, -, hreads, -⟩ := hends 0 f hlive rfl
  obtain ⟨hempty, hnone⟩ := (hreads rfl 4 (by decide)).eof.mp heof
  exact ⟨t, q, hrun, (hconserved 0).symm.trans hsent, heof, hempty, hnone⟩

end Objects

end Rix.Ipc
