-- SUMMARY: The invariant of the Signal registry: slots, owners, pipes and dispositions are kept in step.
import MBotTeleop.Ipc.Signal
import MBotTeleop.Lib.Ownership

/-!
# The registry

A slot of the table is in use exactly while one object owns it. It then has the
two ends of a pipe that no other slot uses, and its signal has the handler.
-/

namespace Rix.Ipc.Signal

-- ---------------------------------------------------------------------------
-- Slots
-- ---------------------------------------------------------------------------

theorem slot?_eq_some {v : Int} {i : Fin 32} : slot? v = some i ↔ v = i := by
  unfold slot?
  constructor
  · intro h
    split at h
    · cases h
      simp only [Int.toNat_of_nonneg, *]
    · cases h
  · rintro rfl
    rw [dif_pos (by omega)]
    exact congrArg some (Fin.ext (Int.toNat_natCast _))

@[simp] theorem slot?_natCast (i : Fin 32) : slot? i = some i := slot?_eq_some.mpr rfl

/-- The pipes of slot `n` are the two ends of pipe `p`. -/
structure Notifier.Ends (n : Notifier) (k : Kernel) (p : Nat) : Prop where
  read : k.fds n.pipe0.fd = some (.readEnd p)
  write : k.fds n.pipe1.fd = some (.writeEnd p)

theorem Notifier.Ends.unique {n : Notifier} {k : Kernel} {p q : Nat} (hp : n.Ends k p)
    (hq : n.Ends k q) : p = q := by
  have := hp.read.symm.trans hq.read
  cases this
  rfl

/-- The pipes of the slot are invalid. -/
structure Notifier.NoPipe (n : Notifier) : Prop where
  pipe0 : n.pipe0.fd = -1
  pipe1 : n.pipe1.fd = -1

theorem Notifier.NoPipe.not_ends {n : Notifier} (h : n.NoPipe) {k : Kernel} (hk : k.WF) (p : Nat) :
    ¬ n.Ends k p := by
  intro hends
  have hrange := hk.range hends.read
  rw [h.pipe0] at hrange
  omega

/-- Assigning pipes destroys the old ones. -/
theorem assignPipes_eq (n : Notifier) (k : Kernel) (t0 t1 : Pipe) :
    n.assignPipes k t0 t1 =
      ({ n with pipe0 := t0, pipe1 := t1 }, Pipe.destroy (Pipe.destroy k n.pipe0) n.pipe1) := by
  by_cases h0 : 0 < n.pipe0.fd <;> by_cases h1 : 0 < n.pipe1.fd <;>
    simp [Notifier.assignPipes, Pipe.moveAssign, Pipe.destroy, h0, h1]

/-- The slots that are in use, their pipes and their dispositions. A slot can be
in use without pipes only where `failed` says that a `::pipe` did fail. -/
structure Slots (failed : Prop) (notifier : Fin 32 → Notifier) (disposition : Int → Disposition)
    (k : Kernel) : Prop where
  wf : k.WF
  used : ∀ i, (notifier i).isInit = true → (∃ p, (notifier i).Ends k p) ∨ failed ∧ (notifier i).NoPipe
  unused : ∀ i, (notifier i).isInit = false → (notifier i).NoPipe
  apart : ∀ i j p, (notifier i).Ends k p → (notifier j).Ends k p → i = j
  handled : ∀ i : Fin 32, (notifier i).isInit = true ↔ disposition (i + 1) = .handler

namespace Slots

variable {failed : Prop} {notifier : Fin 32 → Notifier} {disposition : Int → Disposition}
  {k : Kernel}

theorem mono {failed' : Prop} (h : Slots failed notifier disposition k) (himp : failed → failed') :
    Slots failed' notifier disposition k :=
  { h with used := fun i hi => (h.used i hi).imp_right fun hno => ⟨himp hno.1, hno.2⟩ }

/-- A slot that has a pipe is in use. -/
theorem isInit_of_ends (h : Slots failed notifier disposition k) {i : Fin 32} {p : Nat}
    (hp : (notifier i).Ends k p) : (notifier i).isInit = true := by
  by_contra hinit
  exact (h.unused i (by simpa using hinit)).not_ends h.wf p hp

/-- Where no `::pipe` failed, a slot is in use iff it has the two ends of a pipe. -/
theorem isInit_iff (h : Slots failed notifier disposition k) (hnot : ¬ failed) (i : Fin 32) :
    (notifier i).isInit = true ↔ ∃ p, (notifier i).Ends k p :=
  ⟨fun hi => (h.used i hi).resolve_right fun hno => hnot hno.1, fun ⟨_, hp⟩ => h.isInit_of_ends hp⟩

/-- A slot has a pipe, or it has none. -/
theorem pipes (h : Slots failed notifier disposition k) (i : Fin 32) :
    (∃ p, (notifier i).Ends k p) ∨ (notifier i).NoPipe := by
  cases hi : (notifier i).isInit with
  | true => exact (h.used i hi).imp_right And.right
  | false => exact .inr (h.unused i hi)

/-- A kernel with the same descriptors serves the slots as well. -/
theorem congr (h : Slots failed notifier disposition k) {k' : Kernel} (hk : k.SameTable k') :
    Slots failed notifier disposition k' where
  wf := by
    refine ⟨fun hfd => ?_, fun hfd => ?_, fun hfd => ?_⟩ <;> rw [hk.fds] at hfd
    · rw [hk.limit]
      exact h.wf.range hfd
    · rw [hk.next]
      exact h.wf.readEnd_lt hfd
    · rw [hk.next]
      exact h.wf.writeEnd_lt hfd
  used i hi := (h.used i hi).imp_left fun ⟨p, hp⟩ => ⟨p, hk.fds ▸ hp.read, hk.fds ▸ hp.write⟩
  unused := h.unused
  apart i j p hi hj :=
    h.apart i j p ⟨hk.fds ▸ hi.read, hk.fds ▸ hi.write⟩ ⟨hk.fds ▸ hj.read, hk.fds ▸ hj.write⟩
  handled := h.handled

/-- A slot that has a pipe after `::pipe` had it before. -/
theorem ends_of_pipe (h : Slots failed notifier disposition k) {r w : Int} (hpipe : k.Free r w)
    {j : Fin 32} {p : Nat} (hj : (notifier j).Ends (k.pipe r w) p) :
    (notifier j).Ends k p ∧ p < k.next := by
  obtain ⟨q, hq⟩ := (h.pipes j).resolve_right fun hno => hno.not_ends (h.wf.pipe hpipe) p hj
  have hq' : (notifier j).Ends (k.pipe r w) q :=
    ⟨Kernel.pipe_fds_of_some hpipe hq.read, Kernel.pipe_fds_of_some hpipe hq.write⟩
  obtain rfl := hj.unique hq'
  exact ⟨hq, h.wf.readEnd_lt hq.read⟩

/-- A slot that has a pipe after slot `i` was given up had it before. -/
theorem ends_of_free (h : Slots failed notifier disposition k) {i j : Fin 32} {p : Nat}
    (hj : ((Function.update notifier i {}) j).Ends
      (Pipe.destroy (Pipe.destroy k (notifier i).pipe0) (notifier i).pipe1) p) :
    (notifier j).Ends k p := by
  have hread := Pipe.fds_of_destroy (Pipe.fds_of_destroy hj.read)
  have hwrite := Pipe.fds_of_destroy (Pipe.fds_of_destroy hj.write)
  by_cases hji : j = i
  · rw [hji, Function.update_self] at hread
    have hrange := h.wf.range hread
    have hfd : ({} : Notifier).pipe0.fd = -1 := rfl
    omega
  · rw [Function.update_of_ne hji] at hread hwrite
    exact ⟨hread, hwrite⟩

/-- One slot is changed, with the disposition of its signal. The kernel may change,
but the other slots keep their pipes, and none of these is the new one. -/
theorem change (h : Slots failed notifier disposition k) {i : Fin 32} {n : Notifier}
    {d : Disposition} {k' : Kernel} (hwf : k'.WF)
    (hused : n.isInit = true → (∃ p, n.Ends k' p) ∨ failed ∧ n.NoPipe)
    (hunused : n.isInit = false → n.NoPipe) (hhandled : n.isInit = true ↔ d = .handler)
    (hkept : ∀ j p, j ≠ i → ((notifier j).Ends k' p ↔ (notifier j).Ends k p))
    (hapart : ∀ j p, n.Ends k' p → ¬ (notifier j).Ends k p) :
    Slots failed (Function.update notifier i n) (Function.update disposition (i + 1) d) k' where
  wf := hwf
  used := by
    apply (Function.forall_update_iff notifier fun _ n =>
      n.isInit = true → (∃ p, n.Ends k' p) ∨ failed ∧ n.NoPipe).mpr
    refine ⟨hused, fun j hji hj => (h.used j hj).imp_left ?_⟩
    rintro ⟨p, hp⟩
    exact ⟨p, (hkept j p hji).mpr hp⟩
  unused := by
    apply (Function.forall_update_iff notifier fun _ n => n.isInit = false → n.NoPipe).mpr
    exact ⟨hunused, fun j _ => h.unused j⟩
  apart j j' p hj hj' := by
    by_cases hji : j = i <;> by_cases hji' : j' = i
    · rw [hji, hji']
    · rw [hji, Function.update_self] at hj
      rw [Function.update_of_ne hji', hkept j' p hji'] at hj'
      exact (hapart j' p hj hj').elim
    · rw [hji', Function.update_self] at hj'
      rw [Function.update_of_ne hji, hkept j p hji] at hj
      exact (hapart j p hj' hj).elim
    · rw [Function.update_of_ne hji, hkept j p hji] at hj
      rw [Function.update_of_ne hji', hkept j' p hji'] at hj'
      exact h.apart j j' p hj hj'
  handled j := by
    by_cases hji : j = i
    · subst hji
      rwa [Function.update_self, Function.update_self]
    · have hne : ((j : Int) + 1) ≠ (i : Int) + 1 := fun heq => hji (Fin.ext (by omega))
      rw [Function.update_of_ne hji, Function.update_of_ne hne]
      exact h.handled j

/-- A free slot gets a new pipe and the handler. -/
theorem claim (h : Slots failed notifier disposition k) {i : Fin 32} {r w : Int}
    (hpipe : k.Free r w) :
    Slots failed (Function.update notifier i
        { pipe0 := { fd := r, readEnd := true }, pipe1 := { fd := w }, isInit := true })
      (Function.update disposition (i + 1) .handler) (k.pipe r w) := by
  apply h.change (h.wf.pipe hpipe)
  · exact fun _ => .inl ⟨k.next, Kernel.pipe_fds_read hpipe, Kernel.pipe_fds_write r w⟩
  · rintro ⟨⟩
  · exact iff_of_true rfl rfl
  · intro j p _
    constructor
    · exact fun hp => (h.ends_of_pipe hpipe hp).1
    · exact fun hp =>
        ⟨Kernel.pipe_fds_of_some hpipe hp.read, Kernel.pipe_fds_of_some hpipe hp.write⟩
  · -- the new pipe has a number that no slot's pipe has
    intro j p hnew hold
    have hlt := h.wf.readEnd_lt hold.read
    cases hnew.write.symm.trans (Kernel.pipe_fds_write r w)
    exact Nat.lt_irrefl _ hlt

/-- A free slot gets the handler, but no pipe. -/
theorem claim_failed (h : Slots failed notifier disposition k) (hfailed : failed) {i : Fin 32}
    {n : Notifier} (hn : n.isInit = true) (hno : n.NoPipe) :
    Slots failed (Function.update notifier i n) (Function.update disposition (i + 1 : Int) .handler)
      k := by
  apply h.change h.wf
  · exact fun _ => .inr ⟨hfailed, hno⟩
  · exact fun _ => hno
  · exact iff_of_true hn rfl
  · exact fun j p _ => Iff.rfl
  · exact fun j p hp => (hno.not_ends h.wf p hp).elim

/-- The other slots keep their pipes when slot `i` is given up. -/
theorem ends_free (h : Slots failed notifier disposition k) {i j : Fin 32} (hji : j ≠ i) {q : Nat}
    (hq : (notifier j).Ends k q) :
    (notifier j).Ends (Pipe.destroy (Pipe.destroy k (notifier i).pipe0) (notifier i).pipe1) q := by
  rcases h.pipes i with ⟨p, hp⟩ | hno
  · have hqp : q ≠ p := fun heq => hji (h.apart j i q hq (heq ▸ hp))
    -- a descriptor of slot `j` refers to an end of another pipe than one of slot `i`
    have hkeep {fd : Int} {f : OpenFile} (hfd : k.fds fd = some f) (hread : f ≠ .readEnd p)
        (hwrite : f ≠ .writeEnd p) :
        (Pipe.destroy (Pipe.destroy k (notifier i).pipe0) (notifier i).pipe1).fds fd = some f := by
      have hne0 : fd ≠ (notifier i).pipe0.fd := fun heq =>
        hread (Option.some.inj (hfd.symm.trans (heq ▸ hp.read)))
      have hne1 : fd ≠ (notifier i).pipe1.fd := fun heq =>
        hwrite (Option.some.inj (hfd.symm.trans (heq ▸ hp.write)))
      exact Pipe.destroy_fds (Pipe.destroy_fds hfd hne0) hne1
    exact ⟨hkeep hq.read (fun heq => hqp (OpenFile.readEnd.inj heq)) nofun,
      hkeep hq.write nofun (fun heq => hqp (OpenFile.writeEnd.inj heq))⟩
  · rwa [Pipe.destroy_invalid hno.pipe0, Pipe.destroy_invalid hno.pipe1]

/-- A slot gives up its pipe and the handler. -/
theorem free (h : Slots failed notifier disposition k) (i : Fin 32) :
    Slots failed (Function.update notifier i {}) (Function.update disposition (i + 1) .default)
      (Pipe.destroy (Pipe.destroy k (notifier i).pipe0) (notifier i).pipe1) := by
  have hno : Notifier.NoPipe {} := ⟨rfl, rfl⟩
  have hwf := Pipe.destroy_wf (Pipe.destroy_wf h.wf (notifier i).pipe0) (notifier i).pipe1
  apply h.change hwf
  · rintro ⟨⟩
  · exact fun _ => hno
  · exact iff_of_false nofun nofun
  · intro j p hji
    constructor
    · exact fun hp => h.ends_of_free (by rwa [Function.update_of_ne hji])
    · exact h.ends_free hji
  · exact fun j p hp => (hno.not_ends hwf p hp).elim

end Slots

-- ---------------------------------------------------------------------------
-- Operations
-- ---------------------------------------------------------------------------

/-- The constructor throws where the number is out of range or the slot in use,
and has changed nothing then. Elsewhere it claims the slot. -/
theorem construct_cases (s : State) (id : Nat) (signum : Int) (pipe : Option (Int × Int)) :
    (((signum < 1 ∨ 32 < signum) ∨ ∃ i : Fin 32, signum = i + 1 ∧ (s.notifier i).isInit = true) ∧
      ∃ message, s.construct id signum pipe = (s, some message)) ∨
    ∃ i : Fin 32, signum = i + 1 ∧ (s.notifier i).isInit = false ∧
      s.construct id signum pipe =
        ({ notifier := Function.update s.notifier i
            { pipe0 := (Pipe.create s.kernel pipe).2.1, pipe1 := (Pipe.create s.kernel pipe).2.2,
              isInit := true }
           live := Function.update s.live id (some i)
           disposition := Function.update s.disposition signum .handler
           kernel := Pipe.destroy (Pipe.destroy (Pipe.create s.kernel pipe).1
            (s.notifier i).pipe0) (s.notifier i).pipe1 }, none) := by
  unfold State.construct
  split
  · rename_i hrange
    exact .inl ⟨.inl hrange, _, rfl⟩
  · rename_i hrange
    have hsignum : signum = ((⟨(signum - 1).toNat, by omega⟩ : Fin 32) : Int) + 1 := by
      simp only
      omega
    simp only
    split
    · rename_i hinit
      exact .inl ⟨.inr ⟨_, hsignum, hinit⟩, _, rfl⟩
    · rename_i hinit
      refine .inr ⟨_, hsignum, by simpa using hinit, ?_⟩
      rw [assignPipes_eq]

/-- Giving a slot up that is owned. -/
theorem release_cases (s : State) (v : Int) :
    (s.release v = s ∧ ∀ i, slot? v = some i → (s.notifier i).isInit = false) ∨
    ∃ i : Fin 32, slot? v = some i ∧ (s.notifier i).isInit = true ∧
      s.release v =
        { s with
          notifier := Function.update s.notifier i {}
          kernel := Pipe.destroy (Pipe.destroy s.kernel (s.notifier i).pipe0) (s.notifier i).pipe1
          disposition := Function.update s.disposition (i + 1) .default } := by
  unfold State.release
  split
  · rename_i hslot
    exact .inl ⟨rfl, fun i hi => by rw [hslot] at hi; cases hi⟩
  · rename_i i hslot
    split
    · rename_i hinit
      refine .inr ⟨i, hslot, hinit, ?_⟩
      rw [assignPipes_eq, slot?_eq_some.mp hslot]
    · rename_i hinit
      refine .inl ⟨rfl, fun j hj => ?_⟩
      rw [hslot] at hj
      cases hj
      simpa using hinit

/-- The slot that an object owns, if it is valid. -/
def holds (live : Nat → Option Int) (id : Nat) : Option (Fin 32) := (live id).bind slot?

theorem holds_eq_some {live : Nat → Option Int} {id : Nat} {i : Fin 32} :
    holds live id = some i ↔ live id = some (i : Int) := by
  unfold holds
  cases live id with
  | none => simp
  | some v => rw [Option.bind_some, slot?_eq_some, Option.some.injEq]

theorem holds_update (live : Nat → Option Int) (id : Nat) (v : Option Int) :
    holds (Function.update live id v) = Function.update (holds live) id (v.bind slot?) := by
  funext x
  unfold holds
  by_cases hx : x = id
  · simp [hx]
  · simp [hx]

/-- The invariant: the slots in use have their pipe and handler, and each has
one owner. -/
structure Registry (failed : Prop) (s : State) : Prop where
  slots : Slots failed s.notifier s.disposition s.kernel
  owners : Owns (holds s.live) fun i => (s.notifier i).isInit = true

/-- Releasing the slot of an object, which then owns none. -/
theorem Registry.release {failed : Prop} {s : State} (h : Registry failed s) {id : Nat} {v : Int}
    (hlive : s.live id = some v) (v' : Option Int) (hv' : v'.bind slot? = none) :
    Registry failed { s.release v with live := Function.update s.live id v' } := by
  have hholds : holds s.live id = slot? v := by rw [holds, hlive, Option.bind_some]
  rcases release_cases s v with ⟨heq, hnone⟩ | ⟨i, hslot, hinit, heq⟩
  · rw [heq]
    refine ⟨h.slots, ?_⟩
    rw [holds_update, hv']
    refine (h.owners.drop id).congr fun i => ⟨fun hi => ⟨hi, fun hid => ?_⟩, fun hi => hi.1⟩
    rw [hholds] at hid
    have hi : (s.notifier i).isInit = true := hi
    rw [hnone i hid] at hi
    cases hi
  · rw [heq]
    refine ⟨h.slots.free i, ?_⟩
    rw [holds_update, hv']
    apply (h.owners.drop id).congr
    intro j
    rw [hholds, hslot]
    by_cases hji : j = i
    · subst hji
      simp
    · simp only [Function.update_of_ne hji]
      exact ⟨fun hj => ⟨hj, fun heq => hji (Option.some.inj heq).symm⟩, fun hj => hj.1⟩

theorem drain_sameTable {readEnd : Pipe} {fuel : Nat} {k k' : Kernel}
    (h : drain readEnd fuel k = some k') : k.SameTable k' := by
  induction fuel generalizing k with
  | zero => cases h
  | succ fuel ih =>
    have hread {r : ReadResult} {k₁ : Kernel} (h : readEnd.read k 64 = some (r, k₁)) :
        k.SameTable k₁ := by
      unfold Pipe.read at h
      split at h
      · cases h
        exact .refl k
      · exact Kernel.read_sameTable h
    simp only [drain] at h
    split at h
    · cases h
    · rename_i heq
      exact (hread heq).trans (ih h)
    · rename_i heq
      cases h
      exact hread heq
    · rename_i heq
      cases h
      exact hread heq

theorem setNonblocking_sameTable (k : Kernel) (p : Pipe) (status : Bool) :
    k.SameTable (p.setNonblocking k status) := by
  unfold Pipe.setNonblocking
  split
  · exact .refl k
  · exact Kernel.setNonblock_sameTable ..

/-- A wait changes flags and bytes at most. -/
theorem wait0_cases {s s' : State} {v : Int} {r : Bool} (h : s.wait0 v = some (r, s')) :
    ∃ k, s' = { s with kernel := k } ∧ s.kernel.SameTable k := by
  have hsame : ∃ k, s = { s with kernel := k } ∧ s.kernel.SameTable k := ⟨s.kernel, rfl, .refl _⟩
  unfold State.wait0 at h
  split at h
  · cases h
    exact hsame
  · split at h
    · unfold State.waitReadable at h
      split at h
      · obtain ⟨k, hdrain, heq⟩ := Option.map_eq_some_iff.mp h
        cases heq
        exact ⟨_, rfl, ((setNonblocking_sameTable ..).trans (drain_sameTable hdrain)).trans
          (setNonblocking_sameTable ..)⟩
      · cases h
        exact hsame
    · cases h
      exact hsame

/-- A delivery changes bytes at most. -/
theorem deliver_cases {s s' : State} {signum : Int} (h : s.deliver signum = some s') :
    ∃ k, s' = { s with kernel := k } ∧ s.kernel.SameTable k := by
  have hsame : ∃ k, s = { s with kernel := k } ∧ s.kernel.SameTable k := ⟨s.kernel, rfl, .refl _⟩
  unfold State.deliver State.handler at h
  split at h
  · split at h
    · cases h
      exact hsame
    · split at h
      · cases h
        exact hsame
      · simp only at h
        split at h
        · cases h
          exact hsame
        · obtain ⟨r, hwrite, rfl⟩ := Option.map_eq_some_iff.mp h
          exact ⟨r.2, rfl, Kernel.writeByte_sameTable hwrite⟩
  · cases h
    exact hsame

-- ---------------------------------------------------------------------------
-- Runs
-- ---------------------------------------------------------------------------

/-- `::pipe` fails in a constructor that then claims its slot. -/
def Event.PipeFails : Event → Prop
  | construct _ _ pipe throws => pipe = none ∧ throws = false
  | moveConstruct .. | moveAssign .. | destroy _ | deliver _ | wait .. => False

theorem registry_init (failed : Prop) (limit capacity : Nat) (files : Int → Option Nat) :
    Registry failed (process limit capacity files).init where
  slots := {
    wf := by
      have hother {fd : Int} {f : OpenFile}
          (hfd : (process limit capacity files).init.kernel.fds fd = some f) :
          (0 ≤ fd ∧ fd < limit) ∧ ∃ n, f = .other n := by
        simp only [process] at hfd
        split at hfd
        · rename_i hrange
          obtain ⟨n, -, rfl⟩ := Option.map_eq_some_iff.mp hfd
          exact ⟨hrange, n, rfl⟩
        · cases hfd
      refine ⟨fun hfd => (hother hfd).1, fun hfd => ?_, fun hfd => ?_⟩
      · obtain ⟨-, n, hn⟩ := hother hfd
        cases hn
      · obtain ⟨-, n, hn⟩ := hother hfd
        cases hn
    used := nofun
    unused := fun _ _ => ⟨rfl, rfl⟩
    apart := fun i j p hi _ => by
      have hfd := hi.read
      simp [process] at hfd
    handled := fun i => iff_of_false nofun nofun }
  owners := Owns.empty.congr fun i => iff_of_false nofun id

/-- A constructor throws and changes nothing, or claims a free slot, with a new
pipe if there is one. -/
theorem step_construct {failed : Prop} {s s' : State} {id : Nat} {signum : Int}
    {pipe : Option (Int × Int)} {throws : Bool} (h : Registry failed s)
    (hstep : step s (.construct id signum pipe throws) = some s') :
    (throws = true ∧ s' = s) ∨
    throws = false ∧ s.live id = none ∧
      ∃ i : Fin 32, signum = i + 1 ∧ (s.notifier i).isInit = false ∧
        ((pipe = none ∧
          s' = { notifier := Function.update s.notifier i { isInit := true }
                 live := Function.update s.live id (some i)
                 disposition := Function.update s.disposition signum .handler
                 kernel := s.kernel }) ∨
        ∃ r w : Int, pipe = some (r, w) ∧ s.kernel.Free r w ∧
          s' = { notifier := Function.update s.notifier i
                  { pipe0 := { fd := r, readEnd := true }, pipe1 := { fd := w }, isInit := true }
                 live := Function.update s.live id (some i)
                 disposition := Function.update s.disposition signum .handler
                 kernel := s.kernel.pipe r w }) := by
  simp only [step] at hstep
  split at hstep
  · rename_i hpre
    split at hstep
    · rename_i hthrows
      cases hstep
      rcases construct_cases s id signum pipe with ⟨-, message, heq⟩ | ⟨i, hsignum, hfree, heq⟩
      · rw [heq] at hthrows ⊢
        exact .inl ⟨hthrows.symm, rfl⟩
      · rw [heq] at hthrows ⊢
        refine .inr ⟨hthrows.symm, hpre.1, i, hsignum, hfree, ?_⟩
        have hunused := h.slots.unused i hfree
        rw [Pipe.destroy_invalid hunused.pipe0, Pipe.destroy_invalid hunused.pipe1]
        cases pipe with
        | none => exact .inl ⟨rfl, rfl⟩
        | some fds => exact .inr ⟨fds.1, fds.2, rfl, hpre.2, rfl⟩
    · cases hstep
  · cases hstep

theorem step_moveConstruct {s s' : State} {id other : Nat}
    (hstep : step s (.moveConstruct id other) = some s') :
    ∃ v, s.live id = none ∧ s.live other = some v ∧ s' = (s.set id v).set other (-1) := by
  simp only [step] at hstep
  split at hstep
  · rename_i v hid hother
    exact ⟨v, hid, hother, (Option.some.inj hstep).symm⟩
  · cases hstep

/-- No object changes when a slot is given up. -/
theorem live_release (s : State) (v : Int) : (s.release v).live = s.live := by
  rcases release_cases s v with ⟨heq, -⟩ | ⟨i, -, -, heq⟩ <;> rw [heq]

/-- A move assignment gives the slot up, and then takes over what the other
object owns, if that is another one. -/
theorem step_moveAssign {s s' : State} {dst other : Nat}
    (hstep : step s (.moveAssign dst other) = some s') :
    ∃ v, s.live dst = some v ∧ s' = { s.release v with
      live := Function.update (Function.update (Function.update s.live dst (some (-1))) dst
        (Function.update s.live dst (some (-1)) other)) other (some (-1)) } := by
  simp only [step] at hstep
  split at hstep
  · rename_i v w hdst hother
    refine ⟨v, hdst, ?_⟩
    split at hstep
    · rename_i heq
      cases hstep
      subst heq
      simp [State.moveAssignSelf, State.set, live_release]
    · rename_i hne
      cases hstep
      have hkept : Function.update s.live dst (some (-1)) other = some w :=
        (Function.update_of_ne (Ne.symm hne) ..).trans hother
      rw [hkept, Function.update_idem]
      simp only [State.moveAssign, State.set, live_release]
  · cases hstep

theorem step_destroy {s s' : State} {id : Nat} (hstep : step s (.destroy id) = some s') :
    ∃ v, s.live id = some v ∧
      s' = { s.release v with live := Function.update s.live id none } := by
  simp only [step] at hstep
  split at hstep
  · rename_i v hid
    exact ⟨v, hid, (Option.some.inj hstep).symm⟩
  · cases hstep

theorem step_wait {s s' : State} {id : Nat} {sig : Int} {result : Bool}
    (hstep : step s (.wait id sig result) = some s') :
    ∃ v, s.live id = some v ∧ sig = signum v ∧ s.wait0 v = some (result, s') := by
  simp only [step] at hstep
  split at hstep
  · rename_i v hid
    split at hstep
    · rename_i hwait
      split at hstep
      · rename_i hlabel
        cases hstep
        exact ⟨v, hid, hlabel.1, hlabel.2 ▸ hwait⟩
      · cases hstep
    · cases hstep
  · cases hstep

/-- An object takes over a free slot. -/
theorem owners_claim {s : State} {id : Nat} {i : Fin 32} {n : Notifier}
    (h : Owns (holds s.live) fun i => (s.notifier i).isInit = true) (hid : s.live id = none)
    (hfree : (s.notifier i).isInit = false) (hn : n.isInit = true) :
    Owns (holds (Function.update s.live id (some (i : Int)))) fun j =>
      (Function.update s.notifier i n j).isInit = true := by
  have hnone : holds s.live id = none := by rw [holds, hid, Option.bind_none]
  have hnot : ¬ (s.notifier i).isInit = true := by rw [hfree]; exact nofun
  simp only [holds_update, Option.bind_some, slot?_natCast]
  apply (h.take hnone hnot).congr
  intro j
  by_cases hji : j = i
  · subst hji
    simp [hn]
  · simp only [Function.update_of_ne hji, hji, false_or]

/-- Every operation keeps the invariant. -/
theorem step_registry {failed : Prop} {s s' : State} {e : Event} (h : Registry failed s)
    (hstep : step s e = some s') : Registry (failed ∨ e.PipeFails) s' := by
  have hslots : Slots (failed ∨ e.PipeFails) s.notifier s.disposition s.kernel := h.slots.mono .inl
  cases e with
  | construct id signum pipe throws =>
    obtain ⟨-, rfl⟩ | ⟨rfl, hid, i, rfl, hfree, ⟨rfl, rfl⟩ | ⟨r, w, rfl, hfds, rfl⟩⟩ :=
      step_construct h hstep
    · exact ⟨hslots, h.owners⟩
    · exact ⟨hslots.claim_failed (.inr ⟨rfl, rfl⟩) rfl ⟨rfl, rfl⟩,
        owners_claim h.owners hid hfree rfl⟩
    · exact ⟨hslots.claim hfds, owners_claim h.owners hid hfree rfl⟩
  | moveConstruct id other =>
    obtain ⟨v, hid, hother, rfl⟩ := step_moveConstruct hstep
    refine ⟨hslots, ?_⟩
    have hnone : holds s.live id = none := by rw [holds, hid, Option.bind_none]
    have hholds : holds s.live other = slot? v := by rw [holds, hother, Option.bind_some]
    have howns := h.owners.move hnone other
    rw [hholds] at howns
    simp only [State.set, holds_update]
    exact howns
  | moveAssign dst other =>
    obtain ⟨v, hdst, rfl⟩ := step_moveAssign hstep
    -- after the release `dst` owns nothing, and takes over what `other` owns then
    have hreleased := h.release hdst (some (-1)) rfl
    refine ⟨hreleased.slots.mono .inl, ?_⟩
    have hnone : holds (Function.update s.live dst (some (-1))) dst = none := by
      simp [holds, slot?]
    have howns := hreleased.owners.move hnone other
    rw [holds_update, holds_update _ dst]
    exact howns
  | destroy id =>
    obtain ⟨v, hid, rfl⟩ := step_destroy hstep
    have hreleased := h.release hid none rfl
    exact ⟨hreleased.slots.mono .inl, hreleased.owners⟩
  | deliver signum =>
    obtain ⟨k, rfl, hk⟩ := deliver_cases hstep
    exact ⟨hslots.congr hk, h.owners⟩
  | wait id sig result =>
    obtain ⟨v, -, -, hwait⟩ := step_wait hstep
    obtain ⟨k, rfl, hk⟩ := wait0_cases hwait
    exact ⟨hslots.congr hk, h.owners⟩

/-- Every run keeps the invariant. -/
theorem run_registry {limit capacity : Nat} {files : Int → Option Nat} {es : List Event} {s : State}
    (hrun : (process limit capacity files).run es = some s) :
    Registry (∃ e ∈ es, e.PipeFails) s := by
  refine (process limit capacity files).run_invariant
    (I := fun es s => Registry (∃ e ∈ es, e.PipeFails) s) ?_ ?_ hrun
  · exact registry_init _ limit capacity files
  · intro es s e s' _ h hstep
    have h' := step_registry h hstep
    refine ⟨h'.slots.mono ?_, h'.owners⟩
    rintro (⟨e', he', hfails⟩ | hfails)
    · exact ⟨e', List.mem_append_left _ he', hfails⟩
    · exact ⟨e, List.mem_append_right _ List.mem_cons_self, hfails⟩

/-- In every reachable state a slot is initialised iff it has exactly one owner,
iff its pipes are the valid ends of one pipe, iff its signal has the handler. A
constructor throws iff the number is out of range or the slot is owned, and has
then changed nothing. -/
theorem registry_invariant {limit capacity : Nat} {files : Int → Option Nat} {es : List Event}
    {s : State} (hrun : (process limit capacity files).run es = some s)
    (hpipe : ∀ e ∈ es, ¬ e.PipeFails) :
    (∀ i : Fin 32,
      ((s.notifier i).isInit = true ↔ ∃! id, s.live id = some (i : Int)) ∧
      (∀ id id', s.live id = some (i : Int) → s.live id' = some (i : Int) → id = id') ∧
      ((s.notifier i).isInit = true ↔ (s.notifier i).pipe0.ok = true ∧ (s.notifier i).pipe1.ok = true ∧
        ∃ p, (s.notifier i).Ends s.kernel p) ∧
      ((s.notifier i).isInit = true ↔ s.disposition (i + 1) = .handler)) ∧
    ∀ id signum pipe s' error, s.construct id signum pipe = (s', error) →
      (error.isSome = true ↔
        (signum < 1 ∨ 32 < signum) ∨ ∃ owner, s.live owner = some (signum - 1)) ∧
      (error.isSome = true → s' = s) := by
  have h := run_registry hrun
  have hnot : ¬ ∃ e ∈ es, e.PipeFails := fun ⟨e, he, hfails⟩ => hpipe e he hfails
  refine ⟨fun i => ⟨?_, fun id id' hid hid' => ?_, ?_, h.slots.handled i⟩, ?_⟩
  · rw [h.owners.existsUnique i]
    simp only [holds_eq_some]
  · exact h.owners.inj (holds_eq_some.mpr hid) (holds_eq_some.mpr hid')
  · rw [h.slots.isInit_iff hnot i]
    refine ⟨fun ⟨p, hp⟩ => ?_, fun ⟨_, _, hends⟩ => hends⟩
    have hread := (h.slots.wf.range hp.read).1
    have hwrite := (h.slots.wf.range hp.write).1
    exact ⟨decide_eq_true hread, decide_eq_true hwrite, p, hp⟩
  · intro id signum pipe s' error hconstruct
    rcases construct_cases s id signum pipe with ⟨hwhy, message, heq⟩ | ⟨i, rfl, hfree, heq⟩
    · rw [heq] at hconstruct
      cases hconstruct
      refine ⟨iff_of_true rfl (hwhy.imp_right ?_), fun _ => rfl⟩
      rintro ⟨i, rfl, hinit⟩
      obtain ⟨owner, howner⟩ := (h.owners.used_iff i).mp hinit
      refine ⟨owner, ?_⟩
      rw [holds_eq_some.mp howner, Int.add_sub_cancel]
    · rw [heq] at hconstruct
      cases hconstruct
      refine ⟨iff_of_false nofun ?_, nofun⟩
      rintro (hrange | ⟨owner, howner⟩)
      · omega
      · rw [Int.add_sub_cancel] at howner
        have hinit := (h.owners.used_iff i).mpr ⟨owner, holds_eq_some.mpr howner⟩
        have hinit : (s.notifier i).isInit = true := hinit
        rw [hfree] at hinit
        cases hinit

/-- Two objects, a constructor that throws, moves, and slots that are given up, by
a move and by a destructor, and claimed again. -/
theorem registry_invariant_example :
    ∃ s, (process 8 16 fun _ => none).run
        [.construct 0 2 (some (3, 4)) false, .construct 1 2 none true,
          .construct 1 15 (some (5, 6)) false, .moveConstruct 2 0, .moveAssign 0 1, .moveAssign 2 2,
          .construct 3 2 (some (4, 3)) false, .destroy 0, .destroy 3,
          .construct 0 15 (some (3, 4)) false] = some s ∧
      ((s.notifier 1).isInit = true ↔ ∃! id, s.live id = some 1) ∧
      ((s.notifier 14).isInit = true ↔ ∃! id, s.live id = some 14) := by
  have hsome : ((process 8 16 fun _ => none).run
      [.construct 0 2 (some (3, 4)) false, .construct 1 2 none true,
        .construct 1 15 (some (5, 6)) false, .moveConstruct 2 0, .moveAssign 0 1, .moveAssign 2 2,
        .construct 3 2 (some (4, 3)) false, .destroy 0, .destroy 3,
        .construct 0 15 (some (3, 4)) false]).isSome = true := by
    decide +kernel
  obtain ⟨s, hs⟩ := Option.isSome_iff_exists.mp hsome
  have hslots := (registry_invariant hs (by simp [Event.PipeFails])).1
  exact ⟨s, hs, (hslots 1).1, (hslots 14).1⟩

end Rix.Ipc.Signal
