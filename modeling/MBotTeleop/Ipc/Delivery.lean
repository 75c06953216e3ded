-- SUMMARY: What Signal::wait reports: a flag for each signal, set by deliveries and cleared by a wait that sees it.
import MBotTeleop.Ipc.Registry

/-!
# Deliveries

The pipe of a slot holds a byte for each delivery that no wait has drained. So a
wait reports whether its signal was delivered since it was claimed and since the
last wait that reported it.
-/

namespace Rix.Ipc.Signal

-- ---------------------------------------------------------------------------
-- Histories
-- ---------------------------------------------------------------------------

/-- After this, earlier deliveries of `sig` count no more: a `Signal` for it was
constructed, or a wait on one returned true. -/
def Event.Resets (sig : Int) : Event → Prop
  | construct _ signum _ throws => signum = sig ∧ throws = false
  | wait _ signum result => signum = sig ∧ result = true
  | moveConstruct .. | moveAssign .. | destroy _ | deliver _ => False

instance (sig : Int) : (e : Event) → Decidable (e.Resets sig)
  | .construct .. | .wait .. => inferInstanceAs (Decidable (_ ∧ _))
  | .moveConstruct .. | .moveAssign .. | .destroy _ | .deliver _ => .isFalse id

/-- How often `sig` was delivered since then. -/
def deliveries (sig : Int) (es : List Event) : Nat :=
  es.foldl (fun n e => if e = .deliver sig then n + 1 else if e.Resets sig then 0 else n) 0

/-- `sig` was delivered since the later of the construction that claimed it and
the last wait on it that returned true. -/
def Delivered (sig : Int) (es : List Event) : Prop :=
  ∃ es₁ es₂, es = es₁ ++ .deliver sig :: es₂ ∧ ∀ e ∈ es₂, ¬ e.Resets sig

theorem delivered_iff_since {sig : Int} {es : List Event} :
    Delivered sig es ↔ Since (· = .deliver sig) (Event.Resets sig) es := by
  constructor
  · rintro ⟨es₁, es₂, heq, hno⟩
    exact ⟨es₁, .deliver sig, es₂, heq, rfl, hno⟩
  · rintro ⟨es₁, e, es₂, heq, rfl, hno⟩
    exact ⟨es₁, es₂, heq, hno⟩

theorem delivered_concat {sig : Int} {es : List Event} {e : Event} :
    Delivered sig (es ++ [e]) ↔ e = .deliver sig ∨ (Delivered sig es ∧ ¬ e.Resets sig) := by
  rw [delivered_iff_since, since_concat, delivered_iff_since]

theorem deliveries_concat (sig : Int) (es : List Event) (e : Event) :
    deliveries sig (es ++ [e]) =
      if e = .deliver sig then deliveries sig es + 1
      else if e.Resets sig then 0
      else deliveries sig es := by
  simp only [deliveries, List.foldl_append, List.foldl_cons, List.foldl_nil]

theorem delivered_iff {sig : Int} {es : List Event} : Delivered sig es ↔ 0 < deliveries sig es := by
  induction es using List.reverseRecOn with
  | nil => exact iff_of_false (fun h => not_since_nil (delivered_iff_since.mp h)) (Nat.lt_irrefl 0)
  | append_singleton es e ih =>
    rw [delivered_concat, deliveries_concat, ih]
    split
    · rename_i he
      exact iff_of_true (.inl he) (Nat.succ_pos _)
    · rename_i he
      split
      · rename_i hreset
        exact iff_of_false (fun h => (h.resolve_left he).2 hreset) (Nat.lt_irrefl 0)
      · rename_i hreset
        exact ⟨fun h => (h.resolve_left he).1, fun h => .inr ⟨h, hreset⟩⟩

-- ---------------------------------------------------------------------------
-- One wait
-- ---------------------------------------------------------------------------

/-- The loop empties the pipe, in pieces of 64 bytes, and ends. -/
theorem drain_eq {readEnd : Pipe} {k : Kernel} {p fuel : Nat} (hfd : 0 ≤ readEnd.fd)
    (hopen : k.fds readEnd.fd = some (.readEnd p)) (hnonblock : k.nonblock (.readEnd p) = true)
    (hfuel : (k.buffer p).length < fuel) : drain readEnd fuel k = some (k.setBuffer p []) := by
  induction fuel generalizing k with
  | zero => omega
  | succ fuel ih =>
    have hvalid : ¬ readEnd.fd < 0 := by omega
    by_cases hempty : (k.buffer p).isEmpty = true
    · rw [← List.isEmpty_iff.mp hempty, Kernel.setBuffer_eq_self]
      cases hwriter : k.isOpen (.writeEnd p) with
      | true => simp [drain, Pipe.read, Kernel.read, hvalid, hopen, hempty, hnonblock, hwriter]
      | false => simp [drain, Pipe.read, Kernel.read, hvalid, hopen, hempty, hwriter]
    · have hshorter : ((k.buffer p).drop 64).length < fuel := by
        have hpos : 0 < (k.buffer p).length :=
          List.length_pos_iff.mpr fun hnil => hempty (List.isEmpty_iff.mpr hnil)
        rw [List.length_drop]
        omega
      have hnext := ih (k := k.setBuffer p ((k.buffer p).drop 64)) hopen hnonblock
        (by rwa [Kernel.setBuffer_buffer])
      rw [Kernel.setBuffer_setBuffer] at hnext
      simp only [drain, Pipe.read, Kernel.read, hvalid, hopen, hempty, if_false]
      exact hnext

/-- Where its pipe holds bytes a wait takes all of them out and is true. Nothing
else changes. -/
theorem waitReadable_eq {s : State} {i : Fin 32} {p : Nat} (hfd : 0 ≤ (s.notifier i).pipe0.fd)
    (hends : (s.notifier i).Ends s.kernel p) :
    s.waitReadable i true = some (true, { s with kernel := s.kernel.setBuffer p [] }) := by
  have hvalid : ¬ (s.notifier i).pipe0.fd < 0 := by omega
  have hread := hends.read
  have hnonblock : (s.kernel.setNonblock (s.notifier i).pipe0.fd true).nonblock (.readEnd p) = true := by
    simp [Kernel.setNonblock, hread]
  have hfds : (s.kernel.setNonblock (s.notifier i).pipe0.fd true).fds (s.notifier i).pipe0.fd =
      some (.readEnd p) := by
    rw [(Kernel.setNonblock_sameTable ..).fds, hread]
  have hfuel : ((s.kernel.setNonblock (s.notifier i).pipe0.fd true).buffer p).length <
      drainFuel (s.notifier i).pipe0 (s.kernel.setNonblock (s.notifier i).pipe0.fd true) := by
    simp [drainFuel, hfds]
  simp only [State.waitReadable, Pipe.isNonblocking, Pipe.setNonblocking, hvalid, if_false, if_true]
  rw [drain_eq hfd hfds hnonblock hfuel]
  simp [Kernel.setNonblock_restore hread]

/-- A wait on a valid object reports whether the pipe holds bytes. -/
theorem wait0_eq {s : State} {i : Fin 32} {p : Nat} (hinit : (s.notifier i).isInit = true)
    (hfd : 0 ≤ (s.notifier i).pipe0.fd) (hends : (s.notifier i).Ends s.kernel p) :
    s.wait0 i = some (if s.kernel.buffer p = [] then (false, s)
      else (true, { s with kernel := s.kernel.setBuffer p [] })) := by
  have hvalid : ¬ (s.notifier i).pipe0.fd < 0 := by omega
  simp only [State.wait0, slot?_natCast, hinit, if_true, Pipe.waitForReadable0, hvalid, if_false,
    Kernel.pollIn, hends.read]
  by_cases hempty : s.kernel.buffer p = []
  · simp [hempty, State.waitReadable]
  · have hbytes : (s.kernel.buffer p).isEmpty = false := by simpa using hempty
    rw [if_neg hempty, hbytes]
    exact waitReadable_eq hfd hends

/-- A wait on a slot without pipes is false. -/
theorem wait0_noPipe {s : State} {i : Fin 32} (h : (s.notifier i).NoPipe) :
    s.wait0 i = some (false, s) := by
  have hinvalid : (s.notifier i).pipe0.fd < 0 := by
    rw [h.pipe0]
    decide
  simp only [State.wait0, slot?_natCast, Pipe.waitForReadable0, hinvalid, if_true,
    State.waitReadable, Bool.false_eq_true, if_false, ite_self]

-- ---------------------------------------------------------------------------
-- Runs
-- ---------------------------------------------------------------------------

/-- The pipe of a slot holds a byte for each unreported delivery of its signal. -/
structure Pending (es : List Event) (s : State) : Prop where
  length : ∀ (i : Fin 32) p, (s.notifier i).Ends s.kernel p →
    (s.kernel.buffer p).length = deliveries (i + 1) es
  /-- Nobody sets the write end of a slot nonblocking. -/
  blocking : ∀ (i : Fin 32) p, (s.notifier i).Ends s.kernel p →
    s.kernel.nonblock (.writeEnd p) = false

theorem Pending.of_pipes {es : List Event} {s : State}
    (h : ∀ (i : Fin 32) p, (s.notifier i).Ends s.kernel p →
      (s.kernel.buffer p).length = deliveries (i + 1) es ∧
        s.kernel.nonblock (.writeEnd p) = false) : Pending es s :=
  ⟨fun i p hp => (h i p hp).1, fun i p hp => (h i p hp).2⟩

/-- It holds bytes iff there was one. -/
theorem Pending.buffer {es : List Event} {s : State} (h : Pending es s) {i : Fin 32} {p : Nat}
    (hp : (s.notifier i).Ends s.kernel p) : s.kernel.buffer p ≠ [] ↔ Delivered (i + 1) es := by
  rw [delivered_iff, ← h.length i p hp, List.length_pos_iff]

/-- An operation that neither delivers nor resets, and leaves the pipes that
remain as they were. -/
theorem Pending.quiet {es : List Event} {s s' : State} {e : Event} (h : Pending es s)
    (he : ∀ sig, e ≠ .deliver sig ∧ ¬ e.Resets sig)
    (hpipes : ∀ (i : Fin 32) p, (s'.notifier i).Ends s'.kernel p → (s.notifier i).Ends s.kernel p ∧
      s'.kernel.buffer p = s.kernel.buffer p ∧
      s'.kernel.nonblock (.writeEnd p) = s.kernel.nonblock (.writeEnd p)) :
    Pending (es ++ [e]) s' where
  length i p hp := by
    obtain ⟨hp', hbuffer, -⟩ := hpipes i p hp
    rw [hbuffer, h.length i p hp', deliveries_concat, if_neg (he _).1, if_neg (he _).2]
  blocking i p hp := by
    obtain ⟨hp', -, hnonblock⟩ := hpipes i p hp
    rw [hnonblock, h.blocking i p hp']

/-- Giving a slot up changes no other pipe. -/
theorem release_pipes {failed : Prop} {s : State} (h : Registry failed s) (v : Int) (i : Fin 32)
    (p : Nat) (hp : ((s.release v).notifier i).Ends (s.release v).kernel p) :
    (s.notifier i).Ends s.kernel p ∧ (s.release v).kernel.buffer p = s.kernel.buffer p ∧
      (s.release v).kernel.nonblock (.writeEnd p) = s.kernel.nonblock (.writeEnd p) := by
  rcases release_cases s v with ⟨heq, -⟩ | ⟨j, -, -, heq⟩
  · rw [heq] at hp ⊢
    exact ⟨hp, rfl, rfl⟩
  · rw [heq] at hp ⊢
    exact ⟨h.slots.ends_of_free hp, by simp, by simp⟩

/-- The handler puts a byte into the pipe of its slot, and blocks where that is
full. -/
theorem deliver_eq {failed : Prop} {s : State} {i : Fin 32} {p : Nat} (h : Registry failed s)
    (hends : (s.notifier i).Ends s.kernel p)
    (hblocking : s.kernel.nonblock (.writeEnd p) = false) :
    s.deliver (i + 1) =
      if (s.kernel.buffer p).length < s.kernel.capacity then
        some { s with kernel := s.kernel.setBuffer p (s.kernel.buffer p ++ [1]) }
      else
        none := by
  have hinit := h.slots.isInit_of_ends hends
  have hwrite := hends.write
  have hvalid : ¬ (s.notifier i).pipe1.fd < 0 := by
    have := (h.slots.wf.range hwrite).1
    omega
  have hreader := h.slots.wf.isOpen hends.read
  rw [State.deliver, if_pos ((h.slots.handled i).mp hinit)]
  simp only [State.handler, Int.add_sub_cancel, slot?_natCast, hinit, Bool.not_true, if_false, hvalid,
    Kernel.writeByte, hwrite, hreader, hblocking, Bool.false_eq_true]
  split <;> rfl

/-- A delivery to a slot that has no pipe does nothing. -/
theorem deliver_noPipe {s : State} {signum : Int}
    (h : ∀ i : Fin 32, signum = i + 1 → (s.notifier i).NoPipe) : s.deliver signum = some s := by
  unfold State.deliver State.handler
  split
  · split
    · rfl
    · rename_i i hslot
      have hsignum : signum = i + 1 := by
        have := slot?_eq_some.mp hslot
        omega
      have hinvalid : (s.notifier i).pipe1.fd < 0 := by
        rw [(h i hsignum).pipe1]
        decide
      simp only [hinvalid, if_true, ite_self]
  · rfl

/-- The operation changes the pipe of slot `i` alone, and the history of its
signal alone. -/
theorem Pending.setBuffer {failed : Prop} {es : List Event} {s : State} {e : Event} {i : Fin 32}
    {p : Nat} {bytes : List UInt8} (hreg : Registry failed s) (h : Pending es s)
    (hends : (s.notifier i).Ends s.kernel p)
    (hself : bytes.length = deliveries (i + 1) (es ++ [e]))
    (he : ∀ sig : Int, sig ≠ i + 1 → e ≠ .deliver sig ∧ ¬ e.Resets sig) :
    Pending (es ++ [e]) { s with kernel := s.kernel.setBuffer p bytes } where
  length j q hq := by
    have hq : (s.notifier j).Ends s.kernel q := ⟨hq.read, hq.write⟩
    by_cases hji : j = i
    · subst hji
      obtain rfl := hq.unique hends
      simp only [Kernel.setBuffer_buffer, hself]
    · have hqp : q ≠ p := fun heq => hji (hreg.slots.apart j i q hq (heq ▸ hends))
      obtain ⟨hdeliver, hno⟩ := he (j + 1) fun heq => hji (Fin.ext (by omega))
      simp only [Kernel.setBuffer_buffer_of_ne hqp]
      rw [h.length j q hq, deliveries_concat, if_neg hdeliver, if_neg hno]
  blocking j q hq := h.blocking j q ⟨hq.read, hq.write⟩

/-- A construction resets the history of its signal, and its pipe is empty. -/
theorem pending_construct {failed : Prop} {es : List Event} {s s' : State} {id : Nat} {signum : Int}
    {pipe : Option (Int × Int)} {throws : Bool} (hreg : Registry failed s) (h : Pending es s)
    (hstep : step s (.construct id signum pipe throws) = some s') :
    Pending (es ++ [.construct id signum pipe throws]) s' := by
  obtain ⟨rfl, rfl⟩ | ⟨rfl, -, i, rfl, -, hcases⟩ := step_construct hreg hstep
  · exact h.quiet (fun sig => ⟨nofun, nofun⟩) fun i p hp => ⟨hp, rfl, rfl⟩
  have hdeliveries (j : Fin 32) (hji : j ≠ i) :
      deliveries (j + 1) (es ++ [.construct id (i + 1) pipe false]) = deliveries (j + 1) es := by
    have hno : ¬ (Event.construct id (i + 1) pipe false).Resets (j + 1) :=
      fun hres => hji (Fin.ext (by have := hres.1; omega))
    rw [deliveries_concat, if_neg nofun, if_neg hno]
  rcases hcases with ⟨rfl, rfl⟩ | ⟨r, w, rfl, hfds, rfl⟩
  · -- slot `i` has no pipe, the others keep theirs
    apply Pending.of_pipes
    intro j p hp
    by_cases hji : j = i
    · simp only [hji, Function.update_self] at hp
      exact (Notifier.NoPipe.not_ends ⟨rfl, rfl⟩ hreg.slots.wf p hp).elim
    · simp only [Function.update_of_ne hji] at hp
      rw [hdeliveries j hji]
      exact ⟨h.length j p hp, h.blocking j p hp⟩
  · apply Pending.of_pipes
    intro j p hp
    by_cases hji : j = i
    · subst hji
      simp only [Function.update_self] at hp
      have hread := hp.read.symm.trans (Kernel.pipe_fds_read hfds)
      obtain rfl : p = s.kernel.next := OpenFile.readEnd.inj (Option.some.inj hread)
      rw [deliveries_concat, if_neg nofun, if_pos ⟨rfl, rfl⟩]
      exact ⟨congrArg List.length (Kernel.pipe_buffer_new r w), by simp [Kernel.pipe]⟩
    · simp only [Function.update_of_ne hji] at hp
      obtain ⟨hp, hlt⟩ := hreg.slots.ends_of_pipe hfds hp
      have hold := h.blocking j p hp
      rw [hdeliveries j hji, ← h.length j p hp]
      refine ⟨congrArg List.length (Kernel.pipe_buffer_of_lt hlt), ?_⟩
      simpa [Kernel.pipe, Nat.ne_of_lt hlt] using hold

theorem pending_deliver {failed : Prop} {es : List Event} {s s' : State} {signum : Int}
    (hreg : Registry failed s) (h : Pending es s) (hstep : s.deliver signum = some s') :
    Pending (es ++ [.deliver signum]) s' := by
  by_cases hused : ∃ (i : Fin 32) (p : Nat), signum = i + 1 ∧ (s.notifier i).Ends s.kernel p
  · obtain ⟨i, p, rfl, hends⟩ := hused
    rw [deliver_eq hreg hends (h.blocking i p hends)] at hstep
    split at hstep
    · obtain rfl := Option.some.inj hstep
      refine h.setBuffer hreg hends ?_ fun sig hne => ⟨?_, fun hres => hres⟩
      · rw [deliveries_concat, if_pos rfl, List.length_append, h.length i p hends]
        rfl
      · exact fun heq => hne (Event.deliver.inj heq).symm
    · cases hstep
  · have hunused (i : Fin 32) (hi : signum = i + 1) : (s.notifier i).NoPipe :=
      (hreg.slots.pipes i).resolve_left fun ⟨p, hp⟩ => hused ⟨i, p, hi, hp⟩
    obtain rfl := Option.some.inj ((deliver_noPipe hunused).symm.trans hstep)
    refine ⟨fun i p hp => ?_, h.blocking⟩
    have hne : Event.deliver signum ≠ .deliver (i + 1) := fun heq =>
      hused ⟨i, p, Event.deliver.inj heq, hp⟩
    have hno : ¬ (Event.deliver signum).Resets (i + 1) := id
    rw [h.length i p hp, deliveries_concat, if_neg hne, if_neg hno]

/-- A wait that returns true empties the pipe and resets the history. -/
theorem pending_wait {failed : Prop} {es : List Event} {s s' : State} {v : Int} {id : Nat}
    {result : Bool} (hreg : Registry failed s) (h : Pending es s)
    (hwait : s.wait0 v = some (result, s')) :
    Pending (es ++ [.wait id (signum v) result]) s' := by
  have hfalse (heq : result = false) (hsame : s' = s) :
      Pending (es ++ [.wait id (signum v) result]) s' := by
    subst heq hsame
    exact h.quiet (fun sig => ⟨nofun, fun hres => nomatch hres.2⟩) fun i p hp => ⟨hp, rfl, rfl⟩
  cases hslot : slot? v with
  | none =>
    simp only [State.wait0, hslot, Option.some.injEq, Prod.mk.injEq] at hwait
    exact hfalse hwait.1.symm hwait.2.symm
  | some i =>
    obtain rfl := slot?_eq_some.mp hslot
    rcases hreg.slots.pipes i with ⟨p, hends⟩ | hno
    · rw [wait0_eq (hreg.slots.isInit_of_ends hends) (hreg.slots.wf.range hends.read).1 hends,
        Option.some.injEq] at hwait
      split at hwait
      · cases hwait
        exact hfalse rfl rfl
      · cases hwait
        have hsig : signum (i : Int) = i + 1 := by
          unfold signum
          rw [if_neg (by omega)]
        refine h.setBuffer hreg hends ?_ fun sig' hne => ⟨nofun, ?_⟩
        · rw [deliveries_concat, if_neg nofun, if_pos ⟨hsig, rfl⟩]
          rfl
        · exact fun hres => hne (hres.1.symm.trans hsig)
    · rw [wait0_noPipe hno] at hwait
      cases hwait
      exact hfalse rfl rfl

/-- Every operation keeps pipes and history in step. -/
theorem step_pending {failed : Prop} {es : List Event} {s s' : State} {e : Event}
    (hreg : Registry failed s) (h : Pending es s) (hstep : step s e = some s') :
    Pending (es ++ [e]) s' := by
  cases e with
  | construct id signum pipe throws => exact pending_construct hreg h hstep
  | moveConstruct id other =>
    obtain ⟨v, -, -, rfl⟩ := step_moveConstruct hstep
    exact h.quiet (fun sig => ⟨nofun, fun hres => hres⟩) fun i p hp => ⟨hp, rfl, rfl⟩
  | moveAssign dst other =>
    obtain ⟨v, -, rfl⟩ := step_moveAssign hstep
    exact h.quiet (fun sig => ⟨nofun, fun hres => hres⟩) (release_pipes hreg v)
  | destroy id =>
    obtain ⟨v, -, rfl⟩ := step_destroy hstep
    exact h.quiet (fun sig => ⟨nofun, fun hres => hres⟩) (release_pipes hreg v)
  | deliver signum => exact pending_deliver hreg h hstep
  | wait id sig result =>
    obtain ⟨v, -, rfl, hwait⟩ := step_wait hstep
    exact pending_wait hreg h hwait

/-- Every run keeps pipes and history in step. -/
theorem run_pending {limit capacity : Nat} {files : Int → Option Nat} {es : List Event} {s : State}
    (hrun : (process limit capacity files).run es = some s) : Pending es s := by
  refine (process limit capacity files).run_invariant (I := Pending) ?_ ?_ hrun
  · have hreg := registry_init False limit capacity files
    apply Pending.of_pipes
    intro i p hp
    cases hreg.slots.isInit_of_ends hp
  · intro es s e s' hrun h hstep
    exact step_pending (run_registry hrun) h hstep

/-- `wait(0)` on a valid `Signal` returns, and returns true iff its signal was
delivered since the later of the construction that claimed it and the last wait
on it that returned true. It changes nothing but the pipe, and the next wait
after a true one is false. Moves and other signals are no part of this history,
and a later construction starts a new one. A wait on a moved-from `Signal` is
false. A run has no delivery to a full pipe, which would block. -/
theorem wait_iff_delivered {limit capacity : Nat} {files : Int → Option Nat} {es : List Event}
    {s : State} (hrun : (process limit capacity files).run es = some s)
    (hpipe : ∀ e ∈ es, ¬ e.PipeFails) :
    (∀ id (i : Fin 32), s.live id = some (i : Int) →
      ∃ result bytes, ∃ s' : State, s.wait0 i = some (result, s') ∧
        (result = true ↔ Delivered (i + 1) es) ∧
        s' = { s with kernel := { s.kernel with buffer := bytes } } ∧
        (s'.notifier i).pipe0.isNonblocking s'.kernel = (s.notifier i).pipe0.isNonblocking s.kernel ∧
        (result = true → s'.wait0 i = some (false, s'))) ∧
    ∀ id v, s.live id = some v → signum v = -1 → s.wait0 v = some (false, s) := by
  have hreg := run_registry hrun
  have hpending := run_pending hrun
  have hnot : ¬ ∃ e ∈ es, e.PipeFails := fun ⟨e, he, hfails⟩ => hpipe e he hfails
  refine ⟨fun id i hlive => ?_, fun id v hlive hmoved => ?_⟩
  · have hinit := (hreg.owners.used_iff i).mpr ⟨id, holds_eq_some.mpr hlive⟩
    obtain ⟨p, hends⟩ := (hreg.slots.isInit_iff hnot i).mp hinit
    have hfd := (hreg.slots.wf.range hends.read).1
    have hwait := wait0_eq hinit hfd hends
    have hiff := hpending.buffer hends
    by_cases hempty : s.kernel.buffer p = []
    · rw [if_pos hempty] at hwait
      exact ⟨false, s.kernel.buffer, s, hwait, iff_of_false nofun fun hd => hiff.mpr hd hempty, rfl,
        rfl, nofun⟩
    · rw [if_neg hempty] at hwait
      refine ⟨true, _, _, hwait, iff_of_true rfl (hiff.mp hempty), rfl, rfl, fun _ => ?_⟩
      have hends' : (s.notifier i).Ends (s.kernel.setBuffer p []) p := ⟨hends.read, hends.write⟩
      rw [wait0_eq (s := { s with kernel := s.kernel.setBuffer p [] }) hinit hfd hends']
      simp
  · have hslot : slot? v = none := by
      unfold slot?
      unfold signum at hmoved
      split at hmoved
      · rw [dif_neg (by omega)]
      · omega
    simp only [State.wait0, hslot]

/-- Many deliveries, one of another signal, a move, a wait between them, and an
object that is destroyed before the slot is claimed and its signal delivered again. -/
theorem wait_iff_delivered_example :
    ∃ s, (process 8 16 fun _ => none).run
        [.construct 0 2 (some (3, 4)) false, .construct 1 15 (some (5, 6)) false, .deliver 2,
          .deliver 15, .deliver 2, .moveConstruct 2 0, .wait 2 2 true, .wait 2 2 false,
          .deliver 15, .deliver 2, .moveAssign 1 2, .destroy 1,
          .construct 1 2 (some (3, 4)) false, .deliver 2] = some s ∧
      ∃ result s', s.wait0 1 = some (result, s') ∧ (result = true ↔ Delivered 2
        [.construct 0 2 (some (3, 4)) false, .construct 1 15 (some (5, 6)) false, .deliver 2,
          .deliver 15, .deliver 2, .moveConstruct 2 0, .wait 2 2 true, .wait 2 2 false,
          .deliver 15, .deliver 2, .moveAssign 1 2, .destroy 1,
          .construct 1 2 (some (3, 4)) false, .deliver 2]) := by
  have hlive : ((process 8 16 fun _ => none).run
      [.construct 0 2 (some (3, 4)) false, .construct 1 15 (some (5, 6)) false, .deliver 2,
        .deliver 15, .deliver 2, .moveConstruct 2 0, .wait 2 2 true, .wait 2 2 false,
        .deliver 15, .deliver 2, .moveAssign 1 2, .destroy 1,
        .construct 1 2 (some (3, 4)) false, .deliver 2]).map (fun s => s.live 1) =
      some (some 1) := by
    decide +kernel
  obtain ⟨s, hs, hlive⟩ := Option.map_eq_some_iff.mp hlive
  obtain ⟨result, -, s', hwait, hiff, -⟩ :=
    (wait_iff_delivered hs (by simp [Event.PipeFails])).1 1 1 hlive
  exact ⟨s, hs, result, s', hwait, hiff⟩

end Rix.Ipc.Signal
