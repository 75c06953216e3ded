-- SUMMARY: When Signal::handler blocks: its write end is never made nonblocking, so a full pipe holds it up.
import MBotTeleop.Ipc.Delivery

/-!
# The handler and a full pipe

Every delivery leaves a byte in the pipe of its slot until a wait takes it out.
The constructor leaves the write end as `::pipe` made it, and a wait switches
the mode of the read end only, so the write of the handler waits for room where
there is none.
-/

namespace Rix.Ipc.Signal

/-- No operation changes what a pipe holds. -/
theorem step_capacity {s s' : State} {e : Event} (hstep : step s e = some s') :
    s'.kernel.capacity = s.kernel.capacity := by
  have hdestroy (k : Kernel) (p : Pipe) : (Pipe.destroy k p).capacity = k.capacity := by
    unfold Pipe.destroy
    split <;> rfl
  have hrelease (v : Int) : (s.release v).kernel.capacity = s.kernel.capacity := by
    rcases release_cases s v with ⟨heq, -⟩ | ⟨i, -, -, heq⟩
    · rw [heq]
    · rw [heq]
      exact (hdestroy _ _).trans (hdestroy _ _)
  cases e with
  | construct id signum pipe throws =>
    simp only [step] at hstep
    split at hstep
    · split at hstep
      · cases hstep
        rcases construct_cases s id signum pipe with ⟨-, message, heq⟩ | ⟨i, -, -, heq⟩
        · rw [heq]
        · rw [heq]
          apply ((hdestroy _ _).trans (hdestroy _ _)).trans
          cases pipe <;> rfl
      · cases hstep
    · cases hstep
  | moveConstruct id other =>
    obtain ⟨v, -, -, rfl⟩ := step_moveConstruct hstep
    rfl
  | moveAssign dst other =>
    obtain ⟨v, -, rfl⟩ := step_moveAssign hstep
    exact hrelease v
  | destroy id =>
    obtain ⟨v, -, rfl⟩ := step_destroy hstep
    exact hrelease v
  | deliver signum =>
    obtain ⟨k, rfl, hk⟩ := deliver_cases hstep
    exact hk.capacity
  | wait id sig result =>
    obtain ⟨v, -, -, hwait⟩ := step_wait hstep
    obtain ⟨k, rfl, hk⟩ := wait0_cases hwait
    exact hk.capacity

variable {limit capacity : Nat} {files : Int → Option Nat} {es : List Event} {s : State}

theorem run_capacity (hrun : (process limit capacity files).run es = some s) :
    s.kernel.capacity = capacity := by
  refine (process limit capacity files).run_invariant
    (I := fun _ s => s.kernel.capacity = capacity) rfl ?_ hrun
  intro es s e s' _ h hstep
  exact (step_capacity hstep).trans h

/-- A delivery to a slot with a pipe, in terms of the history. -/
theorem run_deliver_eq (hrun : (process limit capacity files).run es = some s) {i : Fin 32} {p : Nat}
    (hends : (s.notifier i).Ends s.kernel p) :
    s.deliver (i + 1) =
      if deliveries (i + 1) es < capacity then
        some { s with kernel := s.kernel.setBuffer p (s.kernel.buffer p ++ [1]) }
      else
        none := by
  have hpending := run_pending hrun
  rw [deliver_eq (run_registry hrun) hends (hpending.blocking i p hends),
    hpending.length i p hends, run_capacity hrun]

/-- In every reachable state the handler returns iff the slot of its signal has
no pipe to write to, or the pipe has room for one more of the deliveries that no
wait has reported. -/
theorem handler_returns_iff (hrun : (process limit capacity files).run es = some s) (signum : Int) :
    (∃ s', s.deliver signum = some s') ↔
      ∀ i : Fin 32, signum = i + 1 → (s.notifier i).pipe1.ok = true →
        deliveries signum es < capacity := by
  have hreg := run_registry hrun
  constructor
  · rintro ⟨s', hdeliver⟩ i rfl hok
    have hends := (hreg.slots.pipes i).resolve_right fun hno => by
      rw [Pipe.ok, hno.pipe1] at hok
      exact absurd hok (by decide)
    obtain ⟨p, hends⟩ := hends
    by_contra hfull
    rw [run_deliver_eq hrun hends, if_neg hfull] at hdeliver
    cases hdeliver
  · intro hroom
    by_cases hused : ∃ (i : Fin 32) (p : Nat), signum = i + 1 ∧ (s.notifier i).Ends s.kernel p
    · obtain ⟨i, p, rfl, hends⟩ := hused
      have hok : (s.notifier i).pipe1.ok = true :=
        decide_eq_true (hreg.slots.wf.range hends.write).1
      rw [run_deliver_eq hrun hends, if_pos (hroom i rfl hok)]
      exact ⟨_, rfl⟩
    · refine ⟨s, deliver_noPipe fun i hi => ?_⟩
      exact (hreg.slots.pipes i).resolve_left fun ⟨p, hp⟩ => hused ⟨i, p, hi, hp⟩

/-- Two deliveries of one signal into a pipe for two bytes, and a third of another signal. -/
theorem handler_returns_iff_example :
    ∃ s, (process 8 2 fun _ => none).run
        [.construct 0 2 (some (3, 4)) false, .deliver 2, .deliver 2, .deliver 15] = some s ∧
      ((∃ s', s.deliver 2 = some s') ↔ ∀ i : Fin 32, 2 = (i : Int) + 1 →
        (s.notifier i).pipe1.ok = true → deliveries 2 [.construct 0 2 (some (3, 4)) false,
          .deliver 2, .deliver 2, .deliver 15] < 2) := by
  have hsome : ((process 8 2 fun _ => none).run
      [.construct 0 2 (some (3, 4)) false, .deliver 2, .deliver 2, .deliver 15]).isSome = true := by
    decide +kernel
  obtain ⟨s, hs⟩ := Option.isSome_iff_exists.mp hsome
  exact ⟨s, hs, handler_returns_iff hs 2⟩

/-! ## Bursts -/

theorem deliveries_replicate (sig : Int) (es : List Event) (n : Nat) :
    deliveries sig (es ++ List.replicate n (.deliver sig)) = deliveries sig es + n := by
  induction n with
  | zero => simp
  | succ n ih =>
    rw [List.replicate_succ', ← List.append_assoc, deliveries_concat, if_pos rfl, ih, Nat.add_assoc]

/-- A burst of deliveries of one signal returns as far as its pipe has room. -/
theorem run_burst (hrun : (process limit capacity files).run es = some s) {i : Fin 32} {p n : Nat}
    (hends : (s.notifier i).Ends s.kernel p) (hroom : deliveries (i + 1) es + n ≤ capacity) :
    ∃ s', (process limit capacity files).run (es ++ List.replicate n (.deliver (i + 1))) = some s' ∧
      (s'.notifier i).Ends s'.kernel p := by
  induction n with
  | zero => exact ⟨s, by rw [List.replicate_zero, List.append_nil, hrun], hends⟩
  | succ n ih =>
    obtain ⟨s', hrun', hends'⟩ := ih (by omega)
    have hdeliver := run_deliver_eq hrun' hends'
    rw [deliveries_replicate, if_pos (by omega)] at hdeliver
    refine ⟨{ s' with kernel := s'.kernel.setBuffer p (s'.kernel.buffer p ++ [1]) }, ?_,
      ⟨hends'.read, hends'.write⟩⟩
    rw [List.replicate_succ', ← List.append_assoc]
    exact (process limit capacity files).run_concat.mpr ⟨s', hrun', hdeliver⟩

/-- A pipe for 65536 bytes, and as many deliveries of an interrupt that nobody
waits for: the handler of the next one blocks. -/
theorem handler_blocks :
    ∃ s, (process 1024 65536 fun _ => none).run
        ([.construct 0 2 (some (3, 4)) false] ++ List.replicate 65536 (.deliver 2)) = some s ∧
      s.deliver 2 = none := by
  have hconstruct : ((process 1024 65536 fun _ => none).run
      [.construct 0 2 (some (3, 4)) false]).isSome = true := by
    decide +kernel
  obtain ⟨s, hs⟩ := Option.isSome_iff_exists.mp hconstruct
  have hinit : ((process 1024 65536 fun _ => none).run
      [.construct 0 2 (some (3, 4)) false]).map (fun s => (s.notifier 1).isInit) = some true := by
    decide +kernel
  rw [hs] at hinit
  have hnot : ¬ ∃ e ∈ [Event.construct 0 2 (some (3, 4)) false], e.PipeFails := by
    simp [Event.PipeFails]
  obtain ⟨p, hends⟩ := ((run_registry hs).slots.isInit_iff hnot 1).mp (Option.some.inj hinit)
  have hnone : deliveries 2 [.construct 0 2 (some (3, 4)) false] = 0 := by decide
  obtain ⟨s', hs', hends'⟩ := run_burst (n := 65536) hs hends (Nat.le_of_eq (congrArg (· + _) hnone))
  refine ⟨s', hs', ?_⟩
  have hdeliver := run_deliver_eq hs' hends'
  have hfull : deliveries ((1 : Fin 32) + 1)
      ([.construct 0 2 (some (3, 4)) false] ++ List.replicate 65536 (.deliver ((1 : Fin 32) + 1))) =
        65536 := (deliveries_replicate _ _ _).trans (congrArg (· + _) hnone)
  rw [hfull, if_neg (Nat.lt_irrefl _)] at hdeliver
  exact hdeliver

end Rix.Ipc.Signal
