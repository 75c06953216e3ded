-- SUMMARY: The system calls of an MBot on its descriptor, one by one: which they are and in what order.
import MBotTeleop.MBot.Lifecycle

/-!
# The system calls of an `MBot`

Every critical section makes one write. So the calls on the descriptor are an
`open`, the writes of the sections in the order of the mutex, and the `close`s.
-/

namespace MBot.Life

open Rix.Ipc

/-- The critical sections whose write has been made. -/
def written (l : MBot.State) : List (Turn Writer UInt8) :=
  l.past ++ match l.mtx with
    | some ⟨w, packet, some r⟩ => [Section.turn ⟨w, packet, some r⟩]
    | some ⟨_, _, none⟩ | none => []

/-- Their writes, of which there are none without a descriptor. -/
def writeCalls (fd : Int) (l : MBot.State) : List Syscall :=
  if fd < 0 then [] else (written l).map fun t => .write fd t.packet.length

/-- The constructor has closed the descriptor. -/
def closesEarly (es : List Event) : Bool :=
  es.any fun
    | .configured ok => !ok
    | .opened _ | .line _ | .destroy | .joined | .closed => false

theorem closesEarly_iff {es : List Event} : closesEarly es = true ↔ Broken es := by
  rw [closesEarly, List.any_eq_true]
  constructor
  · rintro ⟨e, he, hearly⟩
    cases e with
    | configured ok =>
      cases ok with
      | true => cases hearly
      | false => exact he
    | opened _ | line _ | destroy | joined | closed => cases hearly
  · intro h
    exact ⟨_, h, rfl⟩

/-- The calls up to some stage. -/
def syscallsAt (early : Bool) (stage : Stage) (fd : Int) (l : MBot.State) : List Syscall :=
  match stage with
  | .opening => []
  | .configuring => [.opened fd]
  | .alive | .joining | .closing =>
    .opened fd :: ((if early then [.close fd] else []) ++ writeCalls fd l)
  | .destroyed =>
    .opened fd :: ((if early then [.close fd] else []) ++ writeCalls fd l ++
      (if 0 < fd then [.close fd] else []))

/-- Only a write makes a call. -/
theorem step_written {l l' : MBot.State} {e : MBot.Event} (h : MBot.step l e = some l') :
    (∃ r w bytes, e = .write r ∧ l.mtx = some ⟨w, bytes, none⟩ ∧
      written l' = written l ++ [⟨w, bytes, r.accepted⟩]) ∨
    (isWrite e = false ∧ written l' = written l) := by
  cases e with
  | drive cmd msg =>
    obtain rfl := Option.some.inj h
    exact .inr ⟨rfl, rfl⟩
  | timesync ts rospkt =>
    obtain ⟨loop, rfl, -⟩ := step_timesync h
    exact .inr ⟨rfl, rfl⟩
  | lock w =>
    obtain ⟨bytes, hmtx, -, rfl⟩ := step_lock h
    refine .inr ⟨rfl, ?_⟩
    simp only [written, hmtx, past_locked]
  | write r =>
    obtain ⟨w, bytes, hmtx, -, rfl⟩ := step_write h
    refine .inl ⟨r, w, bytes, rfl, hmtx, ?_⟩
    simp only [written, hmtx, List.append_nil]
    rfl
  | unlock =>
    obtain ⟨w, bytes, r, hmtx, rfl⟩ := step_unlock h
    refine .inr ⟨rfl, ?_⟩
    simp only [written, hmtx, List.append_nil]
  | stop =>
    obtain rfl := Option.some.inj h
    exact .inr ⟨rfl, rfl⟩

variable {s s' : State}

/-- A step of a thread logs the write that it makes. -/
theorem writeCalls_step {e : MBot.Event} {l : MBot.State} (h : MBot.step s.line e = some l) :
    writeCalls s.fd l = writeCalls s.fd s.line ++ s.syscalls e := by
  rcases step_written h with ⟨r, w, bytes, rfl, hmtx, hwritten⟩ | ⟨hnone, hwritten⟩
  · simp only [writeCalls, State.syscalls, hmtx, hwritten, List.map_append]
    split <;> rfl
  · have hsyscalls : s.syscalls e = [] := by
      cases e with
      | write r => cases hnone
      | drive _ _ | timesync _ _ | lock _ | unlock | stop => rfl
    rw [hsyscalls, List.append_nil, writeCalls, writeCalls, hwritten]

/-- The log of a run. -/
structure Recorded (es : List Event) (s : State) : Prop where
  log : s.log = syscallsAt (closesEarly es) s.stage s.fd s.line
  fd : -1 ≤ s.fd
  constructing : s.stage = .opening ∨ s.stage = .configuring →
    closesEarly es = false ∧ written s.line = []

theorem step_recorded {es : List Event} {e : Event} (hr : Recorded es s)
    (h : step s e = some s') : Recorded (es ++ [e]) s' := by
  have hlog := hr.log
  have hsame (hno : closesEarly [e] = false) : closesEarly (es ++ [e]) = closesEarly es := by
    rw [closesEarly, List.any_append, ← closesEarly, ← closesEarly, hno, Bool.or_false]
  cases e with
  | opened fd =>
    obtain ⟨hstage, hfd, rfl⟩ := step_opened h
    obtain ⟨hearly, hwritten⟩ := hr.constructing (.inl hstage)
    rw [hstage] at hlog
    refine ⟨?_, hfd, fun _ => ⟨(hsame rfl).trans hearly, hwritten⟩⟩
    simp only [hlog, hsame rfl, hearly, syscallsAt]
    by_cases hneg : fd < 0
    · simp only [if_pos hneg, writeCalls]
      rfl
    · simp only [if_neg hneg]
      rfl
  | configured ok =>
    obtain ⟨hstage, rfl⟩ := step_configured h
    obtain ⟨hearly, hwritten⟩ := hr.constructing (.inr hstage)
    have hcalls : writeCalls s.fd s.line = [] := by
      rw [writeCalls, hwritten]
      split <;> rfl
    rw [hstage, hearly] at hlog
    cases ok with
    | true =>
      rw [if_pos rfl]
      refine ⟨?_, hr.fd, by rintro (hs | hs) <;> cases hs⟩
      simp only [hsame rfl, hearly, syscallsAt, hcalls]
      exact hlog
    | false =>
      have hearly' : closesEarly (es ++ [.configured false]) = true := by
        rw [closesEarly, List.any_append]
        exact Bool.or_true _
      rw [if_neg Bool.false_ne_true]
      refine ⟨?_, hr.fd, by rintro (hs | hs) <;> cases hs⟩
      simp only [hearly', syscallsAt, hcalls, hlog]
      rfl
  | line e =>
    obtain ⟨hstage, -, l, hl, rfl⟩ := step_line h
    refine ⟨?_, hr.fd, ?_⟩
    · rw [hsame rfl]
      rcases hstage with hstage | hstage <;>
        simp only [hstage, syscallsAt] at hlog ⊢ <;>
        rw [hlog, writeCalls_step hl, List.cons_append, List.append_assoc]
    · rcases hstage with hstage | hstage <;> rintro (hs | hs) <;> cases hstage.symm.trans hs
  | destroy =>
    obtain ⟨hstage, -, rfl⟩ := step_destroy h
    rw [hstage] at hlog
    exact ⟨by rw [hsame rfl]; exact hlog, hr.fd, by rintro (hs | hs) <;> cases hs⟩
  | joined =>
    obtain ⟨hstage, -, rfl⟩ := step_joined h
    rw [hstage] at hlog
    exact ⟨by rw [hsame rfl]; exact hlog, hr.fd, by rintro (hs | hs) <;> cases hs⟩
  | closed =>
    obtain ⟨hstage, rfl⟩ := step_closed h
    rw [hstage] at hlog
    refine ⟨?_, hr.fd, by rintro (hs | hs) <;> cases hs⟩
    rw [hsame rfl]
    simp only [hlog, syscallsAt, List.cons_append, List.append_assoc]

theorem run_recorded {flag : Bool} {es : List Event} (hrun : (life flag).run es = some s) :
    Recorded es s := by
  refine (life flag).run_invariant (I := Recorded) ?_ ?_ hrun
  · exact ⟨rfl, Int.le_refl _, fun _ => ⟨rfl, rfl⟩⟩
  · intro es s e s' _ hr hstep
    exact step_recorded hr hstep

-- ---------------------------------------------------------------------------
-- The mutex in the end
-- ---------------------------------------------------------------------------

/-- Without a thread the loop is not begun, and after the join nobody has the mutex. -/
structure Released (s : State) : Prop where
  unmanned : s.stage ≠ .closing ∧ s.stage ≠ .destroyed → s.joinable = false →
    s.line.timesync = .top
  free : s.stage = .closing ∨ s.stage = .destroyed → s.line.mtx = none

theorem step_timesync_top {l l' : MBot.State} {e : MBot.Event} (hloop : LoopHolds l)
    (htop : l.timesync = .top) (he : ∀ ts rospkt, e ≠ .timesync ts rospkt)
    (h : MBot.step l e = some l') : l'.timesync = .top := by
  cases e with
  | drive cmd msg =>
    obtain rfl := Option.some.inj h
    exact htop
  | timesync ts rospkt => exact (he ts rospkt rfl).elim
  | lock w =>
    obtain ⟨bytes, -, hwaiting, rfl⟩ := step_lock h
    cases w with
    | drive call => exact htop
    | timesync => cases htop.symm.trans (waiting_timesync.mp hwaiting)
  | write r =>
    obtain ⟨w, bytes, -, -, rfl⟩ := step_write h
    exact htop
  | unlock =>
    obtain ⟨w, bytes, r, hmtx, rfl⟩ := step_unlock h
    cases w with
    | drive call => exact htop
    | timesync => cases htop.symm.trans (hloop.mpr ⟨_, hmtx, rfl⟩)
  | stop =>
    obtain rfl := Option.some.inj h
    exact htop

theorem run_released {flag : Bool} {es : List Event} (hrun : (life flag).run es = some s) :
    Released s := by
  refine (life flag).run_invariant (I := fun _ s => Released s) ?_ ?_ hrun
  · exact ⟨fun _ _ => rfl, fun _ => rfl⟩
  · intro es s e s' hrun h hstep
    have hloop := run_loopHolds (run_line hrun)
    cases e with
    | opened fd =>
      obtain ⟨hstage, -, rfl⟩ := step_opened hstep
      refine ⟨fun _ hjoinable => h.unmanned (by rw [hstage]; decide) hjoinable, fun hs => ?_⟩
      simp only at hs
      split at hs <;> rcases hs with hs | hs <;> cases hs
    | configured ok =>
      obtain ⟨hstage, rfl⟩ := step_configured hstep
      cases ok with
      | true => exact ⟨fun _ hjoinable => Bool.noConfusion hjoinable, by rintro (hs | hs) <;> cases hs⟩
      | false =>
        exact ⟨fun _ hjoinable => h.unmanned (by rw [hstage]; decide) hjoinable,
          by rintro (hs | hs) <;> cases hs⟩
    | line e =>
      obtain ⟨hstage, hpermits, l, hl, rfl⟩ := step_line hstep
      refine ⟨fun hs hjoinable => ?_, fun hs => ?_⟩
      · refine step_timesync_top hloop (h.unmanned hs hjoinable) ?_ hl
        rintro ts rospkt rfl
        cases hjoinable.symm.trans hpermits
      · rcases hstage with hstage | hstage <;> rcases hs with hs | hs <;> cases hstage.symm.trans hs
    | destroy =>
      obtain ⟨hstage, -, rfl⟩ := step_destroy hstep
      exact ⟨fun _ hjoinable => h.unmanned (by rw [hstage]; decide) hjoinable,
        by rintro (hs | hs) <;> cases hs⟩
    | joined =>
      obtain ⟨hstage, hexited, rfl⟩ := step_joined hstep
      refine ⟨fun hs => (hs.1 rfl).elim, fun _ => ?_⟩
      have hstopping := (run_joining hrun hstage).stopping
      cases hmtx : s.line.mtx with
      | none => rfl
      | some sec =>
        have hlocked := (hstopping.holder hmtx).2
        cases hjoinable : s.joinable with
        | true => cases hlocked.symm.trans (hexited hjoinable)
        | false => cases hlocked.symm.trans (h.unmanned (by rw [hstage]; decide) hjoinable)
    | closed =>
      obtain ⟨hstage, rfl⟩ := step_closed hstep
      exact ⟨fun hs => (hs.2 rfl).elim, fun _ => h.free (.inl hstage)⟩

end MBot.Life
