-- SUMMARY: TeleopKeyboard::spin after an interrupt: no key that comes after it has any output, and no frame is torn.
import MBotTeleop.Ipc.Interrupt
import MBotTeleop.Teleop.Output

/-!
# The keyboard is interrupted

`main` gives `spin` a `Signal` for `SIGINT`. It is polled when no input comes,
and after every byte that does; so the frame that is being written is written to
its end.
-/

namespace TeleopKeyboard

open Rix.Ipc Rix.Msg
open Rix.Ipc.Interrupt (calls interruptible Listens)
open Rix.Msg.Geometry (Twist2D Twist2DStamped)

variable {cfg : Config}

def Event.poll? : Event → Option Bool
  | poll ready => some ready
  | wait _ | read _ | now _ | write _ => none

theorem endsAtPoll : Interrupt.EndsAtPoll (spin cfg) Event.poll? := by
  intro s e s' hpoll hstep
  cases e with
  | poll ready =>
    cases hpoll
    apply step_returned
    obtain ⟨pc, seq, output⟩ := s
    cases pc with
    | idle | invalid | valid _ =>
      obtain rfl := Option.some.inj hstep
      rfl
    | top | read | now _ | writeSize _ _ | writePayload _ | returned => cases hstep
  | wait _ | read _ | now _ | write _ => cases hpoll

/-- Where no poll is false, at most one more byte is consumed, and at most a poll
comes after it. -/
theorem events_of_polls {es₁ es₂ : List Event} {s : State}
    (hpolls : ∀ e ∈ es₂, e.poll? ≠ some false) (hrun : (spin cfg).run (es₁ ++ es₂) = some s) :
    ∃ es es', es₂ = es ++ es' ∧ (∀ e ∈ es, e.key? = none) ∧
      (es' = [] ∨ ∃ bs, es' = [.read (.bytes bs)] ∨ es' = [.read (.bytes bs), .poll true]) := by
  induction es₂ generalizing es₁ with
  | nil => exact ⟨[], [], rfl, nofun, .inl rfl⟩
  | cons e es₂ ih =>
    cases hkey : e.key? with
    | none =>
      rw [List.append_cons] at hrun
      obtain ⟨es, es', rfl, hes, hes'⟩ := ih (fun x hx => hpolls x (List.mem_cons_of_mem _ hx)) hrun
      exact ⟨e :: es, es', rfl, List.forall_mem_cons.mpr ⟨hkey, hes⟩, hes'⟩
    | some key =>
      obtain ⟨bs, rfl⟩ : ∃ bs, e = .read (.bytes bs) := by
        cases e with
        | read r =>
          cases r with
          | bytes bs => exact ⟨bs, rfl⟩
          | eof | failed _ => cases hkey
        | wait _ | poll _ | now _ | write _ => cases hkey
      refine ⟨[], .read (.bytes bs) :: es₂, rfl, nofun, .inr ⟨bs, ?_⟩⟩
      cases es₂ with
      | nil => exact .inl rfl
      | cons e' es₂ =>
        obtain ⟨ready, rfl⟩ := run_poll_after_key hrun
        cases ready with
        | false => exact (hpolls _ (List.mem_cons_of_mem _ List.mem_cons_self) rfl).elim
        | true =>
          rw [List.append_cons] at hrun
          obtain ⟨rfl, -⟩ := run_of_poll hrun
          exact .inr rfl

theorem commanded_append_of_key?_none {es es' : List Event} (h : ∀ e ∈ es', e.key? = none) :
    commanded cfg (es ++ es') = commanded cfg es := by
  have hnil : es'.filterMap Event.key? = [] := List.filterMap_eq_nil_iff.mpr h
  rw [commanded, List.filterMap_append, hnil, List.append_nil]
  rfl

/-- What comes from `read` and from the notification leaves the output alone. -/
theorem step_keeps_output {s s' : State} {e : Event} (hstep : step cfg s e = some s')
    (he : (∃ r, e = .read r) ∨ ∃ ready, e = .poll ready) : s'.output = s.output := by
  obtain ⟨pc, seq, output⟩ := s
  rcases he with ⟨r, rfl⟩ | ⟨ready, rfl⟩
  · cases pc with
    | read =>
      simp only [step] at hstep
      split at hstep
      · split at hstep
        · split at hstep
          · cases hstep
            rfl
          · cases hstep
            rfl
        all_goals
          cases hstep
          rfl
      · cases hstep
    | top | idle | invalid | valid _ | now _ | writeSize _ _ | writePayload _ | returned => cases hstep
  · cases pc with
    | idle | invalid | valid _ =>
      cases hstep
      rfl
    | top | read | now _ | writeSize _ _ | writePayload _ | returned => cases hstep

theorem runFrom_keeps_output {s s' : State} {es : List Event}
    (hes : ∀ e ∈ es, (∃ r, e = .read r) ∨ ∃ ready, e = .poll ready)
    (hrun : (spin cfg).runFrom s es = some s') : s'.output = s.output :=
  (spin cfg).runFrom_invariant (I := fun t => t.output = s.output)
    (fun hI hP hstep => (step_keeps_output hstep hP).trans hI) hes rfl hrun

/-- A poll comes between frames. -/
theorem run_whole_at_poll {es : List Event} {ready : Bool} {s : State}
    (hrun : (spin cfg).run (es ++ [.poll ready]) = some s) :
    ∃ msgs, Numbered msgs ∧ s.output = msgs.flatMap Message.frame := by
  obtain ⟨t, ht, hstep⟩ := (spin cfg).run_concat.mp hrun
  rw [step_keeps_output hstep (.inr ⟨ready, rfl⟩)]
  rcases run_follows ht with ⟨msgs, hfol⟩ | ⟨hret, -⟩
  · refine ⟨msgs, hfol.numbered, ?_⟩
    have hpending : t.pc.pending = [] := by
      obtain ⟨pc, seq, output⟩ := t
      cases pc with
      | idle | invalid | valid _ => rfl
      | top | read | now _ | writeSize _ _ | writePayload _ | returned => cases hstep
    rw [← hfol.output, hpending, List.append_nil]
  · cases (step_returned hret _).symm.trans hstep

/-- Whole frames that are the start of a stream of frames are its first frames. -/
theorem whole_of_prefix {msgs msgs' : List Twist2DStamped} (h : Numbered msgs) (h' : Numbered msgs')
    (hpre : msgs'.flatMap Message.frame <+: msgs.flatMap Message.frame) :
    ∃ n, msgs'.flatMap Message.frame = (msgs.take n).flatMap Message.frame := by
  have hframes {ms : List Twist2DStamped} (hms : Numbered ms) :
      ∀ f ∈ ms.map Message.frame, sizePrefixed.IsFrame f := by
    intro f hf
    obtain ⟨m, hm, rfl⟩ := List.mem_map.mp hf
    exact hms.isFrame hm
  obtain ⟨rest, hsplits⟩ := Framing.splits_take (hframes h) (msgs'.flatMap Message.frame).length
  rw [← List.flatMap_def, ← List.prefix_iff_eq_take.mp hpre] at hsplits
  have hwhole : sizePrefixed.Splits (msgs'.flatMap Message.frame) (msgs'.map Message.frame) [] :=
    ⟨by rw [List.flatMap_def, List.append_nil], hframes h', Framing.incomplete_nil⟩
  obtain ⟨n, hn⟩ : ∃ n, msgs'.map Message.frame = (msgs.map Message.frame).take n :=
    ⟨_, congrArg Prod.fst (hwhole.split_eq.symm.trans hsplits.split_eq)⟩
  exact ⟨n, by rw [List.flatMap_def, hn, ← List.map_take, ← List.flatMap_def]⟩

/-- After an interrupt at most one more byte is consumed. The output stays that
of the keys before the interrupt, where only the last frame may be missing or
cut short. The next poll is true and the last call, and no frame is cut short
then. The object has a pipe: `::pipe` succeeded in its constructor. -/
theorem keyboard_after_interrupt {limit capacity : Nat} {files : Int → Option Nat}
    {start : List Signal.Event} {process : Signal.State} {id : Nat} {signum : Int}
    (hl : Listens limit capacity files start process id signum) (cfg : Config)
    {es₁ es₂ : List (Interrupt.Event Event)} {s : Interrupt.State State}
    (hrun : (interruptible (spin cfg) Event.poll? id signum process).run
      (es₁ ++ .deliver signum :: es₂) = some s) :
    (calls es₂).countP (·.key?.isSome) ≤ 1 ∧
    ∃ msgs : List Twist2DStamped, msgs.map (·.twist) = commanded cfg (calls es₁) ∧ Numbered msgs ∧
      msgs.dropLast.flatMap Message.frame <+: s.program.output ∧
      s.program.output <+: msgs.flatMap Message.frame ∧
      ∀ cs ready cs', calls es₂ = cs ++ .poll ready :: cs' →
        ready = true ∧ cs' = [] ∧ s.program.pc = .returned ∧
          ∃ n, s.program.output = (msgs.take n).flatMap Message.frame := by
  have hpolls := Interrupt.no_false_poll hl endsAtPoll hrun
  obtain ⟨p, hp, hfrom⟩ := Interrupt.run_suffix hrun
  have hall := (spin cfg).run_append.mpr ⟨p, hp, hfrom⟩
  obtain ⟨es, es', heq, hes, hes'⟩ := events_of_polls hpolls hall
  constructor
  · rw [heq, List.countP_append, List.countP_eq_zero.mpr fun e he => by simp [hes e he], Nat.zero_add]
    rcases hes' with rfl | ⟨bs, rfl | rfl⟩
    · exact Nat.zero_le _
    · exact Nat.le_refl _
    · exact Nat.le_refl _
  -- the output is that of the run up to the last byte
  have hframed : ∃ unfinished, Framed (commanded cfg (calls es₁)) s.program.output unfinished := by
    rw [heq, ← List.append_assoc] at hall
    obtain ⟨t, ht, hrest⟩ := (spin cfg).run_append.mp hall
    have hout : s.program.output = t.output := by
      apply runFrom_keeps_output _ hrest
      rcases hes' with rfl | ⟨bs, rfl | rfl⟩
      · exact nofun
      · simp
      · simp
    rw [hout, ← commanded_append_of_key?_none hes]
    exact ⟨_, run_framed ht⟩
  obtain ⟨-, msgs, htwists, hnumbered, -, hdropLast, hprefix, -⟩ := hframed
  refine ⟨msgs, htwists, hnumbered, hdropLast, hprefix, fun cs ready cs' hcalls => ?_⟩
  obtain rfl := Interrupt.poll_after_delivery hl endsAtPoll hrun hcalls rfl
  rw [hcalls, ← List.append_assoc] at hall
  obtain ⟨rfl, t, ht, hs⟩ := run_of_poll hall
  obtain ⟨msgs', hnumbered', hwhole⟩ := run_whole_at_poll hall
  refine ⟨rfl, rfl, by rw [hs], ?_⟩
  rw [hwhole] at hprefix ⊢
  exact whole_of_prefix hnumbered hnumbered' hprefix

/-- The interrupt comes while a frame is being written; a second key is not sent. -/
theorem keyboard_after_interrupt_example :
    ∃ process s, (interruptible (spin ⟨0x3fd0000000000000, 0⟩) Event.poll? 0 2 process).run
        ([.own (.wait true), .own (.read (.bytes [0x77])), .own (.poll false), .own (.now ⟨0⟩),
          .own (.write (.wrote 4))] ++ .deliver 2 ::
          [.own (.write (.wrote 32)), .own (.wait true), .own (.read (.bytes [0x73])),
          .own (.poll true)]) = some s ∧
      ∃ msgs : List Twist2DStamped, msgs.map (·.twist) = [⟨0x3e800000, 0, 0⟩] ∧
        s.program.output <+: msgs.flatMap Message.frame := by
  have hstart : ((Signal.process 8 16 fun _ => none).run
      [.construct 0 2 (some (3, 4)) false]).map (fun q => (q.live 0,
        ((interruptible (spin ⟨0x3fd0000000000000, 0⟩) Event.poll? 0 2 q).run
          ([.own (.wait true), .own (.read (.bytes [0x77])), .own (.poll false), .own (.now ⟨0⟩),
            .own (.write (.wrote 4))] ++ .deliver 2 ::
            [.own (.write (.wrote 32)), .own (.wait true), .own (.read (.bytes [0x73])),
            .own (.poll true)])).isSome)) = some (some 1, true) := by
    decide +kernel
  obtain ⟨process, hprocess, heq⟩ := Option.map_eq_some_iff.mp hstart
  obtain ⟨hlive, hsome⟩ := Prod.mk.inj heq
  obtain ⟨s, hrun⟩ := Option.isSome_iff_exists.mp hsome
  obtain ⟨-, msgs, htwists, -, -, hprefix, -⟩ :=
    keyboard_after_interrupt (Interrupt.listens_main hprocess hlive) _ hrun
  exact ⟨process, s, hrun, msgs, htwists, hprefix⟩

end TeleopKeyboard
