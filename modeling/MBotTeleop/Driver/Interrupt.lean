-- SUMMARY: MBotDriver::spin after an interrupt: at most one more command, and the stop command last.
import MBotTeleop.Driver.Refinement
import MBotTeleop.Ipc.Interrupt

/-!
# The driver is interrupted

`main` gives `spin` a `Signal` for `SIGINT`. It is polled between messages and
where the input has run dry, so the message that is being read may still come to
its end.
-/

namespace MBotDriver

open Rix.Ipc Rix.Msg
open Rix.Ipc.Interrupt (calls interruptible Listens)
open Rix.Msg.Geometry (Twist2DStamped)

def Event.poll? : Event → Option Bool
  | poll ready => some ready
  | read _ | wait _ => none

theorem endsAtPoll : Interrupt.EndsAtPoll spin Event.poll? := by
  intro s e s' hpoll hstep
  cases e with
  | poll ready =>
    cases hpoll
    apply step_returned
    obtain ⟨pc, drives⟩ := s
    cases pc with
    | top | again _ =>
      obtain rfl := Option.some.inj hstep
      rfl
    | read _ | wait _ | returned => cases hstep
  | read _ | wait _ => cases hpoll

/-- The command that the bytes are the frame of, if they are one. -/
def commandOf (bytes : List UInt8) : List Twist2DStamped :=
  if sizePrefixed.IsFrame bytes then (command bytes).toList else []

/-- Since the drive log was `drives` the driver has read on in one frame, of which
it has `bytes`, and has driven its command if that is complete, and then perhaps
the stop command. -/
inductive Winding (drives : List Twist2DStamped) (bytes : List UInt8) (s : State) : Prop where
  | reading (hat : s.pc.At bytes) (heq : s.drives = drives)
  | complete (hframe : sizePrefixed.IsFrame bytes) (hpc : s.pc = .top)
    (heq : s.drives = drives ++ commandOf bytes)
  | stopped (hone : sizePrefixed.Incomplete bytes ∨ sizePrefixed.IsFrame bytes)
    (hpc : s.pc = .returned) (heq : s.drives = drives ++ commandOf bytes ++ [stop])

theorem commandOf_incomplete {bytes : List UInt8} (h : sizePrefixed.Incomplete bytes) :
    commandOf bytes = [] := by
  refine if_neg fun hframe => hframe.not_incomplete [] ?_
  rwa [List.append_nil]

/-- It goes on so, where no poll is false. -/
theorem Winding.step {drives : List Twist2DStamped} {bytes : List UInt8} {s s' : State} {e : Event}
    (h : Winding drives bytes s) (hpoll : e.poll? ≠ some false) (hstep : spin.step s e = some s') :
    Winding drives (bytes ++ e.delivered) s' := by
  cases h with
  | reading hat heq =>
    rcases step_cases hat hstep with ⟨hnil, rfl⟩ | ⟨-, hsame, hat'⟩ | ⟨hframe, rfl⟩
    · rw [hnil, List.append_nil]
      refine .stopped (.inl hat.incomplete) rfl ?_
      rw [commandOf_incomplete hat.incomplete, List.append_nil, State.sendStop, heq]
    · exact .reading hat' (hsame.trans heq)
    · refine .complete hframe (drivePayload_pc ..) ?_
      rw [drivePayload_body, heq, commandOf, if_pos hframe, List.filterMap_cons]
      cases command (bytes ++ e.delivered) <;> rfl
  | complete hframe hpc heq =>
    -- the next call is a poll
    obtain ⟨pc, log⟩ := s
    obtain rfl : pc = .top := hpc
    cases e with
    | poll ready =>
      cases ready with
      | true =>
        obtain rfl := Option.some.inj hstep
        rw [Event.delivered, List.append_nil]
        exact .stopped (.inr hframe) rfl (congrArg (· ++ [stop]) heq)
      | false => exact (hpoll rfl).elim
    | read _ | wait _ => cases hstep
  | stopped hone hpc heq => cases (step_returned hpc e).symm.trans hstep

/-- After an interrupt the driver reads at most the frame that it is in, of which
it has `rest`, and drives its command if that is complete. Its next poll is true,
and what it then does last is to drive the stop command. The object has a pipe:
`::pipe` succeeded in its constructor. -/
theorem driver_after_interrupt {limit capacity : Nat} {files : Int → Option Nat}
    {start : List Signal.Event} {process : Signal.State} {id : Nat} {signum : Int}
    (hl : Listens limit capacity files start process id signum)
    {es₁ es₂ : List (Interrupt.Event Event)} {s : Interrupt.State State}
    (hrun : (interruptible spin Event.poll? id signum process).run
      (es₁ ++ .deliver signum :: es₂) = some s) :
    ∃ d frames rest last, spin.run (calls es₁) = some d ∧
      sizePrefixed.Splits (delivered (calls es₁)) frames rest ∧
      d.drives = frames.filterMap command ++ (if d.pc = .returned then [stop] else []) ∧
      last = rest ++ delivered (calls es₂) ∧
      (sizePrefixed.Incomplete last ∨ sizePrefixed.IsFrame last) ∧
      (s.program.drives = d.drives ++ commandOf last ∨
        s.program.pc = .returned ∧ s.program.drives = d.drives ++ commandOf last ++ [stop]) ∧
      ∀ cs ready cs', calls es₂ = cs ++ .poll ready :: cs' →
        ready = true ∧ cs' = [] ∧ s.program.pc = .returned ∧
          s.program.drives = d.drives ++ commandOf last ++ [stop] := by
  have hpolls := Interrupt.no_false_poll hl endsAtPoll hrun
  obtain ⟨d, hd, hfrom⟩ := Interrupt.run_suffix hrun
  -- a poll after the delivery is the end
  have hlast : ∀ cs ready cs', calls es₂ = cs ++ .poll ready :: cs' →
      ready = true ∧ cs' = [] ∧ s.program.pc = .returned := by
    intro cs ready cs' heq
    obtain rfl := Interrupt.poll_after_delivery hl endsAtPoll hrun heq rfl
    have hall := spin.run_append.mpr ⟨d, hd, hfrom⟩
    rw [heq, ← List.append_assoc] at hall
    obtain ⟨hnil, t, -, ht⟩ := run_of_poll hall
    exact ⟨rfl, hnil, by rw [ht]; rfl⟩
  obtain ⟨frames, rest, hsplits, hat, hdrives⟩ := run_follows hd
  refine ⟨d, frames, rest, _, hd, hsplits, hdrives, rfl, ?_⟩
  rcases hat with hret | hat
  · obtain ⟨hnil, heq⟩ := spin.runFrom_of_stuck (step_returned hret) hfrom
    rw [hnil, delivered, List.flatMap_nil, List.append_nil]
    refine ⟨.inl hsplits.rest, .inl ?_, fun cs ready cs' h => ?_⟩
    · rw [heq, commandOf_incomplete hsplits.rest, List.append_nil]
    · exact (List.append_ne_nil_of_right_ne_nil _ (List.cons_ne_nil _ _) h.symm).elim
  · have hwinding : Winding d.drives (rest ++ delivered (calls es₂)) s.program := by
      refine spin.runFrom_history (P := fun e => e.poll? ≠ some false)
        (I := fun es t => Winding d.drives (rest ++ delivered es) t) ?_ hpolls ?_ hfrom
      · intro es t e t' h hpoll hstep
        rw [delivered_concat, ← List.append_assoc]
        exact h.step hpoll hstep
      · rw [delivered, List.flatMap_nil, List.append_nil]
        exact .reading hat rfl
    cases hwinding with
    | reading hat' heq =>
      refine ⟨.inl hat'.incomplete, .inl ?_, fun cs ready cs' h => ?_⟩
      · rw [heq, commandOf_incomplete hat'.incomplete, List.append_nil]
      · rw [(hlast cs ready cs' h).2.2] at hat'
        exact hat'.elim
    | complete hframe hpc heq =>
      refine ⟨.inr hframe, .inl heq, fun cs ready cs' h => ?_⟩
      cases hpc.symm.trans (hlast cs ready cs' h).2.2
    | stopped hone hpc heq =>
      refine ⟨hone, .inr ⟨hpc, heq⟩, fun cs ready cs' h => ?_⟩
      obtain ⟨hready, hnil, -⟩ := hlast cs ready cs' h
      exact ⟨hready, hnil, hpc, heq⟩

/-- The interrupt comes while a command is being read. -/
theorem driver_after_interrupt_example :
    ∃ process s, (interruptible spin Event.poll? 0 2 process).run
        ([.own (.poll false), .own (.read (.bytes [28, 0]))] ++ .deliver 2 ::
          [.own (.read (.bytes [0, 0])),
          .own (.read (.bytes (Message.encode { stop with twist.vx := 1 }))),
          .own (.poll true)]) = some s ∧
      s.program.drives = [{ stop with twist.vx := 1 }, stop] := by
  have hstart : ((Signal.process 8 16 fun _ => none).run
      [.construct 0 2 (some (3, 4)) false]).map (fun q => (q.live 0,
        ((interruptible spin Event.poll? 0 2 q).run
          ([.own (.poll false), .own (.read (.bytes [28, 0]))] ++ .deliver 2 ::
            [.own (.read (.bytes [0, 0])),
            .own (.read (.bytes (Message.encode { stop with twist.vx := 1 }))),
            .own (.poll true)])).isSome)) = some (some 1, true) := by
    decide +kernel
  obtain ⟨process, hprocess, heq⟩ := Option.map_eq_some_iff.mp hstart
  obtain ⟨hlive, hsome⟩ := Prod.mk.inj heq
  obtain ⟨s, hrun⟩ := Option.isSome_iff_exists.mp hsome
  obtain ⟨d, frames, rest, last, hd, hsplits, -, rfl, -, -, hpoll⟩ :=
    driver_after_interrupt (Interrupt.listens_main hprocess hlive) hrun
  have hdrives := (hpoll [.read (.bytes [0, 0]),
    .read (.bytes (Message.encode { stop with twist.vx := 1 }))] true [] rfl).2.2.2
  cases hd
  -- the part of the size prefix that was read before
  obtain ⟨-, rfl⟩ : [] = frames ∧ [28, 0] = rest := Prod.mk.inj hsplits.split_eq
  exact ⟨process, s, hrun, hdrives⟩

end MBotDriver
