-- SUMMARY: The stamps of the messages that the keyboard sends: each is the time that the clock gave for it.
import MBotTeleop.EndToEnd
import MBotTeleop.Teleop.Output

/-!
# Stamps

A message is stamped when its key has been polled for, and only then is it
written. So the messages on the output carry the results of `Time::now`, in order.
-/

namespace TeleopKeyboard

open Rix.Ipc Rix.Msg
open Rix.Msg.Geometry (Twist2D Twist2DStamped)

/-- The time that a call read from the clock. -/
def Event.time? : Event → Option Rix.Util.Time
  | now t => some t
  | wait _ | poll _ | read _ | write _ => none

def times (es : List Event) : List Rix.Util.Time := es.filterMap Event.time?

theorem times_concat (es : List Event) (e : Event) :
    times (es ++ [e]) = times es ++ e.time?.toList := by
  rw [times, List.filterMap_append]
  cases e <;> rfl

variable {cfg : Config}

-- ---------------------------------------------------------------------------
-- Steps
-- ---------------------------------------------------------------------------

/-- The bytes of the messages that were begun. -/
def State.begun (s : State) : List UInt8 := s.output ++ s.pc.pending

/-- A call that begins no message: the bytes stay, or `spin` gives up on them. -/
structure Keeps (s s' : State) : Prop where
  seq : s'.seq = s.seq
  begun : s'.begun = s.begun ∨ s'.pc = .returned ∧ s'.output = s.output

theorem Keeps.of_pc {s : State} {pc : Pc} (hpending : pc.pending = s.pc.pending) :
    Keeps s { s with pc := pc } :=
  ⟨rfl, .inl (congrArg (s.output ++ ·) hpending)⟩

theorem Keeps.writeExact {s : State} {w : Writing} {r : WriteResult} {more : Writing → Pc}
    {done : State → State} {rest : List UInt8} (hpc : s.pc.pending = w.src.drop w.sent ++ rest)
    (hmore : ∀ w, (more w).pending = w.src.drop w.sent ++ rest)
    (hdone : ∀ s, (done s).seq = s.seq ∧ (done s).output = s.output ∧ (done s).pc.pending = rest) :
    Keeps s (s.writeExact w r more done) := by
  cases r with
  | wrote k =>
    simp only [State.writeExact]
    split
    · rename_i hzero
      subst hzero
      exact ⟨rfl, .inr ⟨rfl, by simp⟩⟩
    · split
      · rename_i hlt
        refine ⟨rfl, .inl ?_⟩
        simp only [State.begun, hpc, hmore, List.append_assoc]
        rw [← List.append_assoc (List.take _ _), ← List.drop_drop, List.take_append_drop]
      · rename_i hnot
        have hall : (w.src.drop w.sent).take k = w.src.drop w.sent := by
          apply List.take_of_length_le
          rw [List.length_drop]
          omega
        obtain ⟨hseq, hout, hpending⟩ :=
          hdone { s with output := s.output ++ (w.src.drop w.sent).take k }
        refine ⟨hseq, .inl ?_⟩
        rw [State.begun, State.begun, hout, hpending, hpc, hall, List.append_assoc]
  | failed errno =>
    cases errno with
    | eintr => exact ⟨rfl, .inl rfl⟩
    | eagain | other => exact ⟨rfl, .inr ⟨rfl, rfl⟩⟩

/-- Only `Time::now` begins a message. -/
theorem step_begins {s s' : State} {e : Event} (h : step cfg s e = some s') :
    (∃ v t, s.pc = .now v ∧ e = .now t ∧ s' = s.send t v) ∨ (e.time? = none ∧ Keeps s s') := by
  obtain ⟨pc, seq, output⟩ := s
  cases pc with
  | now v =>
    cases e with
    | now t =>
      cases h
      exact .inl ⟨v, t, rfl, rfl, rfl⟩
    | wait _ | poll _ | read _ | write _ => cases h
  | top =>
    cases e with
    | wait readable =>
      cases h
      cases readable <;> exact .inr ⟨rfl, .of_pc rfl⟩
    | poll _ | read _ | now _ | write _ => cases h
  | idle | invalid | valid _ =>
    cases e with
    | poll ready =>
      cases h
      cases ready <;> exact .inr ⟨rfl, .of_pc rfl⟩
    | wait _ | read _ | now _ | write _ => cases h
  | read =>
    cases e with
    | read r =>
      right
      simp only [step] at h
      split at h
      · split at h
        · split at h <;> cases h <;> exact ⟨rfl, .of_pc rfl⟩
        all_goals cases h; exact ⟨rfl, .of_pc rfl⟩
      · cases h
    | wait _ | poll _ | now _ | write _ => cases h
  | writeSize w payload =>
    cases e with
    | write r =>
      right
      simp only [step] at h
      split at h
      · obtain rfl := Option.some.inj h
        refine ⟨rfl, .writeExact rfl (fun _ => rfl) fun s => ?_⟩
        obtain ⟨hseq, hout, howes⟩ := sizeWritten_owes s payload
        exact ⟨hseq, hout, howes.pending⟩
      · cases h
    | wait _ | poll _ | read _ | now _ => cases h
  | writePayload w =>
    cases e with
    | write r =>
      right
      simp only [step] at h
      split at h
      · obtain rfl := Option.some.inj h
        exact ⟨rfl, .writeExact (List.append_nil _).symm (fun _ => (List.append_nil _).symm)
          fun s => ⟨rfl, rfl, rfl⟩⟩
      · cases h
    | wait _ | poll _ | read _ | now _ => cases h
  | returned => cases e <;> cases h

-- ---------------------------------------------------------------------------
-- Runs
-- ---------------------------------------------------------------------------

/-- The messages that were begun in a run, with the times of their stamps. -/
structure Stamped (es : List Event) (s : State) (msgs : List Twist2DStamped) : Prop where
  stamps : msgs.map (·.header.stamp) = (times es).map Rix.Util.Time.toMsg
  numbered : Numbered msgs
  seq : s.seq = BitVec.ofNat 32 msgs.length
  begun : s.begun = msgs.flatMap Message.frame ∨
    s.pc = .returned ∧ s.output <+: msgs.flatMap Message.frame

theorem Stamped.output {es : List Event} {s : State} {msgs : List Twist2DStamped}
    (h : Stamped es s msgs) : s.output <+: msgs.flatMap Message.frame := by
  rcases h.begun with hbegun | ⟨-, hprefix⟩
  · rw [← hbegun]
    exact List.prefix_append ..
  · exact hprefix

theorem Stamped.keeps {es : List Event} {s s' : State} {msgs : List Twist2DStamped} {e : Event}
    (h : Stamped es s msgs) (htime : e.time? = none) (hpc : s.pc ≠ .returned) (hkeeps : Keeps s s') :
    Stamped (es ++ [e]) s' msgs where
  stamps := by rw [times_concat, htime, Option.toList_none, List.append_nil, h.stamps]
  numbered := h.numbered
  seq := hkeeps.seq.trans h.seq
  begun := by
    rcases hkeeps.begun with hbegun | ⟨hreturned, hout⟩
    · rcases h.begun with hbegun' | ⟨hreturned, -⟩
      · exact .inl (hbegun.trans hbegun')
      · exact (hpc hreturned).elim
    · exact .inr ⟨hreturned, hout ▸ h.output⟩

theorem Stamped.send {es : List Event} {s : State} {msgs : List Twist2DStamped} {v : Velocity}
    (h : Stamped es s msgs) (hpc : s.pc = .now v) (t : Rix.Util.Time) :
    Stamped (es ++ [.now t]) (s.send t v) (msgs ++ [message s.seq t v]) where
  stamps := by
    rw [times_concat, List.map_append, List.map_append, h.stamps]
    rfl
  numbered := by
    rw [h.seq]
    exact h.numbered.concat t v
  seq := by
    rw [List.length_append, List.length_singleton, BitVec.ofNat_add, ← h.seq]
    rfl
  begun := by
    have hout : s.output = msgs.flatMap Message.frame := by
      rcases h.begun with hbegun | ⟨hreturned, -⟩
      · rwa [State.begun, hpc, Pc.pending, List.append_nil] at hbegun
      · cases hpc.symm.trans hreturned
    left
    rw [State.begun, List.flatMap_append, ← hout, State.send]
    simp only [Pc.pending, List.drop_zero, List.flatMap_singleton, sizeBufOf_message,
      payloadOf_message, Message.frame]

theorem run_stamped {es : List Event} {s : State} (hrun : (spin cfg).run es = some s) :
    ∃ msgs, Stamped es s msgs := by
  refine (spin cfg).run_invariant (I := fun es s => ∃ msgs, Stamped es s msgs) ?_ ?_ hrun
  · exact ⟨[], rfl, numbered_nil, rfl, .inl rfl⟩
  · rintro es s e s' - ⟨msgs, h⟩ hstep
    rcases step_begins hstep with ⟨v, t, hpc, rfl, rfl⟩ | ⟨htime, hkeeps⟩
    · exact ⟨_, h.send hpc t⟩
    · refine ⟨msgs, h.keeps htime (fun hreturned => ?_) hkeeps⟩
      cases (step_returned hreturned e).symm.trans hstep

/-- Messages that are on the output whole carry the times of the clock. -/
theorem stamps_of_output {es : List Event} {s : State} (hrun : (spin cfg).run es = some s)
    {msgs : List Twist2DStamped} (hnumbered : Numbered msgs)
    (hout : msgs.flatMap Message.frame <+: s.output) :
    msgs.map (·.header.stamp) <+: (times es).map Rix.Util.Time.toMsg := by
  obtain ⟨msgs', h⟩ := run_stamped hrun
  have hframes {msgs : List Twist2DStamped} (hnumbered : Numbered msgs) :
      ∀ f ∈ msgs.map Message.frame, sizePrefixed.IsFrame f := by
    intro f hf
    obtain ⟨m, hm, rfl⟩ := List.mem_map.mp hf
    exact hnumbered.isFrame hm
  have hprefix : msgs.map Message.frame <+: msgs'.map Message.frame := by
    apply Framing.prefix_of_flatten (hframes hnumbered) (hframes h.numbered)
    rw [← List.flatMap_def, ← List.flatMap_def]
    exact hout.trans h.output
  -- the driver's reading of a frame gives the message back
  have hread {msgs : List Twist2DStamped} (hnumbered : Numbered msgs) :
      (msgs.map Message.frame).filterMap MBotDriver.command = msgs := by
    have h := MBotTeleop.filterMap_command_frame hnumbered msgs.length
    rwa [← List.map_take, List.take_length] at h
  have hmsgs := hprefix.filterMap MBotDriver.command
  rw [hread hnumbered, hread h.numbered] at hmsgs
  rw [← h.stamps]
  exact hmsgs.map _

end TeleopKeyboard
