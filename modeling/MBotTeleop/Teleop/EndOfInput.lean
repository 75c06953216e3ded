-- SUMMARY: TeleopKeyboard::spin on the read end of a pipe: it does not notice that the writers are gone.
import MBotTeleop.Ipc.Pipe
import MBotTeleop.Ipc.Poll
import MBotTeleop.Teleop.Output

/-!
# The end of the input

The keyboard reads from a `Pipe` while others write to it, and close it when
everything is written. `wait_for_readable` is true only while bytes are
buffered, so the read that would find the end of the input never comes.
-/

namespace TeleopKeyboard

open Rix.Ipc Rix.Msg
open Rix.Msg.Geometry (Twist2D Twist2DStamped)

variable {cfg : Config}

-- ---------------------------------------------------------------------------
-- How the loop returns
-- ---------------------------------------------------------------------------

/-- The calls after which `spin` returns. -/
def Event.Last : Event → Prop
  | poll ready => ready = true
  | read r => r = .eof ∨ r = .failed .other
  | write r => r.Fails
  | wait _ | now _ => False

/-- `spin` goes on from here, and not with a read. -/
def Pc.goesOn : Pc → Bool
  | .returned | .read => false
  | .top | .idle | .invalid | .valid _ | .now _ | .writeSize _ _ | .writePayload _ => true

theorem Pc.leads {pc : Pc} {e : Event} (h : pc.goesOn = true) :
    (pc = .returned → e.Last) ∧ (pc = .read → e = .wait true) := by
  constructor
  · rintro rfl
    cases h
  · rintro rfl
    cases h

/-- A write returns from `spin` or goes on, as what comes after it does. -/
theorem writeExact_leads (s : State) (w : Writing) (r : WriteResult) (more : Writing → Pc)
    (done : State → State) (hmore : ∀ w, (more w).goesOn = true)
    (hdone : ∀ s, (done s).pc.goesOn = true) (hs : s.pc.goesOn = true) :
    (s.writeExact w r more done).pc = .returned ∧ r.Fails ∨
      (s.writeExact w r more done).pc.goesOn = true := by
  cases r with
  | wrote k =>
    simp only [State.writeExact]
    split
    · rename_i hzero
      exact .inl ⟨rfl, hzero⟩
    · split
      · exact .inr (hmore _)
      · exact .inr (hdone _)
  | failed errno =>
    cases errno with
    | eintr => exact .inr hs
    | eagain | other => exact .inl ⟨rfl, by rintro ⟨⟩⟩

theorem sizeWritten_goesOn (s : State) (payload : List UInt8) :
    (s.sizeWritten payload).pc.goesOn = true := by
  unfold State.sizeWritten
  split <;> rfl

/-- Which calls `spin` returns after, and which one a read comes after. -/
theorem step_leads {s s' : State} {e : Event} (hstep : step cfg s e = some s') :
    (s'.pc = .returned → e.Last) ∧ (s'.pc = .read → e = .wait true) := by
  obtain ⟨pc, seq, output⟩ := s
  cases pc with
  | top =>
    cases e with
    | wait readable =>
      cases hstep
      cases readable with
      | true => exact ⟨by rintro ⟨⟩, fun _ => rfl⟩
      | false => exact Pc.leads rfl
    | poll _ | read _ | now _ | write _ => cases hstep
  | idle | invalid | valid _ =>
    cases e with
    | poll ready =>
      cases hstep
      cases ready with
      | true => exact ⟨fun _ => rfl, by rintro ⟨⟩⟩
      | false => exact Pc.leads rfl
    | wait _ | read _ | now _ | write _ => cases hstep
  | read =>
    cases e with
    | read r =>
      simp only [step] at hstep
      split at hstep
      · split at hstep
        · split at hstep <;> cases hstep <;> exact Pc.leads rfl
        · cases hstep
          exact Pc.leads rfl
        · cases hstep
          exact Pc.leads rfl
        · cases hstep
          exact ⟨fun _ => .inl rfl, by rintro ⟨⟩⟩
        · cases hstep
          exact ⟨fun _ => .inr rfl, by rintro ⟨⟩⟩
      · cases hstep
    | wait _ | poll _ | now _ | write _ => cases hstep
  | now v =>
    cases e with
    | now t =>
      cases hstep
      exact Pc.leads rfl
    | wait _ | poll _ | read _ | write _ => cases hstep
  | writeSize w payload =>
    cases e with
    | write r =>
      simp only [step] at hstep
      split at hstep
      · cases hstep
        rcases writeExact_leads ⟨.writeSize w payload, seq, output⟩ w r (.writeSize · payload)
          (·.sizeWritten payload) (fun _ => rfl) (sizeWritten_goesOn · payload) rfl with
          ⟨hpc, hfails⟩ | hgoes
        · exact ⟨fun _ => hfails, fun h => by cases hpc.symm.trans h⟩
        · exact Pc.leads hgoes
      · cases hstep
    | wait _ | poll _ | read _ | now _ => cases hstep
  | writePayload w =>
    cases e with
    | write r =>
      simp only [step] at hstep
      split at hstep
      · cases hstep
        rcases writeExact_leads ⟨.writePayload w, seq, output⟩ w r .writePayload State.next
          (fun _ => rfl) (fun _ => rfl) rfl with ⟨hpc, hfails⟩ | hgoes
        · exact ⟨fun _ => hfails, fun h => by cases hpc.symm.trans h⟩
        · exact Pc.leads hgoes
      · cases hstep
    | wait _ | poll _ | read _ | now _ => cases hstep
  | returned => cases e <;> cases hstep

/-- Frames of the keyboard have one length. -/
theorem Numbered.length_flatMap {msgs : List Twist2DStamped} (h : Numbered msgs) :
    (msgs.flatMap Message.frame).length = 36 * msgs.length := by
  have hlen : ∀ m ∈ msgs, (Message.frame m).length = 36 := by
    intro m hm
    rw [Message.length_frame, Twist2DStamped.length_encode, h.frameId_eq hm]
    rfl
  rw [List.length_flatMap, List.map_congr_left hlen, List.map_const', List.sum_replicate_nat,
    Nat.mul_comm]

/-- A write that fails happens inside a frame, and writes nothing. -/
theorem step_write_fails {s s' : State} {r : WriteResult} (hstep : step cfg s (.write r) = some s')
    (hfails : r.Fails) :
    s.pc.queued = [] ∧ 0 < s.pc.pending.length ∧ s'.output = s.output := by
  have hkeep {w : Writing} {more : Writing → Pc} {done : State → State} (s : State) :
      (s.writeExact w r more done).output = s.output := by
    cases r with
    | wrote k =>
      obtain rfl : k = 0 := hfails
      simp [State.writeExact]
    | failed errno => cases errno <;> rfl
  have hrest (w : Writing) : 0 < (w.src.drop w.sent).length := by
    have hlt := w.lt
    rw [List.length_drop]
    omega
  obtain ⟨pc, seq, output⟩ := s
  cases pc with
  | writeSize w payload =>
    simp only [step] at hstep
    split at hstep
    · cases hstep
      refine ⟨rfl, ?_, hkeep _⟩
      rw [Pc.pending, List.length_append]
      exact Nat.add_pos_left (hrest w) _
    · cases hstep
  | writePayload w =>
    simp only [step] at hstep
    split at hstep
    · cases hstep
      exact ⟨rfl, hrest w, hkeep _⟩
    · cases hstep
  | top | idle | read | invalid | valid _ | now _ | returned => cases hstep

/-- After a write that fails a frame is incomplete, whatever else was to come. -/
theorem run_write_fails {cs : List Event} {r : WriteResult} {s : State}
    (hrun : (spin cfg).run (cs ++ [.write r]) = some s) (hfails : r.Fails) (more : List Twist2D) :
    ¬ Framed (commanded cfg cs ++ more) s.output False := by
  obtain ⟨s₁, hs₁, hstep⟩ := (spin cfg).run_concat.mp hrun
  obtain ⟨msgs, hfol⟩ : ∃ msgs, Follows cfg cs s₁ msgs := by
    apply (run_follows hs₁).resolve_right
    intro hret
    cases (step_returned hret.1 _).symm.trans hstep
  obtain ⟨hqueued, hpending, houtput⟩ := step_write_fails hstep hfails
  rintro ⟨msgs', htwists, hnumbered, -, -, -, hwhole⟩
  have hwhole := hwhole.resolve_right id
  -- the frames of `msgs` do not fit into the output, and `msgs'` are not fewer
  have hshort := congrArg List.length hfol.output
  rw [List.length_append, hfol.numbered.length_flatMap, ← houtput, hwhole,
    hnumbered.length_flatMap] at hshort
  have hmore := congrArg List.length htwists
  rw [hfol.twists, hqueued, List.append_nil, List.length_append, List.length_map,
    List.length_map] at hmore
  omega

-- ---------------------------------------------------------------------------
-- A pipe as the input
-- ---------------------------------------------------------------------------

namespace OverPipe

/-- `spin`, the kernel with the pipe it reads from, and those who write to it. -/
structure State where
  keyboard : TeleopKeyboard.State := {}
  kernel : Kernel
  /-- The bytes that are still to be written to the pipe. -/
  unwritten : List UInt8

inductive Event where
  /-- The next byte is written through a descriptor of the write end. -/
  | feed (fd : Int)
  /-- The write end gets another descriptor. -/
  | dup (fd fd' : Int)
  /-- A descriptor of the write end is closed. -/
  | close (fd : Int)
  /-- `::poll` in `input->wait_for_readable` -/
  | poll (r : PollResult)
  /-- Any other call of `spin`. -/
  | call (e : TeleopKeyboard.Event)
  deriving DecidableEq, Repr

/-- What `spin` sees of an event. -/
def Event.call? : Event → Option TeleopKeyboard.Event
  | poll r => some (.wait r.readable)
  | call e => some e
  | feed _ | dup _ _ | close _ => none

def State.call (cfg : Config) (s : State) (kernel : Kernel) (e : TeleopKeyboard.Event) :
    Option State :=
  (TeleopKeyboard.step cfg s.keyboard e).map fun keyboard =>
    { s with keyboard := keyboard, kernel := kernel }

/-- The last descriptor of the write end is closed when everything is written.
The notification never becomes ready, and the output may do anything. -/
def step (cfg : Config) (input : Pipe) (p : Nat) (s : State) : Event → Option State
  | .feed fd =>
    match s.unwritten with
    | [] => none
    | b :: rest =>
      if s.kernel.fds fd = some (.writeEnd p) then
        match s.kernel.writeByte fd b with
        | some (.wrote 1, k) => some { s with kernel := k, unwritten := rest }
        | _ => none
      else
        none
  | .dup fd fd' =>
    if s.kernel.fds fd = some (.writeEnd p) ∧ s.kernel.Available fd' then
      some { s with kernel := s.kernel.dup fd fd' }
    else
      none
  | .close fd =>
    if s.kernel.fds fd = some (.writeEnd p) ∧
        (s.unwritten = [] ∨ (s.kernel.close fd).isOpen (.writeEnd p)) then
      some { s with kernel := s.kernel.close fd }
    else
      none
  | .poll r =>
    if s.kernel.Polls input.fd r then s.call cfg s.kernel (.wait r.readable) else none
  | .call (.read r) =>
    match input.read s.kernel 1 with
    | some (r', k) => if r = r' then s.call cfg k (.read r) else none
    | none => none
  | .call (.poll ready) => if ready then none else s.call cfg s.kernel (.poll ready)
  | .call (.wait _) => none
  | .call e => s.call cfg s.kernel e

/-- `spin` on the read end of a pipe that `Pipe::create` has made, with the
descriptors `r` and `w`. -/
def overPipe (cfg : Config) (k : Kernel) (r w : Int) (bytes : List UInt8) : Machine State Event where
  init := { kernel := (Pipe.create k (some (r, w))).1, unwritten := bytes }
  step := step cfg (Pipe.create k (some (r, w))).2.1 k.next

/-- The twists of the valid keys of an input. -/
def twistsOf (cfg : Config) (bytes : List UInt8) : List Twist2D :=
  bytes.filterMap fun key => (velocity cfg key).map Velocity.twist

-- ---------------------------------------------------------------------------
-- What a step can do
-- ---------------------------------------------------------------------------

variable {input : Pipe} {p : Nat} {s s' : State}

theorem step_feed {fd : Int} (hstep : step cfg input p s (.feed fd) = some s') :
    ∃ b rest, s.unwritten = b :: rest ∧ s.kernel.fds fd = some (.writeEnd p) ∧
      s' = { s with kernel := s.kernel.setBuffer p (s.kernel.buffer p ++ [b]), unwritten := rest } := by
  simp only [step] at hstep
  split at hstep
  · cases hstep
  · rename_i b rest hunwritten
    split at hstep
    · rename_i hfd
      refine ⟨b, rest, hunwritten, hfd, ?_⟩
      simp only [Kernel.writeByte, hfd] at hstep
      split at hstep
      · rename_i k hwrite
        cases hstep
        split at hwrite
        · cases hwrite
        · split at hwrite
          · cases hwrite
            rfl
          · split at hwrite <;> cases hwrite
      · cases hstep
    · cases hstep

theorem step_dup {fd fd' : Int} (hstep : step cfg input p s (.dup fd fd') = some s') :
    s.kernel.fds fd = some (.writeEnd p) ∧ s.kernel.Available fd' ∧
      s' = { s with kernel := s.kernel.dup fd fd' } := by
  simp only [step] at hstep
  split at hstep
  · rename_i hfd
    cases hstep
    exact ⟨hfd.1, hfd.2, rfl⟩
  · cases hstep

theorem step_close {fd : Int} (hstep : step cfg input p s (.close fd) = some s') :
    s.kernel.fds fd = some (.writeEnd p) ∧ s' = { s with kernel := s.kernel.close fd } := by
  simp only [step] at hstep
  split at hstep
  · rename_i hfd
    cases hstep
    exact ⟨hfd.1, rfl⟩
  · cases hstep

/-- What a call of `spin` finds in the kernel, and leaves there. -/
def Finds (input : Pipe) (k : Kernel) : TeleopKeyboard.Event → Kernel → Prop
  | .read r, k' => input.read k 1 = some (r, k')
  | .wait readable, k' => k' = k ∧ (readable = true → k.pollIn input.fd = true)
  | .poll ready, k' => k' = k ∧ ready = false
  | .now _, k' | .write _, k' => k' = k

theorem step_call {e : Event} {c : TeleopKeyboard.Event} (hcall : e.call? = some c)
    (hstep : step cfg input p s e = some s') :
    ∃ keyboard k, TeleopKeyboard.step cfg s.keyboard c = some keyboard ∧ Finds input s.kernel c k ∧
      s' = { s with keyboard := keyboard, kernel := k } := by
  have hof {k : Kernel} (h : s.call cfg k c = some s') (hfinds : Finds input s.kernel c k) :
      ∃ keyboard k, TeleopKeyboard.step cfg s.keyboard c = some keyboard ∧
        Finds input s.kernel c k ∧ s' = { s with keyboard := keyboard, kernel := k } := by
    obtain ⟨keyboard, hkeyboard, rfl⟩ := Option.map_eq_some_iff.mp h
    exact ⟨keyboard, k, hkeyboard, hfinds, rfl⟩
  cases e with
  | feed _ | dup _ _ | close _ => cases hcall
  | poll r =>
    cases hcall
    simp only [step] at hstep
    split at hstep
    · rename_i hpolls
      exact hof hstep ⟨rfl, hpolls.pollIn⟩
    · cases hstep
  | call c' =>
    cases hcall
    cases c with
    | read r =>
      simp only [step] at hstep
      split at hstep
      · rename_i r' k hread
        split at hstep
        · rename_i heq
          exact hof hstep (heq ▸ hread)
        · cases hstep
      · cases hstep
    | poll ready =>
      simp only [step] at hstep
      split at hstep
      · cases hstep
      · rename_i hready
        exact hof hstep ⟨rfl, by simpa using hready⟩
    | wait readable => cases hstep
    | now t => exact hof hstep rfl
    | write r => exact hof hstep rfl

-- ---------------------------------------------------------------------------
-- Runs
-- ---------------------------------------------------------------------------

/-- The calls of `spin` in a run. -/
def calls (es : List Event) : List TeleopKeyboard.Event := es.filterMap Event.call?

structure Invariant (cfg : Config) (input : Pipe) (p : Nat) (bytes : List UInt8) (es : List Event)
    (s : State) : Prop where
  run : (spin cfg).run (calls es) = some s.keyboard
  readEnd : s.kernel.fds input.fd = some (.readEnd p)
  /-- Every byte was consumed, or is in the pipe, or is still to be written. -/
  bytes : (calls es).filterMap Event.key? ++ s.kernel.buffer p ++ s.unwritten = bytes
  reading : s.keyboard.pc = .read → s.kernel.buffer p ≠ []
  last : s.keyboard.pc = .returned → ∃ cs r, calls es = cs ++ [.write r] ∧ r.Fails

variable {bytes : List UInt8} {es : List Event}

/-- A read finds the bytes that the wait before it saw. -/
theorem read_eq {k : Kernel} {b : UInt8} {rest : List UInt8} (hvalid : 0 ≤ input.fd)
    (hfd : k.fds input.fd = some (.readEnd p)) (hbuffer : k.buffer p = b :: rest) :
    input.read k 1 = some (.bytes [b], k.setBuffer p rest) := by
  have hnot : ¬ input.fd < 0 := by omega
  simp only [Pipe.read, hnot, if_false, Kernel.read, hfd, hbuffer, List.isEmpty_cons,
    Bool.false_eq_true, List.take_succ_cons, List.take_zero, List.drop_succ_cons, List.drop_zero]

theorem calls_concat (es : List Event) (e : Event) :
    calls (es ++ [e]) = calls es ++ e.call?.toList := by
  simp only [calls, List.filterMap_append]
  cases h : e.call? <;> simp [h]

theorem Invariant.feed (h : Invariant cfg input p bytes es s) {fd : Int} {b : UInt8}
    {rest : List UInt8} (hunwritten : s.unwritten = b :: rest) :
    Invariant cfg input p bytes (es ++ [.feed fd])
      { s with kernel := s.kernel.setBuffer p (s.kernel.buffer p ++ [b]), unwritten := rest } := by
  have hcalls : calls (es ++ [.feed fd]) = calls es := by
    rw [calls_concat]
    exact List.append_nil _
  refine ⟨hcalls ▸ h.run, h.readEnd, ?_, fun _ => ?_, hcalls ▸ h.last⟩
  · have hbytes := h.bytes
    rw [hunwritten] at hbytes
    rw [hcalls, Kernel.setBuffer_buffer, ← List.append_assoc, List.append_assoc _ [b]]
    exact hbytes
  · rw [Kernel.setBuffer_buffer]
    exact List.concat_ne_nil b _

/-- Those who write may change their descriptors. -/
theorem Invariant.writers (h : Invariant cfg input p bytes es s) {e : Event} {k : Kernel}
    (hcall : e.call? = none) (hbuffer : k.buffer = s.kernel.buffer)
    (hfds : k.fds input.fd = s.kernel.fds input.fd) :
    Invariant cfg input p bytes (es ++ [e]) { s with kernel := k } := by
  have hcalls : calls (es ++ [e]) = calls es := by
    rw [calls_concat, hcall]
    exact List.append_nil _
  refine ⟨hcalls ▸ h.run, hfds.trans h.readEnd, ?_, ?_, hcalls ▸ h.last⟩
  · rw [hcalls, hbuffer]
    exact h.bytes
  · rw [hbuffer]
    exact h.reading

theorem Invariant.call (h : Invariant cfg input p bytes es s) (hvalid : 0 ≤ input.fd) {e : Event}
    {c : TeleopKeyboard.Event} {keyboard : TeleopKeyboard.State} {k : Kernel}
    (hcall : e.call? = some c) (hstep : TeleopKeyboard.step cfg s.keyboard c = some keyboard)
    (hfinds : Finds input s.kernel c k) :
    Invariant cfg input p bytes (es ++ [e]) { s with keyboard := keyboard, kernel := k } := by
  have hcalls : calls (es ++ [e]) = calls es ++ [c] := by
    rw [calls_concat, hcall]
    rfl
  have hrun : (spin cfg).run (calls (es ++ [e])) = some keyboard := by
    rw [hcalls]
    exact (spin cfg).run_concat.mpr ⟨_, h.run, hstep⟩
  obtain ⟨hlast, hread⟩ := step_leads hstep
  have hquiet (hkey : c.key? = none) (hk : k = s.kernel)
      (hwait : c = .wait true → s.kernel.pollIn input.fd = true)
      (hwrite : c.Last → ∃ r, c = .write r ∧ r.Fails) :
      Invariant cfg input p bytes (es ++ [e]) { s with keyboard := keyboard, kernel := k } := by
    subst hk
    refine ⟨hrun, h.readEnd, ?_, fun hpc => ?_, fun hpc => ?_⟩
    · have hbytes := h.bytes
      rw [hcalls, List.filterMap_append, List.filterMap_cons_none hkey, List.filterMap_nil,
        List.append_nil]
      exact hbytes
    · have hin := hwait (hread hpc)
      simp only [Kernel.pollIn, h.readEnd] at hin
      simpa using hin
    · obtain ⟨r, rfl, hfails⟩ := hwrite (hlast hpc)
      exact ⟨calls es, r, hcalls, hfails⟩
  cases c with
  | read r =>
    have hpc : s.keyboard.pc = .read := by
      generalize hpc : s.keyboard.pc = pc at *
      cases pc with
      | read => rfl
      | top | idle | invalid | valid _ | now _ | writeSize _ _ | writePayload _ | returned =>
        simp only [TeleopKeyboard.step, hpc] at hstep
        cases hstep
    obtain ⟨b, rest, hbuffer⟩ := List.exists_cons_of_ne_nil (h.reading hpc)
    cases (read_eq hvalid h.readEnd hbuffer).symm.trans hfinds
    refine ⟨hrun, h.readEnd, ?_, fun hpc => ?_, fun hpc => ?_⟩
    · have hbytes := h.bytes
      rw [hbuffer] at hbytes
      rw [hcalls, List.filterMap_append, Kernel.setBuffer_buffer]
      simpa [Event.key?] using hbytes
    · cases hread hpc
    · rcases hlast hpc with heq | heq <;> cases heq
  | wait readable =>
    obtain ⟨hk, hin⟩ := hfinds
    exact hquiet rfl hk (fun heq => hin (TeleopKeyboard.Event.wait.inj heq)) (by rintro ⟨⟩)
  | poll ready =>
    obtain ⟨hk, rfl⟩ := hfinds
    exact hquiet rfl hk (by rintro ⟨⟩) (by rintro ⟨⟩)
  | now t => exact hquiet rfl hfinds (by rintro ⟨⟩) (by rintro ⟨⟩)
  | write r => exact hquiet rfl hfinds (by rintro ⟨⟩) fun hfails => ⟨r, rfl, hfails⟩

theorem Invariant.step (h : Invariant cfg input p bytes es s) (hvalid : 0 ≤ input.fd) {e : Event}
    (hstep : step cfg input p s e = some s') : Invariant cfg input p bytes (es ++ [e]) s' := by
  have hcall {c : TeleopKeyboard.Event} (hc : e.call? = some c) :
      Invariant cfg input p bytes (es ++ [e]) s' := by
    obtain ⟨keyboard, k, hkeyboard, hfinds, rfl⟩ := step_call hc hstep
    exact h.call hvalid hc hkeyboard hfinds
  -- no descriptor of the write end is the one that `spin` reads from
  have hreadEnd := h.readEnd
  cases e with
  | feed fd =>
    obtain ⟨b, rest, hunwritten, -, rfl⟩ := step_feed hstep
    exact h.feed hunwritten
  | dup fd fd' =>
    obtain ⟨-, ⟨-, -, hfree⟩, rfl⟩ := step_dup hstep
    have hne : input.fd ≠ fd' := fun heq => by
      rw [heq, hfree] at hreadEnd
      cases hreadEnd
    exact h.writers rfl rfl (Function.update_of_ne hne ..)
  | close fd =>
    obtain ⟨hfd, rfl⟩ := step_close hstep
    have hne : input.fd ≠ fd := fun heq => by
      rw [heq, hfd] at hreadEnd
      cases hreadEnd
    exact h.writers rfl rfl (Function.update_of_ne hne ..)
  | poll r => exact hcall rfl
  | call c => exact hcall rfl

variable {k : Kernel} {r w : Int}

theorem run_over_pipe (hfree : k.Free r w) (hrun : (overPipe cfg k r w bytes).run es = some s) :
    Invariant cfg (Pipe.create k (some (r, w))).2.1 k.next bytes es s := by
  refine (overPipe cfg k r w bytes).run_invariant
    (I := Invariant cfg (Pipe.create k (some (r, w))).2.1 k.next bytes) ?_ ?_ hrun
  · exact ⟨rfl, Kernel.pipe_fds_read hfree, congrArg (· ++ bytes) (Kernel.pipe_buffer_new r w), nofun,
      nofun⟩
  · intro es s e s' _ h hstep
    exact h.step hfree.1.1 hstep

/-- Where `spin` has not returned, it goes on with another call. -/
theorem exists_call (h : Invariant cfg input p bytes es s) (hvalid : 0 ≤ input.fd)
    (hpc : s.keyboard.pc ≠ .returned) :
    ∃ e c s', Event.call? e = some c ∧ step cfg input p s e = some s' := by
  have hcall {e : Event} {c : TeleopKeyboard.Event} {k : Kernel} (hc : e.call? = some c)
      (heq : step cfg input p s e = s.call cfg k c)
      (hsome : (TeleopKeyboard.step cfg s.keyboard c).isSome = true) :
      ∃ e c s', Event.call? e = some c ∧ step cfg input p s e = some s' := by
    obtain ⟨keyboard, hkeyboard⟩ := Option.isSome_iff_exists.mp hsome
    refine ⟨e, c, { s with keyboard := keyboard, kernel := k }, hc, heq.trans ?_⟩
    rw [State.call, hkeyboard]
    rfl
  cases heq : s.keyboard.pc with
  | top =>
    obtain ⟨r, hr⟩ := s.kernel.exists_polls input.fd
    apply hcall (e := .poll r) rfl (if_pos hr)
    simp only [TeleopKeyboard.step, heq, Option.isSome_some]
  | idle | invalid | valid _ =>
    apply hcall (e := .call (.poll false)) rfl rfl
    simp only [TeleopKeyboard.step, heq, Option.isSome_some]
  | read =>
    obtain ⟨b, rest, hbuffer⟩ := List.exists_cons_of_ne_nil (h.reading heq)
    have hread := read_eq hvalid h.readEnd hbuffer
    refine hcall (e := .call (.read (.bytes [b]))) (k := s.kernel.setBuffer p rest) rfl ?_ ?_
    · simp only [step, hread, if_true]
    · have hpossible : (ReadResult.bytes [b]).Possible 1 := ⟨Nat.zero_lt_one, Nat.le_refl 1⟩
      simp only [TeleopKeyboard.step, heq, hpossible, if_true]
      split <;> rfl
  | now v =>
    refine hcall (e := .call (.now ⟨0⟩)) rfl rfl ?_
    simp only [TeleopKeyboard.step, heq, Option.isSome_some]
  | writeSize w payload =>
    apply hcall (e := .call (.write (.wrote w.request))) rfl rfl
    simp only [TeleopKeyboard.step, heq, WriteResult.Possible, Nat.le_refl, if_true,
      Option.isSome_some]
  | writePayload w =>
    apply hcall (e := .call (.write (.wrote w.request))) rfl rfl
    simp only [TeleopKeyboard.step, heq, WriteResult.Possible, Nat.le_refl, if_true,
      Option.isSome_some]
  | returned => exact (hpc heq).elim

/-- `spin` never ends as it should. It returns only if a write to the output
fails, which leaves a frame incomplete, and as long as it does not return there
is always another call that it makes. -/
theorem spin_never_ends (hfree : k.Free r w) (hrun : (overPipe cfg k r w bytes).run es = some s) :
    (s.keyboard.pc = .returned →
      (∃ cs r, calls es = cs ++ [.write r] ∧ r.Fails) ∧
        ¬ Framed (twistsOf cfg bytes) s.keyboard.output False) ∧
    (s.keyboard.pc ≠ .returned →
      ∃ e c s', Event.call? e = some c ∧ (overPipe cfg k r w bytes).step s e = some s') := by
  have hinv := run_over_pipe hfree hrun
  refine ⟨fun hpc => ?_, exists_call hinv hfree.1.1⟩
  obtain ⟨cs, r, hcalls, hfails⟩ := hinv.last hpc
  refine ⟨⟨cs, r, hcalls, hfails⟩, ?_⟩
  have hspin := hinv.run
  rw [hcalls] at hspin
  have htwists : twistsOf cfg bytes =
      commanded cfg cs ++ twistsOf cfg (s.kernel.buffer k.next ++ s.unwritten) := by
    have hbytes := hinv.bytes
    rw [hcalls, List.filterMap_append, List.append_assoc] at hbytes
    rw [← hbytes]
    simp [twistsOf, commanded, Event.key?]
  rw [htwists]
  exact run_write_fails hspin hfails _

/-- A key, with the poll that its bytes do not reach, and an output that fails. -/
theorem spin_never_ends_example :
    ∃ s, (overPipe ⟨0, 0⟩ (.initial 8 16 fun _ => none) 3 4 [0x77]).run
        [.poll .timeout, .feed 4, .close 4, .call (.poll false), .poll (.events true),
          .call (.read (.bytes [0x77])), .call (.poll false), .call (.now ⟨0⟩),
          .call (.write (.failed .other))] = some s ∧
      s.keyboard.pc = .returned ∧ ¬ Framed (twistsOf ⟨0, 0⟩ [0x77]) s.keyboard.output False := by
  have hsome : ((overPipe ⟨0, 0⟩ (.initial 8 16 fun _ => none) 3 4
      [0x77]).run
        [.poll .timeout, .feed 4, .close 4, .call (.poll false), .poll (.events true),
          .call (.read (.bytes [0x77])), .call (.poll false), .call (.now ⟨0⟩),
          .call (.write (.failed .other))]).map (fun s => s.keyboard.pc) = some .returned := by
    decide +kernel
  obtain ⟨s, hs, hpc⟩ := Option.map_eq_some_iff.mp hsome
  exact ⟨s, hs, hpc, ((spin_never_ends (by decide) hs).1 hpc).2⟩

/-! ## After the end of the input -/

/-- Everything is read, nobody can write any more, and `spin` waits for input. -/
structure Drained (p : Nat) (s : State) : Prop where
  closed : ∀ fd, s.kernel.fds fd ≠ some (.writeEnd p)
  empty : s.kernel.buffer p = []
  waiting : s.keyboard.pc = .top ∨ s.keyboard.pc = .idle

theorem Drained.step (h : Drained p s) (hfd : s.kernel.fds input.fd = some (.readEnd p)) {e : Event}
    (hstep : step cfg input p s e = some s') :
    Drained p s' ∧ s'.kernel = s.kernel ∧ s'.keyboard.output = s.keyboard.output := by
  have hcall {c : TeleopKeyboard.Event} (hc : e.call? = some c) :
      Drained p s' ∧ s'.kernel = s.kernel ∧ s'.keyboard.output = s.keyboard.output := by
    obtain ⟨keyboard, k, hkeyboard, hfinds, rfl⟩ := step_call hc hstep
    have hin : s.kernel.pollIn input.fd = false := by
      simp only [Kernel.pollIn, hfd, h.empty, List.isEmpty_nil, Bool.not_true]
    rcases h.waiting with hpc | hpc
    · cases c with
      | wait readable =>
        obtain ⟨rfl, hreadable⟩ := hfinds
        have hfalse : readable = false := by
          cases readable with
          | false => rfl
          | true => exact absurd (hreadable rfl) (by simp [hin])
        subst hfalse
        simp only [TeleopKeyboard.step, hpc] at hkeyboard
        cases hkeyboard
        exact ⟨⟨h.closed, h.empty, .inr rfl⟩, rfl, rfl⟩
      | poll _ | read _ | now _ | write _ =>
        simp only [TeleopKeyboard.step, hpc] at hkeyboard
        cases hkeyboard
    · cases c with
      | poll ready =>
        obtain ⟨rfl, rfl⟩ := hfinds
        simp only [TeleopKeyboard.step, hpc] at hkeyboard
        cases hkeyboard
        exact ⟨⟨h.closed, h.empty, .inl rfl⟩, rfl, rfl⟩
      | wait _ | read _ | now _ | write _ =>
        simp only [TeleopKeyboard.step, hpc] at hkeyboard
        cases hkeyboard
  cases e with
  | feed fd =>
    obtain ⟨b, rest, -, hfd, -⟩ := step_feed hstep
    exact (h.closed fd hfd).elim
  | dup fd fd' => exact (h.closed fd (step_dup hstep).1).elim
  | close fd => exact (h.closed fd (step_close hstep).1).elim
  | poll r => exact hcall rfl
  | call c => exact hcall rfl

/-- From then on, whatever happens, `spin` waits for input and writes nothing. -/
theorem Drained.forever {M : Machine State Event} (hM : M.step = OverPipe.step cfg input p)
    (h : Drained p s) (hfd : s.kernel.fds input.fd = some (.readEnd p)) (hrest : M.runFrom s es = some s') :
    Drained p s' ∧ s'.keyboard.output = s.keyboard.output := by
  induction es generalizing s with
  | nil =>
    cases hrest
    exact ⟨h, rfl⟩
  | cons e es ih =>
    obtain ⟨s₁, hstep, hrest⟩ := Option.bind_eq_some_iff.mp hrest
    rw [hM] at hstep
    obtain ⟨hdrained, hkernel, houtput⟩ := h.step hfd hstep
    obtain ⟨hlast, hsame⟩ := ih hdrained (hkernel ▸ hfd) hrest
    exact ⟨hlast, hsame.trans houtput⟩

/-- The empty input: at the hangup `spin` does not return, and it never will. -/
theorem spin_waits_after_hangup :
    ∃ s, (overPipe ⟨0, 0⟩ (.initial 8 16 fun _ => none) 3 4 []).run
        [.close 4, .poll (.events false), .call (.poll false)] = some s ∧
      s.kernel.pollHup 3 = true ∧
      ∀ es s', (overPipe ⟨0, 0⟩ (.initial 8 16 fun _ => none) 3 4 []).runFrom s es = some s' →
        s'.keyboard.pc ≠ .returned := by
  refine ⟨_, rfl, by decide +kernel, fun es s' hrest => ?_⟩
  have hdrained : Drained (Kernel.initial 8 16 fun _ => none).next s' :=
    (Drained.forever rfl ⟨fun fd => ?_, rfl, .inl rfl⟩ rfl hrest).1
  · rcases hdrained.waiting with hpc | hpc <;> rw [hpc] <;> nofun
  · intro hfd
    obtain ⟨hne, hfd⟩ := Kernel.close_fds_eq_some.mp hfd
    rcases Kernel.pipe_fds_cases hfd with ⟨-, heq⟩ | ⟨heq, -⟩ | hold
    · cases heq
    · exact hne heq
    · simp [Kernel.initial] at hold

end OverPipe

end TeleopKeyboard
