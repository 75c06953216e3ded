-- SUMMARY: MBotDriver::spin refines a reader of whole frames, under every schedule of its calls.
import MBotTeleop.Driver.Spin

/-!
# The driver reads frames

`spin` assembles frames from short reads. The reference cuts the bytes that were
delivered into frames all at once, and decodes each frame by itself.
-/

namespace MBotDriver

open Rix.Ipc Rix.Msg
open Rix.Msg.Geometry (Twist2DStamped)

/-- The bytes delivered in a run. -/
def delivered (es : List Event) : List UInt8 := es.flatMap Event.delivered

/-- The command of a frame, if its payload is one. -/
def command (frame : List UInt8) : Option Twist2DStamped :=
  deserializeCmd (sizePrefixed.body frame)

@[simp] theorem delivered_concat (es : List Event) (e : Event) :
    delivered (es ++ [e]) = delivered es ++ e.delivered := by
  simp [delivered]

/-! ## Partial frames -/

/-- The partial frame that ends with `dst` in the buffer is `rest`. -/
def Buffer.Assembles : Buffer → List UInt8 → List UInt8 → Prop
  | sizeBuf, dst, rest => rest = dst
  | payload msgSize, dst, rest =>
    ∃ sizeBuf, sizeBuf.length = 4 ∧ LittleEndian.decode sizeBuf = msgSize ∧ rest = sizeBuf ++ dst

/-- `read_exact` works on a frame of which `rest` was read. -/
def Reading.Assembles (rd : Reading) (rest : List UInt8) : Prop :=
  rd.buffer.Assembles rd.dst rest

/-- What `spin` has read of the next frame where it makes its next call. -/
def Pc.At : Pc → List UInt8 → Prop
  | top, rest => rest = []
  | read rd, rest | again rd, rest | wait rd, rest => rd.Assembles rest
  | returned, _ => False

theorem frameLen_sizeBuf {sizeBuf : List UInt8} (h : sizeBuf.length = 4) (dst : List UInt8) :
    sizePrefixed.frameLen (sizeBuf ++ dst) = 4 + LittleEndian.decode sizeBuf := by
  rw [Framing.frameLen, sizePrefixed_headerLen, List.take_left' h]
  rfl

/-- The buffer being filled ends where the frame, or its size prefix, ends. -/
theorem Reading.Assembles.request {rd : Reading} {rest : List UInt8} (h : rd.Assembles rest) :
    rest.length + rd.request = if rest.length < 4 then 4 else sizePrefixed.frameLen rest := by
  obtain ⟨buffer, dst, hlt⟩ := rd
  cases buffer with
  | sizeBuf =>
    obtain rfl : rest = dst := h
    have hlt : rest.length < 4 := hlt
    rw [if_pos hlt]
    exact Nat.add_sub_cancel' (Nat.le_of_lt hlt)
  | payload msgSize =>
    obtain ⟨sizeBuf, hlen, rfl, rfl⟩ := h
    have hlt : dst.length < LittleEndian.decode sizeBuf := hlt
    have hlong : ¬ (sizeBuf ++ dst).length < 4 := by rw [List.length_append]; omega
    rw [if_neg hlong, frameLen_sizeBuf hlen, List.length_append, hlen]
    change 4 + dst.length + (LittleEndian.decode sizeBuf - dst.length) = _
    omega

theorem Reading.Assembles.incomplete {rd : Reading} {rest : List UInt8} (h : rd.Assembles rest) :
    sizePrefixed.Incomplete rest := by
  have hreq := h.request
  have hlt := rd.lt
  unfold Reading.request at hreq
  by_cases hshort : rest.length < 4
  · exact .inl hshort
  · rw [if_neg hshort] at hreq
    exact .inr (by omega)

theorem Pc.At.incomplete {pc : Pc} {rest : List UInt8} (h : pc.At rest) :
    sizePrefixed.Incomplete rest := by
  cases pc with
  | top => exact h ▸ Framing.incomplete_nil
  | read rd | again rd | wait rd => exact Reading.Assembles.incomplete h
  | returned => exact h.elim

/-! ## One step -/

/-- After the size prefix: a payload to read, or a whole frame without one. -/
theorem readPayload_cases (s : State) {sizeBuf : List UInt8} (h : sizeBuf.length = 4) :
    (∃ rd, rd.Assembles sizeBuf ∧ s.readPayload sizeBuf = { s with pc := .read rd }) ∨
    (sizePrefixed.IsFrame sizeBuf ∧
      s.readPayload sizeBuf = s.drivePayload (sizePrefixed.body sizeBuf)) := by
  have hlt : LittleEndian.decode sizeBuf < 2 ^ 32 := by
    have := LittleEndian.decode_lt sizeBuf
    rwa [h] at this
  obtain ⟨hok, hdst⟩ := deserializeNumber_buffer .uint32 h 0
  have hsize : (deserializeNumber .uint32 (Memory.ofList sizeBuf) 4 0 ⟨0, []⟩).dst.toNat =
      LittleEndian.decode sizeBuf := by
    rw [show (4 : Nat) = NumType.uint32.sizeof from rfl, hdst]
    exact Nat.mod_eq_of_lt hlt
  have hok : (deserializeNumber .uint32 (Memory.ofList sizeBuf) 4 0 ⟨0, []⟩).ok = true := hok
  unfold State.readPayload
  simp only [hok, if_true]
  split
  · rename_i hpos
    refine .inl ⟨_, ?_, rfl⟩
    exact ⟨sizeBuf, h, hsize.symm, (List.append_nil _).symm⟩
  · rename_i hzero
    have hzero : LittleEndian.decode sizeBuf = 0 := by omega
    refine .inr ⟨?_, ?_⟩
    · have hlen := frameLen_sizeBuf h []
      rw [List.append_nil, hzero] at hlen
      rw [Framing.IsFrame, hlen, h]
    · rw [Framing.body, sizePrefixed_headerLen, ← h, List.drop_length]

/-- More bytes leave the frame partial, or complete it and drive. -/
theorem advance_cases {s : State} {rd : Reading} {rest bs : List UInt8} (h : rd.Assembles rest)
    (hbs : bs.length ≤ rd.request) :
    (∃ rd', rd'.Assembles (rest ++ bs) ∧ s.advance rd bs = { s with pc := .read rd' }) ∨
    (sizePrefixed.IsFrame (rest ++ bs) ∧
      s.advance rd bs = s.drivePayload (sizePrefixed.body (rest ++ bs))) := by
  obtain ⟨buffer, dst, hlt⟩ := rd
  have hfull (hnot : ¬ (dst ++ bs).length < buffer.size) : (dst ++ bs).length = buffer.size := by
    have hbs : bs.length ≤ buffer.size - dst.length := hbs
    rw [List.length_append] at hnot ⊢
    omega
  unfold State.advance
  cases buffer with
  | sizeBuf =>
    obtain rfl : rest = dst := h
    split
    · refine .inl ⟨_, ?_, rfl⟩
      exact rfl
    · rename_i hnot
      exact readPayload_cases s (hfull hnot)
  | payload msgSize =>
    obtain ⟨sizeBuf, hlen, rfl, rfl⟩ := h
    split
    · refine .inl ⟨_, ?_, rfl⟩
      exact ⟨sizeBuf, hlen, rfl, List.append_assoc ..⟩
    · rename_i hnot
      have hfull : (dst ++ bs).length = LittleEndian.decode sizeBuf := hfull hnot
      refine .inr ⟨?_, ?_⟩
      · rw [Framing.IsFrame, List.append_assoc, frameLen_sizeBuf hlen, List.length_append, hlen,
          hfull]
      · rw [Framing.body, sizePrefixed_headerLen, List.append_assoc, List.drop_left' hlen]
        rfl

/-- What a step can do: send the stop command and return, read on in a partial
frame, or complete a frame. -/
theorem step_cases {s s' : State} {e : Event} {rest : List UInt8} (hat : s.pc.At rest)
    (h : step s e = some s') :
    (e.delivered = [] ∧ s' = s.sendStop) ∨
    (e ≠ .poll true ∧ s'.drives = s.drives ∧ s'.pc.At (rest ++ e.delivered)) ∨
    (sizePrefixed.IsFrame (rest ++ e.delivered) ∧
      s' = s.drivePayload (sizePrefixed.body (rest ++ e.delivered))) := by
  obtain ⟨pc, drives⟩ := s
  cases pc with
  | top =>
    obtain rfl : rest = [] := hat
    cases e with
    | poll ready =>
      cases ready with
      | true => exact .inl ⟨rfl, (Option.some.inj h).symm⟩
      | false =>
        cases h
        exact .inr (.inl ⟨nofun, rfl, rfl⟩)
    | read r => cases h
    | wait readable => cases h
  | read rd =>
    cases e with
    | poll ready => cases h
    | wait readable => cases h
    | read r =>
      simp only [step] at h
      split at h
      · rename_i hr
        cases r with
        | eof => exact .inl ⟨rfl, (Option.some.inj h).symm⟩
        | bytes bs =>
          obtain rfl := Option.some.inj h
          rcases advance_cases (s := ⟨.read rd, drives⟩) hat hr.2 with ⟨rd', hrd', heq⟩ | hframe
          · exact .inr (.inl ⟨nofun, by rw [heq], by rw [heq]; exact hrd'⟩)
          · exact .inr (.inr hframe)
        | failed errno =>
          cases errno with
          | other => exact .inl ⟨rfl, (Option.some.inj h).symm⟩
          | eintr | eagain =>
            cases h
            exact .inr (.inl ⟨nofun, rfl, (List.append_nil rest).symm ▸ hat⟩)
      · cases h
  | again rd =>
    cases e with
    | poll ready =>
      cases ready with
      | true => exact .inl ⟨rfl, (Option.some.inj h).symm⟩
      | false =>
        cases h
        exact .inr (.inl ⟨nofun, rfl, (List.append_nil rest).symm ▸ hat⟩)
    | read r => cases h
    | wait readable => cases h
  | wait rd =>
    cases e with
    | poll ready => cases h
    | read r => cases h
    | wait readable =>
      cases h
      exact .inr (.inl ⟨nofun, rfl, (List.append_nil rest).symm ▸ hat⟩)
  | returned => exact hat.elim

theorem step_returned {s : State} (h : s.pc = .returned) (e : Event) : step s e = none := by
  obtain ⟨pc, drives⟩ := s
  obtain rfl : pc = .returned := h
  rfl

/-- An empty payload is no command. -/
theorem deserializeCmd_nil : deserializeCmd [] = none := rfl

@[simp] theorem drivePayload_pc (s : State) (payload : List UInt8) :
    (s.drivePayload payload).pc = .top := by
  unfold State.drivePayload
  split <;> rfl

/-- A whole frame is driven if its payload is a command, and skipped if not. -/
theorem drivePayload_body (s : State) (frame : List UInt8) :
    (s.drivePayload (sizePrefixed.body frame)).drives = s.drives ++ [frame].filterMap command := by
  cases hcmd : command frame with
  | none =>
    rw [List.filterMap_cons_none hcmd, List.filterMap_nil, List.append_nil, State.drivePayload]
    rw [command] at hcmd
    rw [hcmd]
  | some cmd =>
    rw [List.filterMap_cons_some hcmd, List.filterMap_nil, State.drivePayload]
    rw [command] at hcmd
    rw [hcmd]

/-- One step calls `drive` at most once. -/
theorem step_drives {s s' : State} {e : Event} {rest : List UInt8} (hat : s.pc.At rest)
    (h : step s e = some s') :
    s'.drives = s.drives ∨ ∃ cmd, s'.drives = s.drives ++ [cmd] := by
  rcases step_cases hat h with ⟨-, rfl⟩ | ⟨-, hsame, -⟩ | ⟨-, rfl⟩
  · exact .inr ⟨_, rfl⟩
  · exact .inl hsame
  · rw [drivePayload_body]
    rcases hcmd : command (rest ++ e.delivered) with _ | cmd
    · left
      rw [List.filterMap_cons_none hcmd, List.filterMap_nil, List.append_nil]
    · right
      exact ⟨cmd, by rw [List.filterMap_cons_some hcmd, List.filterMap_nil]⟩

/-! ## Runs -/

/-- The state of `spin` after the bytes `bs`: their frames, the partial frame
after them, and the drive log. -/
structure Follows (bs : List UInt8) (s : State) (frames : List (List UInt8))
    (rest : List UInt8) : Prop where
  splits : sizePrefixed.Splits bs frames rest
  at_rest : s.pc = .returned ∨ s.pc.At rest
  drives : s.drives = frames.filterMap command ++ if s.pc = .returned then [stop] else []

/-- Every run follows the frames of the bytes that it was delivered. -/
theorem run_follows {es : List Event} {s : State} (hrun : spin.run es = some s) :
    ∃ frames rest, Follows (delivered es) s frames rest := by
  refine spin.run_invariant (I := fun es s => ∃ frames rest, Follows (delivered es) s frames rest)
    ?_ ?_ hrun
  · exact ⟨[], [], Framing.splits_nil, .inr rfl, rfl⟩
  · rintro es s e s' - ⟨frames, rest, hsplits, hat, hdrives⟩ hstep
    rcases hat with hret | hat
    · have hnone := step_returned hret e
      cases hnone.symm.trans hstep
    have hpc : s.pc ≠ .returned := fun hret => by rw [hret] at hat; exact hat
    rw [if_neg hpc, List.append_nil] at hdrives
    rw [delivered_concat]
    rcases step_cases hat hstep with ⟨hnil, rfl⟩ | ⟨-, hsame, hat'⟩ | ⟨hframe, rfl⟩
    · exact ⟨frames, rest, by rwa [hnil, List.append_nil], .inl rfl, by
        rw [State.sendStop, hdrives]; rfl⟩
    · have hpc' : s'.pc ≠ .returned := fun hret => by rw [hret] at hat'; exact hat'
      exact ⟨frames, rest ++ e.delivered, hsplits.extend hat'.incomplete, .inr hat', by
        rw [hsame, hdrives, if_neg hpc', List.append_nil]⟩
    · refine ⟨frames ++ [rest ++ e.delivered], [], hsplits.complete hframe, .inr ?_, ?_⟩
      · rw [drivePayload_pc]
        rfl
      · rw [drivePayload_pc, drivePayload_body, hdrives, if_neg nofun, List.append_nil,
          List.filterMap_append]

/-- A notification ends the run with the stop command. -/
theorem run_of_poll {es₁ es₂ : List Event} {s : State}
    (hrun : spin.run (es₁ ++ .poll true :: es₂) = some s) :
    es₂ = [] ∧ ∃ s₁, spin.run es₁ = some s₁ ∧ s = s₁.sendStop := by
  obtain ⟨s₁, s₂, hs₁, hstep, hrest⟩ := spin.run_middle.mp hrun
  have hstop : s₂ = s₁.sendStop := by
    obtain ⟨pc, drives⟩ := s₁
    cases pc with
    | top | again rd => exact (Option.some.inj hstep).symm
    | read rd | wait rd | returned => cases hstep
  obtain ⟨rfl, rfl⟩ := spin.runFrom_of_stuck (step_returned (by rw [hstop]; rfl)) hrest
  exact ⟨rfl, s₁, hs₁, hstop⟩

/-- So does the end of the input. -/
theorem run_of_eof {es : List Event} {s : State} (hrun : spin.run (es ++ [.read .eof]) = some s) :
    s.pc = .returned := by
  obtain ⟨⟨pc, drives⟩, -, hstep⟩ := spin.run_concat.mp hrun
  cases pc with
  | read rd =>
    obtain rfl := Option.some.inj hstep
    rfl
  | top | again _ | wait _ | returned => cases hstep

/-- `spin` refines the reference reader of frames, in every run. The bytes that
were delivered are frames and an incomplete rest. The drive log holds the
commands of the frames in order, and after them the stop command once `spin` has
returned. The next read asks for no byte past the frame, a frame without a
command changes only where `spin` is, and a notification is followed by the stop
command and nothing else. -/
theorem spin_refines {es : List Event} {s : State} (hrun : spin.run es = some s) :
    ∃ frames rest,
      sizePrefixed.Splits (delivered es) frames rest ∧
      s.drives = frames.filterMap command ++ (if s.pc = .returned then [stop] else []) ∧
      (∀ rd, s.pc = .read rd →
        rest.length + rd.request = if rest.length < 4 then 4 else sizePrefixed.frameLen rest) ∧
      (∀ e s', spin.step s e = some s' → sizePrefixed.IsFrame (rest ++ e.delivered) →
        command (rest ++ e.delivered) = none ∨ sizePrefixed.body (rest ++ e.delivered) = [] →
        s' = { s with pc := .top }) ∧
      ∀ es₁ es₂, es = es₁ ++ .poll true :: es₂ →
        es₂ = [] ∧ ∃ s₁, spin.run es₁ = some s₁ ∧ s.pc = .returned ∧ s.drives = s₁.drives ++ [stop] := by
  obtain ⟨frames, rest, hsplits, hat, hdrives⟩ := run_follows hrun
  refine ⟨frames, rest, hsplits, hdrives, fun rd hpc => ?_, fun e s' hstep hframe hbad => ?_, ?_⟩
  · rw [hpc] at hat
    exact Reading.Assembles.request (hat.resolve_left nofun)
  · rcases hat with hret | hat
    · cases (step_returned hret e).symm.trans hstep
    · have hwhole : ¬ sizePrefixed.Incomplete (rest ++ e.delivered) := by
        simpa using hframe.not_incomplete []
      rcases step_cases hat hstep with ⟨hnil, -⟩ | ⟨-, -, hat'⟩ | ⟨-, rfl⟩
      · rw [hnil, List.append_nil] at hwhole
        exact (hwhole hat.incomplete).elim
      · exact (hwhole hat'.incomplete).elim
      · have hbad : deserializeCmd (sizePrefixed.body (rest ++ e.delivered)) = none := by
          rcases hbad with hbad | hempty
          · exact hbad
          · rw [hempty, deserializeCmd_nil]
        rw [State.drivePayload, hbad]
  · rintro es₁ es₂ rfl
    obtain ⟨hnil, s₁, hs₁, rfl⟩ := run_of_poll hrun
    exact ⟨hnil, s₁, hs₁, rfl, rfl⟩

/-- An empty frame in two reads, and then a command before a notification. -/
theorem spin_refines_example :
    ∃ frames rest,
      sizePrefixed.Splits ([0] ++ [0, 0, 0] ++ Message.frame { stop with twist.vx := 1 } ++ [32])
        frames rest ∧
      [{ stop with twist.vx := 1 }, stop] = frames.filterMap command ++ [stop] := by
  have hrun : spin.run [.poll false, .read (.bytes [0]), .read (.failed .eintr),
      .read (.bytes [0, 0, 0]), .poll false,
      .read (.bytes ((Message.frame { stop with twist.vx := 1 }).take 4)),
      .read (.bytes ((Message.frame { stop with twist.vx := 1 }).drop 4)),
      .poll false, .read (.bytes [32]), .read (.failed .eagain), .poll true] =
    some ⟨.returned, [{ stop with twist.vx := 1 }, stop]⟩ := rfl
  obtain ⟨frames, rest, hsplits, hdrives, -⟩ := spin_refines hrun
  exact ⟨frames, rest, hsplits, hdrives⟩

end MBotDriver
