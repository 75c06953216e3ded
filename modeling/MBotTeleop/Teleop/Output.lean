-- SUMMARY: What TeleopKeyboard::spin has written, for every input and every schedule of its calls.
import MBotTeleop.Teleop.Spin

/-!
# The output of the keyboard

The output is the frames of the valid keys that were consumed. Only the last
frame can be incomplete. The invariant of a run says which messages are begun
and which bytes of them are still to come.
-/

namespace TeleopKeyboard

open Rix.Ipc Rix.Msg
open Rix.Msg.Geometry (Twist2D Twist2DStamped)

variable {cfg : Config}

-- ---------------------------------------------------------------------------
-- Histories
-- ---------------------------------------------------------------------------

/-- The twists of the valid keys consumed in a run, in order. -/
def commanded (cfg : Config) (es : List Event) : List Twist2D :=
  (es.filterMap Event.key?).filterMap fun key => (velocity cfg key).map Velocity.twist

/-- The notification polls since a byte was consumed. -/
def pollsSinceKey (es : List Event) : Nat :=
  es.foldl (fun n e => match e with
    | .read (.bytes _) => 0
    | .poll _ => n + 1
    | _ => n) 0

theorem commanded_concat (es : List Event) (e : Event) :
    commanded cfg (es ++ [e]) = commanded cfg es ++ commanded cfg [e] := by
  simp [commanded]

/-- Nothing is commanded by a call that consumes no byte. -/
theorem commanded_of_key?_none {e : Event} (h : e.key? = none) : commanded cfg [e] = [] := by
  simp [commanded, h]

@[simp] theorem pollsSinceKey_concat (es : List Event) (e : Event) :
    pollsSinceKey (es ++ [e]) = match e with
      | .read (.bytes _) => 0
      | .poll _ => pollsSinceKey es + 1
      | _ => pollsSinceKey es := by
  simp [pollsSinceKey]

-- ---------------------------------------------------------------------------
-- Keys and messages
-- ---------------------------------------------------------------------------

/-- w, a, s, d, q and e in either case, and space. -/
def validKeys : List UInt8 :=
  ['w', 'a', 's', 'd', 'q', 'e', 'W', 'A', 'S', 'D', 'Q', 'E', ' '].map Char.toUInt8

theorem velocity_isSome_congr (cfg cfg' : Config) (key : UInt8) :
    (velocity cfg key).isSome = (velocity cfg' key).isSome := by
  simp only [velocity, apply_ite Option.isSome, Option.isSome_some]

theorem velocity_isSome_table :
    ∀ n : Fin 256, (velocity ⟨0, 0⟩ (UInt8.ofNat n)).isSome = decide (UInt8.ofNat n ∈ validKeys) := by
  decide +kernel

/-- Exactly the valid keys have a velocity, at any speeds. -/
theorem velocity_isSome_iff (cfg : Config) (key : UInt8) :
    (velocity cfg key).isSome ↔ key ∈ validKeys := by
  have h := velocity_isSome_table ⟨key.toNat, key.toNat_lt⟩
  rw [UInt8.ofNat_toNat] at h
  rw [velocity_isSome_congr cfg ⟨0, 0⟩, h, decide_eq_true_iff]

theorem length_encode_message (seq : BitVec 32) (t : Rix.Util.Time) (v : Velocity) :
    (Message.encode (message seq t v)).length = 32 :=
  Twist2DStamped.length_encode _

/-- The payload is the encoded message. -/
theorem payloadOf_message (seq : BitVec 32) (t : Rix.Util.Time) (v : Velocity) :
    payloadOf (message seq t v) (uint32 (Message.size (message seq t v))) =
      Message.encode (message seq t v) := by
  have hlen := length_encode_message seq t v
  obtain ⟨hsize, hslice⟩ := Message.serialize_payload (m := message seq t v) (by omega)
    (Memory.ofList (List.replicate (Message.size (message seq t v)) 0))
  have hexact : uint32 (Message.size (message seq t v)) = Message.size (message seq t v) :=
    uint32_eq (by omega)
  rw [payloadOf, hexact]
  exact hslice

/-- The size prefix is the length of the payload. -/
theorem sizeBufOf_message (seq : BitVec 32) (t : Rix.Util.Time) (v : Velocity) :
    sizeBufOf (uint32 (Message.size (message seq t v))) =
      LittleEndian.encode 4 (Message.encode (message seq t v)).length := by
  have hlen := length_encode_message seq t v
  obtain ⟨hsize, -⟩ := Message.serialize_payload (m := message seq t v) (by omega) (Memory.ofList [])
  have hexact : uint32 (Message.size (message seq t v)) = 32 := by
    rw [hsize, hlen]
    rfl
  rw [hexact, hlen]
  rfl

/-- The messages are numbered from zero, modulo `2 ^ 32`, and carry the frame id. -/
def Numbered (msgs : List Twist2DStamped) : Prop :=
  ∀ i (h : i < msgs.length), msgs[i].header.seq = BitVec.ofNat 32 i ∧
    msgs[i].header.frameId = frameId

theorem numbered_nil : Numbered [] := fun _ h => absurd h (Nat.not_lt_zero _)

theorem Numbered.concat {msgs : List Twist2DStamped} (h : Numbered msgs)
    (t : Rix.Util.Time) (v : Velocity) :
    Numbered (msgs ++ [message (BitVec.ofNat 32 msgs.length) t v]) := by
  intro i hi
  rw [List.length_append, List.length_singleton] at hi
  rcases Nat.lt_succ_iff_lt_or_eq.mp hi with hlt | rfl
  · rw [List.getElem_append_left hlt]
    exact h i hlt
  · simp [message]

theorem Numbered.frameId_eq {msgs : List Twist2DStamped} (h : Numbered msgs) {m : Twist2DStamped}
    (hm : m ∈ msgs) : m.header.frameId = frameId := by
  obtain ⟨i, hi, rfl⟩ := List.mem_iff_getElem.mp hm
  exact (h i hi).2

/-- The size prefix of every frame is the length of its payload. -/
theorem Numbered.isFrame {msgs : List Twist2DStamped} (h : Numbered msgs) {m : Twist2DStamped}
    (hm : m ∈ msgs) : sizePrefixed.IsFrame (Message.frame m) := by
  apply Message.isFrame_frame
  rw [Twist2DStamped.length_encode, h.frameId_eq hm]
  decide

-- ---------------------------------------------------------------------------
-- The invariant
-- ---------------------------------------------------------------------------

/-- The twist of a key that was consumed, before its message exists. -/
def Pc.queued : Pc → List Twist2D
  | valid v | now v => [v.twist]
  | top | idle | read | invalid | writeSize _ _ | writePayload _ | returned => []

/-- The bytes of a begun frame that are still to be written. -/
def Pc.pending : Pc → List UInt8
  | writeSize w payload => w.src.drop w.sent ++ payload
  | writePayload w => w.src.drop w.sent
  | top | idle | read | invalid | valid _ | now _ | returned => []

/-- The frame of the last key consumed is being produced. -/
def Pc.Producing : Pc → Prop
  | valid _ | now _ | writeSize _ _ | writePayload _ => True
  | top | idle | read | invalid | returned => False

/-- The polls made since the last byte consumed, where that matters. -/
def Pc.Polled : Pc → Nat → Prop
  | invalid, n | valid _, n => n = 0
  | now _, n | writeSize .., n | writePayload _, n => n = 1
  | top, _ | idle, _ | read, _ | returned, _ => True

/-- How the output stands to the messages `msgs` that were begun. -/
structure Follows (cfg : Config) (es : List Event) (s : State) (msgs : List Twist2DStamped) :
    Prop where
  twists : commanded cfg es = msgs.map (·.twist) ++ s.pc.queued
  numbered : Numbered msgs
  seq : s.seq = BitVec.ofNat 32 msgs.length
  output : s.output ++ s.pc.pending = msgs.flatMap Message.frame
  dropLast : msgs.dropLast.flatMap Message.frame <+: s.output
  polled : s.pc.Polled (pollsSinceKey es)
  key : ∀ v, s.pc = .valid v →
    ∃ es₀ bs, es = es₀ ++ [.read (.bytes bs)] ∧ velocity cfg (bs.headD 0) = some v

theorem follows_init : Follows cfg [] {} [] where
  twists := rfl
  numbered := numbered_nil
  seq := rfl
  output := rfl
  dropLast := List.prefix_rfl
  polled := trivial
  key := nofun

/-- A call that begins no message: it may consume a key, or write a part of
what is pending. -/
theorem Follows.move {es : List Event} {s s' : State} {msgs : List Twist2DStamped} {e : Event}
    (h : Follows cfg es s msgs) (hseq : s'.seq = s.seq)
    (htwists : s'.pc.queued = s.pc.queued ++ commanded cfg [e])
    (houtput : s'.output ++ s'.pc.pending = s.output ++ s.pc.pending)
    (hgrow : s.output <+: s'.output)
    (hpolled : s'.pc.Polled (pollsSinceKey (es ++ [e])))
    (hkey : ∀ v, s'.pc = .valid v →
      ∃ bs, e = .read (.bytes bs) ∧ velocity cfg (bs.headD 0) = some v) :
    Follows cfg (es ++ [e]) s' msgs where
  twists := by rw [commanded_concat, h.twists, htwists, List.append_assoc]
  numbered := h.numbered
  seq := by rw [hseq, h.seq]
  output := by rw [houtput, h.output]
  dropLast := h.dropLast.trans hgrow
  polled := hpolled
  key v hv := by
    obtain ⟨bs, rfl, hvel⟩ := hkey v hv
    exact ⟨es, bs, rfl, hvel⟩

/-- `Time::now` begins the message of the queued key. -/
theorem Follows.send {es : List Event} {s : State} {msgs : List Twist2DStamped} {v : Velocity}
    (h : Follows cfg es s msgs) (hpc : s.pc = .now v) (t : Rix.Util.Time) :
    Follows cfg (es ++ [.now t]) (s.send t v) (msgs ++ [message s.seq t v]) where
  twists := by
    rw [commanded_concat, h.twists, hpc, commanded_of_key?_none rfl, List.append_nil,
      List.map_append]
    exact (List.append_nil _).symm
  numbered := by
    rw [h.seq]
    exact h.numbered.concat t v
  seq := by
    rw [List.length_append, List.length_singleton, BitVec.ofNat_add, ← h.seq]
    rfl
  output := by
    have hout := h.output
    rw [hpc, Pc.pending, List.append_nil] at hout
    rw [List.flatMap_append, ← hout, State.send]
    simp only [Pc.pending, List.drop_zero, List.flatMap_singleton, sizeBufOf_message,
      payloadOf_message, Message.frame]
  dropLast := by
    have hout := h.output
    rw [hpc, Pc.pending, List.append_nil] at hout
    rw [List.dropLast_concat, ← hout]
    exact List.prefix_rfl
  polled := by
    have hpolled := h.polled
    rw [hpc] at hpolled
    rw [pollsSinceKey_concat]
    exact hpolled
  key _ hv := nomatch hv

/-- The key's poll is done, and what remains of its frame is `bytes`. -/
structure Pc.Owes (pc : Pc) (bytes : List UInt8) : Prop where
  queued : pc.queued = []
  pending : pc.pending = bytes
  polled : pc.Polled 1
  valid : ∀ v, pc ≠ .valid v

/-- One write of a `write_exact` that goes on or is done. -/
theorem Follows.write {es : List Event} {s : State} {msgs : List Twist2DStamped} {w : Writing}
    {k : Nat} {more : Writing → Pc} {done : State → State} {rest : List UInt8}
    (h : Follows cfg es s msgs) (hpolls : pollsSinceKey es = 1)
    (howes : s.pc.Owes (w.src.drop w.sent ++ rest))
    (hmore : ∀ w, (more w).Owes (w.src.drop w.sent ++ rest))
    (hdone : ∀ s, (done s).seq = s.seq ∧ (done s).output = s.output ∧ (done s).pc.Owes rest)
    (hpos : k ≠ 0) :
    Follows cfg (es ++ [.write (.wrote k)]) (s.writeExact w (.wrote k) more done) msgs := by
  have hcommanded : commanded cfg [.write (.wrote k)] = [] := commanded_of_key?_none rfl
  have hpolls : pollsSinceKey (es ++ [.write (.wrote k)]) = 1 := by
    rw [pollsSinceKey_concat]
    exact hpolls
  simp only [State.writeExact, if_neg hpos]
  split
  · rename_i hlt
    have hnext := hmore ⟨w.src, w.sent + k, hlt⟩
    refine h.move rfl ?_ ?_ (List.prefix_append ..) (hpolls ▸ hnext.polled)
      fun v hpc => (hnext.valid v hpc).elim
    · rw [hnext.queued, howes.queued, hcommanded]
      rfl
    · rw [hnext.pending, howes.pending]
      simp only [List.append_assoc]
      rw [← List.append_assoc (List.take _ _), ← List.drop_drop, List.take_append_drop]
  · rename_i hnot
    obtain ⟨hseq, hout, hnext⟩ :=
      hdone { s with output := s.output ++ (w.src.drop w.sent).take k }
    have hall : (w.src.drop w.sent).take k = w.src.drop w.sent := by
      apply List.take_of_length_le
      rw [List.length_drop]
      omega
    refine h.move hseq ?_ ?_ (hout ▸ List.prefix_append ..) (hpolls ▸ hnext.polled)
      fun v hpc => (hnext.valid v hpc).elim
    · rw [hnext.queued, howes.queued, hcommanded]
      rfl
    · rw [hout, hnext.pending, howes.pending, hall, List.append_assoc]

/-- A call after which `spin` returns wrote nothing. -/
structure Returns (es : List Event) (s : State) (e : Event) (s' : State) : Prop where
  pc : s'.pc = .returned
  output : s'.output = s.output
  key : e.key? = none
  why : s.pc.queued = [] ∧ s.pc.pending = [] ∨ (e = .poll true ∧ ∃ v, s.pc = .valid v) ∨
    ∃ r, e = .write r ∧ r.Fails

/-- A write that `write_exact` goes on after, or gives up on. -/
theorem Follows.writeExact {es : List Event} {s : State} {msgs : List Twist2DStamped} {w : Writing}
    {r : WriteResult} {more : Writing → Pc} {done : State → State} {rest : List UInt8}
    (h : Follows cfg es s msgs) (hpolls : pollsSinceKey es = 1)
    (howes : s.pc.Owes (w.src.drop w.sent ++ rest))
    (hmore : ∀ w, (more w).Owes (w.src.drop w.sent ++ rest))
    (hdone : ∀ s, (done s).seq = s.seq ∧ (done s).output = s.output ∧ (done s).pc.Owes rest) :
    Follows cfg (es ++ [.write r]) (s.writeExact w r more done) msgs ∨
      Returns es s (.write r) (s.writeExact w r more done) := by
  cases r with
  | wrote k =>
    by_cases hpos : k = 0
    · subst hpos
      exact .inr ⟨by simp [State.writeExact], by simp [State.writeExact], rfl,
        .inr (.inr ⟨_, rfl, rfl⟩)⟩
    · exact .inl (h.write hpolls howes hmore hdone hpos)
  | failed errno =>
    cases errno with
    | eintr =>
      left
      refine h.move rfl ?_ rfl List.prefix_rfl ?_ fun v hv => (howes.valid v hv).elim
      · rw [commanded_of_key?_none rfl, List.append_nil]
        rfl
      · rw [pollsSinceKey_concat]
        exact h.polled
    | eagain | other => exact .inr ⟨rfl, rfl, rfl, .inr (.inr ⟨_, rfl, nofun⟩)⟩

theorem sizeWritten_owes (s : State) (payload : List UInt8) :
    (s.sizeWritten payload).seq = s.seq ∧ (s.sizeWritten payload).output = s.output ∧
      (s.sizeWritten payload).pc.Owes payload := by
  unfold State.sizeWritten
  split
  · exact ⟨rfl, rfl, rfl, rfl, rfl, nofun⟩
  · rename_i hempty
    have hnil : payload = [] := List.eq_nil_of_length_eq_zero (by omega)
    exact ⟨rfl, rfl, rfl, hnil.symm, trivial, nofun⟩

/-- A call that consumes no byte and writes nothing, and after which no key is
new. -/
theorem Follows.quiet {es : List Event} {s : State} {msgs : List Twist2DStamped} {e : Event}
    {pc : Pc} (h : Follows cfg es s msgs) (hkey : e.key? = none) (hqueued : pc.queued = s.pc.queued)
    (hpending : pc.pending = s.pc.pending) (hpolled : pc.Polled (pollsSinceKey (es ++ [e])))
    (hvalid : ∀ v, pc ≠ .valid v) : Follows cfg (es ++ [e]) { s with pc := pc } msgs := by
  refine h.move rfl ?_ ?_ List.prefix_rfl hpolled fun v hv => (hvalid v hv).elim
  · rw [commanded_of_key?_none hkey, List.append_nil]
    exact hqueued
  · exact congrArg (s.output ++ ·) hpending

/-- `input->read` consumes a key, or there is none. -/
theorem Follows.read {es : List Event} {s s' : State} {msgs : List Twist2DStamped} {r : ReadResult}
    (h : Follows cfg es s msgs) (hpc : s.pc = .read) (hstep : step cfg s (.read r) = some s') :
    Follows cfg (es ++ [.read r]) s' msgs ∨ Returns es s (.read r) s' := by
  have hqueued : s.pc.queued = [] := by rw [hpc]; rfl
  have hpending : s.pc.pending = [] := by rw [hpc]; rfl
  simp only [step, hpc] at hstep
  split at hstep
  · cases r with
    | eof =>
      cases hstep
      exact .inr ⟨rfl, rfl, rfl, .inl ⟨hqueued, hpending⟩⟩
    | failed errno =>
      cases errno with
      | eintr | eagain =>
        cases hstep
        exact .inl (h.quiet rfl hqueued.symm hpending.symm trivial nofun)
      | other =>
        cases hstep
        exact .inr ⟨rfl, rfl, rfl, .inl ⟨hqueued, hpending⟩⟩
    | bytes bs =>
      left
      have hkey : commanded cfg [.read (.bytes bs)] =
          ((velocity cfg (bs.headD 0)).map Velocity.twist).toList := by
        simp only [commanded, List.filterMap_cons, Event.key?, List.filterMap_nil]
        cases velocity cfg (bs.headD 0) <;> rfl
      have hpolls : pollsSinceKey (es ++ [.read (.bytes bs)]) = 0 := by
        rw [pollsSinceKey_concat]
      simp only at hstep
      split at hstep
      · rename_i hvel
        cases hstep
        refine h.move rfl ?_ (congrArg (s.output ++ ·) hpending.symm) List.prefix_rfl hpolls nofun
        rw [hkey, hvel, hqueued]
        rfl
      · rename_i v hvel
        cases hstep
        refine h.move rfl ?_ (congrArg (s.output ++ ·) hpending.symm) List.prefix_rfl hpolls ?_
        · rw [hkey, hvel, hqueued]
          rfl
        · rintro _ ⟨⟩
          exact ⟨bs, rfl, hvel⟩
  · cases hstep

/-- What a step can do: the run still follows its messages, or is over. -/
theorem step_follows {es : List Event} {s s' : State} {msgs : List Twist2DStamped} {e : Event}
    (h : Follows cfg es s msgs) (hstep : step cfg s e = some s') :
    (∃ msgs', Follows cfg (es ++ [e]) s' msgs') ∨ Returns es s e s' := by
  obtain ⟨pc, seq, output⟩ := s
  cases pc with
  | top =>
    cases e with
    | wait readable =>
      cases hstep
      cases readable with
      | true => exact .inl ⟨msgs, h.quiet rfl rfl rfl trivial nofun⟩
      | false => exact .inl ⟨msgs, h.quiet rfl rfl rfl trivial nofun⟩
    | poll _ | read _ | now _ | write _ => cases hstep
  | idle | invalid =>
    cases e with
    | poll ready =>
      cases hstep
      cases ready with
      | true => exact .inr ⟨rfl, rfl, rfl, .inl ⟨rfl, rfl⟩⟩
      | false => exact .inl ⟨msgs, h.quiet rfl rfl rfl trivial nofun⟩
    | wait _ | read _ | now _ | write _ => cases hstep
  | read =>
    cases e with
    | read r => exact (h.read rfl hstep).imp_left fun hfol => ⟨msgs, hfol⟩
    | wait _ | poll _ | now _ | write _ => cases hstep
  | valid v =>
    cases e with
    | poll ready =>
      cases hstep
      cases ready with
      | true => exact .inr ⟨rfl, rfl, rfl, .inr (.inl ⟨rfl, v, rfl⟩)⟩
      | false =>
        have hpolls : pollsSinceKey es = 0 := h.polled
        refine .inl ⟨msgs, h.quiet rfl rfl rfl ?_ nofun⟩
        rw [pollsSinceKey_concat, hpolls]
        rfl
    | wait _ | read _ | now _ | write _ => cases hstep
  | now v =>
    cases e with
    | now t =>
      cases hstep
      exact .inl ⟨_, h.send rfl t⟩
    | wait _ | poll _ | read _ | write _ => cases hstep
  | writeSize w payload =>
    cases e with
    | write r =>
      simp only [step] at hstep
      split at hstep
      · obtain rfl := Option.some.inj hstep
        have hmore (w : Writing) :
            (Pc.writeSize w payload).Owes (w.src.drop w.sent ++ payload) :=
          ⟨rfl, rfl, rfl, nofun⟩
        exact (h.writeExact h.polled (hmore w) hmore (sizeWritten_owes · payload)).imp_left
          fun hfol => ⟨msgs, hfol⟩
      · cases hstep
    | wait _ | poll _ | read _ | now _ => cases hstep
  | writePayload w =>
    cases e with
    | write r =>
      simp only [step] at hstep
      split at hstep
      · obtain rfl := Option.some.inj hstep
        have hmore (w : Writing) : (Pc.writePayload w).Owes (w.src.drop w.sent ++ []) :=
          ⟨rfl, (List.append_nil _).symm, rfl, nofun⟩
        have hdone (s : State) : s.next.seq = s.seq ∧ s.next.output = s.output ∧
            s.next.pc.Owes [] :=
          ⟨rfl, rfl, rfl, rfl, trivial, nofun⟩
        exact (h.writeExact h.polled (hmore w) hmore hdone).imp_left fun hfol => ⟨msgs, hfol⟩
      · cases hstep
    | wait _ | poll _ | read _ | now _ => cases hstep
  | returned => cases e <;> cases hstep

-- ---------------------------------------------------------------------------
-- Runs
-- ---------------------------------------------------------------------------

/-- The output is the frames of the twists, of which the last is incomplete only
if `unfinished`. -/
def Framed (twists : List Twist2D) (output : List UInt8) (unfinished : Prop) : Prop :=
  ∃ msgs : List Twist2DStamped, msgs.map (·.twist) = twists ∧ Numbered msgs ∧
    (∀ m ∈ msgs, sizePrefixed.IsFrame (Message.frame m)) ∧
    msgs.dropLast.flatMap Message.frame <+: output ∧ output <+: msgs.flatMap Message.frame ∧
    (output = msgs.flatMap Message.frame ∨ unfinished)

/-- The run ended inside the frame of the last key: a write failed, or the poll
for the key returned true. -/
def CutShort (cfg : Config) (es : List Event) : Prop :=
  (∃ es₀ r, es = es₀ ++ [.write r] ∧ r.Fails) ∨
    ∃ es₀ bs v, es = es₀ ++ [.read (.bytes bs), .poll true] ∧ velocity cfg (bs.headD 0) = some v

theorem Follows.framed {es : List Event} {s : State} {msgs : List Twist2DStamped}
    (h : Follows cfg es s msgs) {unfinished : Prop}
    (hwhole : s.pc.queued = [] ∧ s.pc.pending = [] ∨ unfinished) :
    Framed (commanded cfg es) s.output unfinished := by
  have hprefix : s.output <+: msgs.flatMap Message.frame := ⟨_, h.output⟩
  have htwists := h.twists
  -- a queued key has no message yet: any message of its twist stands for it
  have hqueued : s.pc.queued = [] ∨ ∃ v : Velocity, s.pc.queued = [v.twist] ∧ s.pc.pending = [] := by
    cases s.pc with
    | valid v | now v => exact .inr ⟨v, rfl, rfl⟩
    | top | idle | read | invalid | writeSize | writePayload | returned => exact .inl rfl
  rcases hqueued with hnil | ⟨v, hv, hpending⟩
  · rw [hnil, List.append_nil] at htwists
    refine ⟨msgs, htwists.symm, h.numbered, fun m hm => h.numbered.isFrame hm, h.dropLast, hprefix,
      ?_⟩
    rcases hwhole with ⟨-, hpending⟩ | hunfinished
    · left
      rw [← h.output, hpending, List.append_nil]
    · exact .inr hunfinished
  · have hall : s.output = msgs.flatMap Message.frame := by
      rw [← h.output, hpending, List.append_nil]
    have hnumbered := h.numbered.concat ⟨0⟩ v
    refine ⟨msgs ++ [message (BitVec.ofNat 32 msgs.length) ⟨0⟩ v], ?_, hnumbered,
      fun m hm => hnumbered.isFrame hm, ?_, ?_, ?_⟩
    · rw [htwists, hv]
      exact List.map_append
    · simp only [List.dropLast_concat, hall, List.prefix_rfl]
    · rw [List.flatMap_append, hall]
      exact List.prefix_append ..
    · refine .inr (hwhole.resolve_left fun hwhole => ?_)
      rw [hwhole.1] at hv
      cases hv

/-- Every run follows its messages until it is over. -/
theorem run_follows {es : List Event} {s : State} (hrun : (spin cfg).run es = some s) :
    (∃ msgs, Follows cfg es s msgs) ∨
      (s.pc = .returned ∧ Framed (commanded cfg es) s.output (CutShort cfg es)) := by
  refine (spin cfg).run_invariant (I := fun es s => (∃ msgs, Follows cfg es s msgs) ∨
    (s.pc = .returned ∧ Framed (commanded cfg es) s.output (CutShort cfg es))) ?_ ?_ hrun
  · exact .inl ⟨[], follows_init⟩
  · rintro es s e s' - (⟨msgs, hfol⟩ | ⟨hret, -⟩) hstep
    · rcases step_follows hfol hstep with hfol' | hreturns
      · exact .inl hfol'
      · right
        refine ⟨hreturns.pc, ?_⟩
        rw [commanded_concat, commanded_of_key?_none hreturns.key, List.append_nil, hreturns.output]
        apply hfol.framed
        rcases hreturns.why with hwhole | ⟨rfl, v, hpc⟩ | ⟨r, rfl, hfails⟩
        · exact .inl hwhole
        · obtain ⟨es₀, bs, rfl, hvel⟩ := hfol.key v hpc
          exact .inr (.inr ⟨es₀, bs, v, by simp, hvel⟩)
        · exact .inr (.inl ⟨es, r, rfl, hfails⟩)
    · obtain ⟨pc, seq, output⟩ := s
      obtain rfl : pc = .returned := hret
      cases e <;> cases hstep

/-- In every reachable state the output is the frames of the keys consumed. -/
theorem run_framed {es : List Event} {s : State} (hrun : (spin cfg).run es = some s) :
    Framed (commanded cfg es) s.output (s.pc.Producing ∨ CutShort cfg es) := by
  rcases run_follows hrun with ⟨msgs, hfol⟩ | ⟨-, msgs, htwists, hnum, hframe, hlast, hout, hcut⟩
  · apply hfol.framed
    cases hpc : s.pc with
    | valid _ | now _ | writeSize _ _ | writePayload _ => exact .inr (.inl trivial)
    | top | idle | read | invalid | returned => exact .inl ⟨rfl, rfl⟩
  · exact ⟨msgs, htwists, hnum, hframe, hlast, hout, hcut.imp_right .inr⟩

theorem step_returned {s : State} (h : s.pc = .returned) (e : Event) : step cfg s e = none := by
  obtain ⟨pc, seq, output⟩ := s
  obtain rfl : pc = .returned := h
  cases e <;> rfl

/-- What follows the byte that was consumed is a notification poll. -/
theorem run_poll_after_key {es₁ es₂ : List Event} {bs : List UInt8} {e : Event} {s : State}
    (hrun : (spin cfg).run (es₁ ++ .read (.bytes bs) :: e :: es₂) = some s) :
    ∃ ready, e = .poll ready := by
  obtain ⟨⟨pc, seq, output⟩, s₂, -, hstep, hrest⟩ := (spin cfg).run_middle.mp hrun
  obtain ⟨s₃, hstep', -⟩ := Option.bind_eq_some_iff.mp hrest
  cases pc with
  | read =>
    simp only [spin, step] at hstep
    split at hstep
    · split at hstep <;> cases hstep <;> cases e with
      | poll ready => exact ⟨ready, rfl⟩
      | wait _ | read _ | now _ | write _ => cases hstep'
    · cases hstep
  | top | idle | invalid | valid _ | now _ | writeSize _ _ | writePayload _ | returned => cases hstep

/-- A write comes after exactly one poll since the last byte consumed. -/
theorem run_polls_before_write {es₁ es₂ : List Event} {r : WriteResult} {s : State}
    (hrun : (spin cfg).run (es₁ ++ .write r :: es₂) = some s) : pollsSinceKey es₁ = 1 := by
  obtain ⟨⟨pc, seq, output⟩, s₂, hs₁, hstep, -⟩ := (spin cfg).run_middle.mp hrun
  have hpolled : pc.Polled (pollsSinceKey es₁) := by
    rcases run_follows hs₁ with ⟨msgs, hfol⟩ | ⟨hret, -⟩
    · exact hfol.polled
    · cases (step_returned hret _).symm.trans hstep
  cases pc with
  | writeSize | writePayload => exact hpolled
  | top | idle | read | invalid | valid _ | now _ | returned => cases hstep

/-- After a notification nothing is written, and the loop has returned. -/
theorem run_of_poll {es₁ es₂ : List Event} {s : State}
    (hrun : (spin cfg).run (es₁ ++ .poll true :: es₂) = some s) :
    es₂ = [] ∧ ∃ s₁, (spin cfg).run es₁ = some s₁ ∧ s = { s₁ with pc := .returned } := by
  obtain ⟨s₁, s₂, hs₁, hstep, hrest⟩ := (spin cfg).run_middle.mp hrun
  have hret : s₂ = { s₁ with pc := .returned } := by
    obtain ⟨pc, seq, output⟩ := s₁
    cases pc with
    | idle | invalid | valid _ => exact (Option.some.inj hstep).symm
    | top | read | now _ | writeSize _ _ | writePayload _ | returned => cases hstep
  obtain ⟨rfl, rfl⟩ := (spin cfg).runFrom_of_stuck (step_returned (by rw [hret])) hrest
  exact ⟨rfl, s₁, hs₁, hret⟩

/-- The output law. In every reachable state the output is the frames of the
valid keys consumed, in order, each with its number, the frame id, the twist of
its key and its own length as prefix. The last frame is incomplete only while it
is being produced, or because a write of it failed, or because the poll for its
key returned true. A consumed byte is followed by exactly one poll before any
write, and a poll that returns true is the last thing that happens. -/
theorem spin_output (cfg : Config) {es : List Event} {s : State}
    (hrun : (spin cfg).run es = some s) :
    (∀ key, (velocity cfg key).isSome ↔ key ∈ validKeys) ∧
    Framed (commanded cfg es) s.output (s.pc.Producing ∨ CutShort cfg es) ∧
    (∀ es₁ bs e es₂, es = es₁ ++ .read (.bytes bs) :: e :: es₂ → ∃ ready, e = .poll ready) ∧
    (∀ es₁ r es₂, es = es₁ ++ .write r :: es₂ → pollsSinceKey es₁ = 1) ∧
    (∀ es₁ es₂, es = es₁ ++ .poll true :: es₂ →
      es₂ = [] ∧ ∃ s₁, (spin cfg).run es₁ = some s₁ ∧ s = { s₁ with pc := .returned }) := by
  refine ⟨velocity_isSome_iff cfg, run_framed hrun, ?_, ?_, ?_⟩
  · rintro es₁ bs e es₂ rfl
    exact run_poll_after_key hrun
  · rintro es₁ r es₂ rfl
    exact run_polls_before_write hrun
  · rintro es₁ es₂ rfl
    exact run_of_poll hrun

/-- A lower case and an invalid key, with short and interrupted writes. -/
theorem spin_output_example :
    Framed [⟨0x3e800000, 0, 0⟩] (Message.frame (message 0 ⟨1500000000⟩ ⟨0x3fd0000000000000, 0, 0⟩))
      (Pc.idle.Producing ∨ CutShort ⟨0x3fd0000000000000, 0x3ff921fac0000000⟩
        [.wait true, .read (.bytes [0x77]), .poll false, .now ⟨1500000000⟩, .write (.wrote 3),
          .write (.failed .eintr), .write (.wrote 1), .write (.wrote 32), .wait true,
          .read (.bytes [0x78]), .poll false, .wait false]) := by
  have hrun : (spin ⟨0x3fd0000000000000, 0x3ff921fac0000000⟩).run
      [.wait true, .read (.bytes [0x77]), .poll false, .now ⟨1500000000⟩, .write (.wrote 3),
        .write (.failed .eintr), .write (.wrote 1), .write (.wrote 32), .wait true,
        .read (.bytes [0x78]), .poll false, .wait false] =
      some ⟨.idle, 1, Message.frame (message 0 ⟨1500000000⟩ ⟨0x3fd0000000000000, 0, 0⟩)⟩ := by
    decide +kernel
  exact (spin_output _ hrun).2.1

/-- The poll that a valid key is followed by returns true: no byte of its frame
is written, though none of its writes failed or is in progress. -/
theorem spin_output_stopped :
    (spin ⟨0, 0⟩).run [.wait true, .read (.bytes [0x77]), .poll true] = some ⟨.returned, 0, []⟩ ∧
    ¬ Framed (commanded ⟨0, 0⟩ [.wait true, .read (.bytes [0x77]), .poll true]) []
      (Pc.returned.Producing ∨ ∃ es₀ r,
        [.wait true, .read (.bytes [0x77]), .poll true] = es₀ ++ [Event.write r] ∧ r.Fails) := by
  refine ⟨by decide, ?_⟩
  rintro ⟨msgs, htwists, -, -, -, -, hwhole | hproducing | ⟨es₀, r, heq, -⟩⟩
  · obtain ⟨m, rfl⟩ : ∃ m, msgs = [m] := by
      apply List.length_eq_one_iff.mp
      rw [← List.length_map (·.twist), htwists]
      rfl
    have hlen := congrArg List.length hwhole
    rw [List.flatMap_singleton, Message.length_frame, List.length_nil] at hlen
    omega
  · exact hproducing
  · have hlast := congrArg List.getLast? heq
    simp at hlast

end TeleopKeyboard
