-- SUMMARY: The keyboard and the driver agree: the commands driven are the commands sent, up to where the stream is cut.
import MBotTeleop.Driver.Refinement
import MBotTeleop.Teleop.Output

/-!
# From keys to drive calls

The output of the keyboard becomes the input of the driver, cut at any position
and delivered in any pieces.
-/

namespace MBotTeleop

open Rix.Ipc Rix.Msg
open Rix.Msg.Geometry (Twist2D Twist2DStamped)

/-- The frames of the keyboard are commands to the driver. -/
theorem command_frame {msgs : List Twist2DStamped} (h : TeleopKeyboard.Numbered msgs)
    {m : Twist2DStamped} (hm : m ∈ msgs) : MBotDriver.command (Message.frame m) = some m := by
  have hid := h.frameId_eq hm
  refine Message.decode_body_frame ((Twist2DStamped.bounded_iff m).mpr ?_) {} ?_
  · rw [hid]
    decide
  · rw [Twist2DStamped.length_encode, hid]
    decide

theorem filterMap_command_frame {msgs : List Twist2DStamped} (h : TeleopKeyboard.Numbered msgs)
    (n : Nat) : ((msgs.map Message.frame).take n).filterMap MBotDriver.command = msgs.take n := by
  rw [← List.map_take, List.filterMap_map]
  calc (msgs.take n).filterMap (MBotDriver.command ∘ Message.frame)
      = (msgs.take n).filterMap some := by
        apply List.filterMap_congr
        intro m hm
        rw [Function.comp_apply]
        exact command_frame h (List.mem_of_mem_take hm)
    _ = msgs.take n := List.filterMap_some

/-- A driver that was delivered the start of the output of a keyboard. -/
theorem driven_of_output {twists : List Twist2D} {output : List UInt8} {unfinished : Prop}
    (hframed : TeleopKeyboard.Framed twists output unfinished) {driver : List MBotDriver.Event}
    {d : MBotDriver.State} (hdriver : MBotDriver.spin.run driver = some d)
    (hcut : MBotDriver.delivered driver <+: output) :
    ∃ (msgs : List Twist2DStamped) (n : Nat), msgs.map (·.twist) = twists ∧
      TeleopKeyboard.Numbered msgs ∧ msgs.dropLast.flatMap Message.frame <+: output ∧
      output <+: msgs.flatMap Message.frame ∧ (output = msgs.flatMap Message.frame ∨ unfinished) ∧
      (∀ i, i < n ↔ i < msgs.length ∧
        ((msgs.take (i + 1)).flatMap Message.frame).length ≤ (MBotDriver.delivered driver).length) ∧
      d.drives = msgs.take n ++ (if d.pc = .returned then [MBotDriver.stop] else []) := by
  obtain ⟨msgs, htwists, hnumbered, hframe, hdropLast, hprefix, hwhole⟩ := hframed
  obtain ⟨frames, rest, hsplits, -, hdrives⟩ := MBotDriver.run_follows hdriver
  have hframes : ∀ f ∈ msgs.map Message.frame, sizePrefixed.IsFrame f := by
    intro f hf
    obtain ⟨m, hm, rfl⟩ := List.mem_map.mp hf
    exact hframe m hm
  -- both programs cut the same stream, so they cut it into the same frames
  obtain ⟨rest', hsplits'⟩ := Framing.splits_take hframes (MBotDriver.delivered driver).length
  rw [← List.flatMap_def, ← List.prefix_iff_eq_take.mp (hcut.trans hprefix)] at hsplits'
  have heq : frames = (msgs.map Message.frame).take (Framing.completeBefore (msgs.map Message.frame)
      (MBotDriver.delivered driver).length) :=
    congrArg Prod.fst (hsplits.split_eq.symm.trans hsplits'.split_eq)
  rw [heq, filterMap_command_frame hnumbered] at hdrives
  refine ⟨msgs, _, htwists, hnumbered, hdropLast, hprefix, hwhole, fun i => ?_, hdrives⟩
  rw [Framing.lt_completeBefore_iff, List.length_map, ← List.map_take, List.flatMap_def]

/-- The driver drives the commands of the valid keys whose frames lie completely
before the cut, in order, and then stops. Here `msgs` are the messages of the
valid keys, of which all are written but for the end of the last one where it is
still being produced or was cut short, and `n` of them lie before the cut. -/
theorem drives_eq_keys (cfg : TeleopKeyboard.Config)
    {keyboard : List TeleopKeyboard.Event} {t : TeleopKeyboard.State}
    (hkeyboard : (TeleopKeyboard.spin cfg).run keyboard = some t)
    {driver : List MBotDriver.Event} {d : MBotDriver.State}
    (hdriver : MBotDriver.spin.run (driver ++ [.read .eof]) = some d)
    (cut : Nat) (hcut : MBotDriver.delivered driver = t.output.take cut) :
    ∃ (msgs : List Twist2DStamped) (n : Nat),
      msgs.map (·.twist) = TeleopKeyboard.commanded cfg keyboard ∧
      TeleopKeyboard.Numbered msgs ∧
      msgs.dropLast.flatMap Message.frame <+: t.output ∧
      t.output <+: msgs.flatMap Message.frame ∧
      (t.output = msgs.flatMap Message.frame ∨
        t.pc.Producing ∨ TeleopKeyboard.CutShort cfg keyboard) ∧
      (∀ i, i < n ↔ i < msgs.length ∧
        ((msgs.take (i + 1)).flatMap Message.frame).length ≤ (t.output.take cut).length) ∧
      d.pc = .returned ∧ d.drives = msgs.take n ++ [MBotDriver.stop] ∧
      d.drives.map (·.twist) = (TeleopKeyboard.commanded cfg keyboard).take n ++ [⟨0, 0, 0⟩] := by
  have hdelivered : MBotDriver.delivered (driver ++ [.read .eof]) = t.output.take cut := by
    rw [MBotDriver.delivered_concat, hcut]
    exact List.append_nil _
  have hreturned := MBotDriver.run_of_eof hdriver
  obtain ⟨msgs, n, htwists, hnumbered, hdropLast, hprefix, hwhole, hn, hdrives⟩ :=
    driven_of_output (TeleopKeyboard.run_framed hkeyboard) hdriver
      (hdelivered ▸ List.take_prefix cut t.output)
  rw [hdelivered] at hn
  rw [if_pos hreturned] at hdrives
  refine ⟨msgs, n, htwists, hnumbered, hdropLast, hprefix, hwhole, hn, hreturned, hdrives, ?_⟩
  rw [hdrives, ← htwists, List.map_append, List.map_take]
  rfl

/-- Two keys, and a cut inside the size prefix of the second frame. -/
theorem drives_eq_keys_example :
    ∃ n, [⟨0x3e800000, 0, 0⟩, ⟨0, 0, 0⟩] =
      List.take n [⟨0x3e800000, 0, 0⟩, ⟨0xbe800000, 0, 0⟩] ++ [(⟨0, 0, 0⟩ : Twist2D)] := by
  have hkeyboard : (TeleopKeyboard.spin ⟨0x3fd0000000000000, 0⟩).run
      [.wait true, .read (.bytes [0x77]), .poll false, .now ⟨0⟩, .write (.wrote 4),
        .write (.wrote 32), .wait true, .read (.bytes [0x53]), .poll false, .now ⟨0⟩,
        .write (.wrote 4), .write (.wrote 5)] =
      some ⟨.writePayload ⟨Message.encode (TeleopKeyboard.message 1 ⟨0⟩ ⟨0xbfd0000000000000, 0, 0⟩),
          5, by decide⟩, 2,
        Message.frame (TeleopKeyboard.message 0 ⟨0⟩ ⟨0x3fd0000000000000, 0, 0⟩) ++
          [32, 0, 0, 0, 1, 0, 0, 0, 0]⟩ := by
    decide +kernel
  have hdriver : MBotDriver.spin.run
      ([.poll false, .read (.bytes [32, 0]), .read (.bytes [0, 0]), .read (.failed .eagain),
        .poll false, .wait true,
        .read (.bytes (Message.encode
          (TeleopKeyboard.message 0 ⟨0⟩ ⟨0x3fd0000000000000, 0, 0⟩))),
        .poll false, .read (.bytes [32, 0])] ++ [.read .eof]) =
      some ⟨.returned, [TeleopKeyboard.message 0 ⟨0⟩ ⟨0x3fd0000000000000, 0, 0⟩,
        MBotDriver.stop]⟩ := by
    decide +kernel
  obtain ⟨msgs, n, -, -, -, -, -, -, -, -, hdrives⟩ :=
    drives_eq_keys ⟨0x3fd0000000000000, 0⟩ hkeyboard hdriver 38 (by decide +kernel)
  exact ⟨n, hdrives⟩

end MBotTeleop
