-- SUMMARY: main of teleop_keyboard: which command lines it accepts, and the speeds that it makes of them.
import MBotTeleop.Teleop.Spin
import MBotTeleop.Util.Session

/-!
# `main` of `teleop_keyboard`

The program has two options, `-l` and `-a`, and nothing else. What it does with
its arguments comes before it touches the FIFO, the output or the signal.
-/

namespace TeleopKeyboard

open Rix.Util
open Options (Splits Occurrence)

-- ---------------------------------------------------------------------------
-- main
-- ---------------------------------------------------------------------------

/-- The calls of `parser.add`; the defaults are 0.25 and 1.570796. -/
def mainArgs : List AddCall := [
  .short (.ofString "linear_speed") (.ofString "Linear speed to drive the MBot (m/s)")
    'l'.toUInt8 (.double 0x3fd0000000000000),
  .short (.ofString "angular_speed") (.ofString "Angular speed to drive the MBot (rad/s)")
    'a'.toUInt8 (.double 0x3ff921fafc8b007a)]

/-- The parser, unless a call of `add` throws. -/
def mainParser : Option ArgumentParser :=
  (ArgumentParser.built (.ofString "teleop_keyboard") (.ofString
    "Sends drive commands to stdout corresponding to characters written to FIFO.")).run mainArgs

inductive Outcome where
  /-- Nobody catches what a call of `add` throws. -/
  | terminated
  /-- `main` has returned, and has written `err` to `std::cerr`. -/
  | exited (status : Nat) (err : CString)
  /-- `spin` is called on a `TeleopKeyboard` with these speeds. -/
  | spins (cfg : Config)

/-- `main` up to the call of `spin`; `order` is that in which `args_` is walked. -/
def main (stof : Stof) (order : List CString) (argv : List CString) : Except Fault Outcome :=
  match mainParser with
  | none => .ok .terminated
  | some parser => do
    let r ← parser.parse stof argv
    let parser := r.value
    if r.ok = false then
      let help ← parser.help order
      return .exited 1 (help ++ .ofString "\n")
    else
      match parser.get .double (.ofString "linear_speed") with
      | none => return .exited 1 (.ofString "Failed to get linear_speed argument.\n")
      | some linearSpeed =>
        match parser.get .double (.ofString "angular_speed") with
        | none => return .exited 1 (.ofString "Failed to get angular_speed argument.\n")
        | some angularSpeed => return .spins ⟨linearSpeed, angularSpeed⟩

-- ---------------------------------------------------------------------------
-- What a command line sets
-- ---------------------------------------------------------------------------

/-- The two options. -/
inductive Speed where
  | linear
  | angular
  deriving DecidableEq, Repr

namespace Speed

def name : Speed → CString
  | linear => .ofString "linear_speed"
  | angular => .ofString "angular_speed"

def letter : Speed → UInt8
  | linear => 'l'.toUInt8
  | angular => 'a'.toUInt8

/-- The value without the option. -/
def default : Speed → BitVec 64
  | linear => 0x3fd0000000000000
  | angular => 0x3ff921fafc8b007a

end Speed

/-- An option with its value, under its long or its short name. -/
structure Setting where
  speed : Speed
  long : Bool
  value : CString

namespace Setting

def token (s : Setting) : CString :=
  if s.long then ArgumentParser.longOption s.speed.name else ArgumentParser.shortOption s.speed.letter

def tokens (s : Setting) : List CString := [s.token, s.value]

end Setting

/-- What the last of the settings of a speed makes of it. -/
def speedOf (stof : Stof) (settings : List Setting) (speed : Speed) : BitVec 64 :=
  ((settings.filter (·.speed = speed)).getLast?.bind fun s => detail.convert stof s.value).getD
    speed.default

/-- The arguments are these settings, and each value is a number. -/
structure Sets (stof : Stof) (argv : List CString) (settings : List Setting) : Prop where
  tokens : argv.drop 1 = settings.flatMap Setting.tokens
  converts : ∀ s ∈ settings, (detail.convert stof s.value).isSome = true

-- ---------------------------------------------------------------------------
-- The parser of main
-- ---------------------------------------------------------------------------

/-- The parser that the calls of `add` make. -/
structure OfMain (p : ArgumentParser) : Prop where
  built : mainParser = some p
  requiredArgNames : p.requiredArgNames = []
  short : ∀ c n, p.shortToLong c = some n ↔ ∃ speed : Speed, c = speed.letter ∧ n = speed.name
  args : ∀ speed : Speed, ∃ arg, p.args speed.name = some arg ∧ arg.value = .double speed.default
  names : ∀ n, (p.args n).isSome = true → ∃ speed : Speed, n = speed.name

theorem name_injective {speed speed' : Speed} (h : speed.name = speed'.name) : speed = speed' := by
  cases speed <;> cases speed' <;> first | rfl | cases h

theorem letter_injective {speed speed' : Speed} (h : speed.letter = speed'.letter) :
    speed = speed' := by
  cases speed <;> cases speed' <;> first | rfl | cases h

theorem update_speeds {α β : Type} [DecidableEq α] {f : Speed → α}
    (hf : ∀ {s s'}, f s = f s' → s = s') (g : Speed → β) {a : α} {b : β} :
    Function.update (Function.update (fun _ => none) (f .linear) (some (g .linear))) (f .angular)
      (some (g .angular)) a = some b ↔ ∃ speed, a = f speed ∧ b = g speed := by
  constructor
  · intro h
    by_cases hangular : a = f .angular
    · rw [hangular, Function.update_self] at h
      exact ⟨.angular, hangular, (Option.some.inj h).symm⟩
    · rw [Function.update_of_ne hangular] at h
      by_cases hlinear : a = f .linear
      · rw [hlinear, Function.update_self] at h
        exact ⟨.linear, hlinear, (Option.some.inj h).symm⟩
      · rw [Function.update_of_ne hlinear] at h
        cases h
  · rintro ⟨speed, rfl, rfl⟩
    cases speed with
    | linear =>
      have hne : f .linear ≠ f .angular := fun h => by cases hf h
      rw [Function.update_of_ne hne, Function.update_self]
    | angular => exact Function.update_self ..

theorem exists_ofMain : ∃ p, OfMain p := by
  obtain ⟨p, arg, hbuilt, hrequired, hshort, hargs, hvalues⟩ : ∃ (p : ArgumentParser)
      (arg : Speed → Arg), mainParser = some p ∧ p.requiredArgNames = [] ∧
      p.shortToLong = Function.update (Function.update (fun _ => none) Speed.linear.letter
        (some Speed.linear.name)) Speed.angular.letter (some Speed.angular.name) ∧
      p.args = Function.update (Function.update (fun _ => none) Speed.linear.name
        (some (arg .linear))) Speed.angular.name (some (arg .angular)) ∧
      ∀ speed, (arg speed).value = .double speed.default := by
    refine ⟨_, fun speed => {
      name := speed.name
      description := match speed with
        | .linear => .ofString "Linear speed to drive the MBot (m/s)"
        | .angular => .ofString "Angular speed to drive the MBot (rad/s)"
      value := .double speed.default
      required := false
      shortName := speed.letter }, rfl, rfl, rfl, rfl, fun _ => rfl⟩
  refine ⟨p, hbuilt, hrequired, fun c n => ?_, fun speed => ⟨arg speed, ?_, hvalues speed⟩,
    fun n hsome => ?_⟩
  · rw [hshort]
    exact update_speeds letter_injective Speed.name
  · rw [hargs]
    exact (update_speeds name_injective arg).mpr ⟨speed, rfl, rfl⟩
  · obtain ⟨arg', harg'⟩ := Option.isSome_iff_exists.mp hsome
    rw [hargs] at harg'
    obtain ⟨speed, hname, -⟩ := (update_speeds name_injective arg).mp harg'
    exact ⟨speed, hname⟩

-- ---------------------------------------------------------------------------
-- How it reads a command line
-- ---------------------------------------------------------------------------

/-- A setting as the parser reads it. -/
def Setting.occurrence (s : Setting) : Occurrence CString CString :=
  ⟨s.token, s.speed.name, [s.value]⟩

/-- A token names an option by its letter, or by its name. -/
theorem optionName_cases {shortToLong : UInt8 → Option CString} {token n : CString}
    (h : ArgumentParser.optionName shortToLong token = some n) :
    (∃ c, token = ArgumentParser.shortOption c ∧ shortToLong c = some n) ∨
      token = ArgumentParser.longOption n := by
  unfold ArgumentParser.optionName at h
  split at h
  · cases h
  · split at h
    · rename_i hlength
      obtain ⟨d, c, rfl⟩ := List.length_eq_two.mp hlength
      split at h
      · rename_i hdash
        cases hdash
        exact .inl ⟨c, rfl, h⟩
      · cases h
    · split at h
      · rename_i hdashes
        cases h
        right
        rw [← List.take_append_drop 2 token, hdashes, List.drop_left' (by rfl)]
        rfl
      · cases h

variable {p : ArgumentParser} {stof : Stof} {argv : List CString}

theorem two_le_name (speed : Speed) : 2 ≤ speed.name.length := by cases speed <;> decide

namespace OfMain

theorem optionName_iff (h : OfMain p) {token : CString} {speed : Speed} :
    ArgumentParser.optionName p.shortToLong token = some speed.name ↔
      token = ArgumentParser.shortOption speed.letter ∨
        token = ArgumentParser.longOption speed.name := by
  constructor
  · intro hname
    rcases optionName_cases hname with ⟨c, rfl, hc⟩ | hlong
    · obtain ⟨speed', rfl, hspeed⟩ := (h.short c _).mp hc
      exact .inl (by rw [name_injective hspeed])
    · exact .inr hlong
  · rintro (rfl | rfl)
    · rw [ArgumentParser.optionName_short]
      exact (h.short _ _).mpr ⟨speed, rfl, rfl⟩
    · exact ArgumentParser.optionName_long (two_le_name speed)

theorem arity (h : OfMain p) (speed : Speed) : p.grammar.arity speed.name = some .single := by
  obtain ⟨arg, harg, hvalue⟩ := h.args speed
  refine (grammar_arity harg).trans ?_
  rw [hvalue]
  rfl

/-- The occurrences of options are settings. -/
theorem formed_iff (h : OfMain p) {o : Occurrence CString CString} :
    o.Formed p.grammar ↔ ∃ s : Setting, s.occurrence = o := by
  constructor
  · rintro ⟨hkey, a, harity, hfits⟩
    obtain ⟨token, key, values⟩ := o
    have hsome : (p.args key).isSome = true := by
      obtain ⟨arg, harg, -⟩ := Option.map_eq_some_iff.mp harity
      rw [harg]
      rfl
    obtain ⟨speed, rfl⟩ := h.names key hsome
    obtain rfl := Option.some.inj (harity.symm.trans (h.arity speed))
    obtain ⟨value, rfl⟩ : ∃ value, values = [value] := hfits
    rcases h.optionName_iff.mp hkey with rfl | rfl
    · exact ⟨⟨speed, false, value⟩, rfl⟩
    · exact ⟨⟨speed, true, value⟩, rfl⟩
  · rintro ⟨⟨speed, long, value⟩, rfl⟩
    refine ⟨h.optionName_iff.mpr ?_, .single, h.arity speed, value, rfl⟩
    cases long with
    | false => exact .inl rfl
    | true => exact .inr rfl

theorem exists_settings (h : OfMain p) {os : List (Occurrence CString CString)}
    (hos : ∀ o ∈ os, o.Formed p.grammar) : ∃ settings : List Setting, os = settings.map Setting.occurrence := by
  induction os with
  | nil => exact ⟨[], rfl⟩
  | cons o os ih =>
    rw [List.forall_mem_cons] at hos
    obtain ⟨s, rfl⟩ := h.formed_iff.mp hos.1
    obtain ⟨settings, rfl⟩ := ih hos.2
    exact ⟨s :: settings, rfl⟩

/-- A command line is read as the settings that it consists of. -/
theorem reads_iff (h : OfMain p) {as : List (CString × List CString)}
    {os : List (Occurrence CString CString)} : p.Reads argv as os ↔
      as = [] ∧ ∃ settings : List Setting, os = settings.map Setting.occurrence ∧
        argv.drop 1 = settings.flatMap Setting.tokens := by
  have htokens (settings : List Setting) :
      (settings.map Setting.occurrence).flatMap Occurrence.tokens =
        settings.flatMap Setting.tokens := List.flatMap_map ..
  constructor
  · intro hreads
    obtain ⟨rest, hpos, hsplits⟩ := hreads.cut
    rw [h.requiredArgNames] at hpos
    obtain ⟨rfl, rfl⟩ := Prod.mk.inj (Option.some.inj hpos)
    obtain ⟨hdrop, hformed, -⟩ := (Options.splits_iff p.grammar_sound).mp hsplits
    obtain ⟨settings, rfl⟩ := h.exists_settings hformed
    exact ⟨rfl, settings, rfl, hdrop.trans (htokens settings)⟩
  · rintro ⟨rfl, settings, rfl, hdrop⟩
    refine ⟨by rw [h.requiredArgNames]; exact Nat.zero_le _, argv.drop 1, ?_, ?_⟩
    · rw [h.requiredArgNames]
      rfl
    · refine (Options.splits_iff p.grammar_sound).mpr ⟨hdrop.trans (htokens settings).symm, ?_, ?_⟩
      · intro o ho
        obtain ⟨s, -, rfl⟩ := List.mem_map.mp ho
        exact h.formed_iff.mpr ⟨s, rfl⟩
      · rintro ⟨o, ho, hrun, -⟩
        obtain ⟨s, -, rfl⟩ := List.mem_map.mp (List.mem_of_getLast? ho)
        cases hrun.symm.trans (h.arity s.speed)

theorem converts_iff (h : OfMain p) (s : Setting) :
    p.Converts stof s.occurrence.assignment ↔ (detail.convert stof s.value).isSome = true := by
  obtain ⟨arg, harg, hvalue⟩ := h.args s.speed
  have hassign : (arg.value.assign stof [s.value]).isSome =
      (detail.convert stof s.value).isSome := by
    rw [hvalue]
    exact Option.isSome_map
  constructor
  · rintro ⟨arg', harg', hsome⟩
    obtain rfl := Option.some.inj (harg.symm.trans harg')
    rwa [← hassign]
  · intro hsome
    exact ⟨arg, harg, hassign.trans hsome⟩

theorem declared (h : OfMain p) : p.Declared := by
  intro n hmem
  rw [h.requiredArgNames] at hmem
  cases hmem

theorem parse_ok_iff (h : OfMain p) (hargc : 1 ≤ argv.length) {r : Parsed ArgumentParser}
    (hr : p.parse stof argv = .ok r) : r.ok = true ↔ ∃ settings, Sets stof argv settings := by
  rw [ArgumentParser.parse_ok_iff h.declared hargc hr]
  constructor
  · rintro ⟨as, os, hreads, hconverts⟩
    obtain ⟨rfl, settings, rfl, hdrop⟩ := h.reads_iff.mp hreads
    refine ⟨settings, hdrop, fun s hs => ?_⟩
    exact (h.converts_iff s).mp (hconverts _ (List.mem_map_of_mem (List.mem_map_of_mem hs)))
  · rintro ⟨settings, hdrop, hconverts⟩
    refine ⟨[], settings.map Setting.occurrence, h.reads_iff.mpr ⟨rfl, settings, rfl, hdrop⟩, ?_⟩
    rw [List.nil_append, List.map_map]
    intro a ha
    obtain ⟨s, hs, rfl⟩ := List.mem_map.mp ha
    exact (h.converts_iff s).mpr (hconverts s hs)

/-- The occurrences of an option are the settings of its speed. -/
theorem valuesOf_settings (settings : List Setting) (speed : Speed) :
    Options.valuesOf speed.name ((settings.map Setting.occurrence).map Occurrence.assignment) =
      (settings.filter (·.speed = speed)).map fun s => [s.value] := by
  induction settings with
  | nil => rfl
  | cons s settings ih =>
    by_cases hspeed : s.speed = speed
    · have hfilter : (s :: settings).filter (·.speed = speed) =
          s :: settings.filter (·.speed = speed) := List.filter_cons_of_pos (decide_eq_true hspeed)
      subst hspeed
      rw [hfilter]
      exact (Options.valuesOf_cons_self ..).trans (congrArg ([s.value] :: ·) ih)
    · have hfilter : (s :: settings).filter (·.speed = speed) =
          settings.filter (·.speed = speed) :=
        List.filter_cons_of_neg (by rw [decide_eq_false hspeed]; exact Bool.false_ne_true)
      rw [hfilter, ← ih]
      exact List.filterMap_cons_none (if_neg fun heq => hspeed (name_injective heq))

theorem get_of_ok (h : OfMain p) (hargc : 1 ≤ argv.length) {r : Parsed ArgumentParser}
    (hr : p.parse stof argv = .ok r) {settings : List Setting} (hsets : Sets stof argv settings)
    (speed : Speed) : r.value.get .double speed.name = some (speedOf stof settings speed) := by
  have hok := (h.parse_ok_iff hargc hr).mpr ⟨settings, hsets⟩
  obtain ⟨as, os, args, hreads, hleaves, hvalue⟩ :=
    ArgumentParser.reads_of_ok h.declared hargc hr hok
  have hreads' := h.reads_iff.mpr ⟨rfl, settings, rfl, hsets.tokens⟩
  obtain ⟨rfl, rfl⟩ := hreads'.unique hreads
  obtain ⟨arg, harg, hdefault⟩ := h.args speed
  obtain ⟨value, hafter, hargs⟩ := hleaves.value harg
  rw [List.nil_append, valuesOf_settings, hdefault, Value.after_of_ne (by rintro ⟨⟩),
    List.getLast?_map] at hafter
  have hspeed : value = .double (speedOf stof settings speed) := by
    unfold speedOf
    cases hlast : (settings.filter (·.speed = speed)).getLast? with
    | none =>
      rw [hlast] at hafter
      exact (Option.some.inj hafter).symm
    | some s =>
      rw [hlast] at hafter
      obtain ⟨d, hd, rfl⟩ := Option.map_eq_some_iff.mp hafter
      rw [Option.bind_some, hd]
      rfl
  rw [ArgumentParser.get, hvalue]
  change (args speed.name).bind _ = _
  rw [hargs, Option.bind_some, hspeed]
  rfl

/-- Nothing is required, so there is always a text. -/
theorem exists_help (h : OfMain p) (order : List CString) : ∃ text, p.help order = .ok text := by
  rw [ArgumentParser.help, h.requiredArgNames]
  exact ⟨_, rfl⟩

end OfMain

-- ---------------------------------------------------------------------------
-- Command lines
-- ---------------------------------------------------------------------------

theorem main_of_sets (stof : Stof) (order : List CString) (hargc : 1 ≤ argv.length)
    {settings : List Setting} (hsets : Sets stof argv settings) : main stof order argv =
      .ok (.spins ⟨speedOf stof settings .linear, speedOf stof settings .angular⟩) := by
  obtain ⟨p, h⟩ := exists_ofMain
  obtain ⟨r, hr, -⟩ := ArgumentParser.parse_spec stof h.declared hargc
  have htrue : r.ok ≠ false := by
    rw [(h.parse_ok_iff hargc hr).mpr ⟨settings, hsets⟩]
    exact Bool.true_eq_false.mp
  have hlinear := h.get_of_ok hargc hr hsets .linear
  have hangular := h.get_of_ok hargc hr hsets .angular
  unfold Speed.name at hlinear hangular
  simp only [main, h.built, hr, bind, Except.bind, pure, Except.pure, if_neg htrue, hlinear,
    hangular]

theorem main_of_not_sets (stof : Stof) (order : List CString) (hargc : 1 ≤ argv.length)
    (hnone : ¬ ∃ settings, Sets stof argv settings) : ∃ p text, mainParser = some p ∧
      p.help order = .ok text ∧
      main stof order argv = .ok (.exited 1 (text ++ .ofString "\n")) := by
  obtain ⟨p, h⟩ := exists_ofMain
  obtain ⟨r, hr, -⟩ := ArgumentParser.parse_spec stof h.declared hargc
  have hfalse : r.ok = false :=
    Bool.eq_false_iff.mpr fun htrue => hnone ((h.parse_ok_iff hargc hr).mp htrue)
  obtain ⟨text, htext⟩ := h.exists_help order
  have hhelp := ((ArgumentParser.parse_alike hargc hr).help order).trans htext
  refine ⟨p, text, h.built, htext, ?_⟩
  simp only [main, h.built, hr, bind, Except.bind, pure, Except.pure, if_pos hfalse, hhelp]

/-- Only settings bring `main` to `spin`. -/
theorem sets_of_spins {order : List CString} (hargc : 1 ≤ argv.length) {cfg : Config}
    (hmain : main stof order argv = .ok (.spins cfg)) : ∃ settings, Sets stof argv settings ∧
      cfg = ⟨speedOf stof settings .linear, speedOf stof settings .angular⟩ := by
  by_cases hsets : ∃ settings, Sets stof argv settings
  · obtain ⟨settings, hsets⟩ := hsets
    refine ⟨settings, hsets, ?_⟩
    cases hmain.symm.trans (main_of_sets stof order hargc hsets)
    rfl
  · obtain ⟨p, text, -, -, hexited⟩ := main_of_not_sets stof order hargc hsets
    cases hmain.symm.trans hexited

/-- `main` accepts exactly the command lines of settings whose values are numbers,
and goes on to `spin` with the last of each. On any other it prints the help of
the parser and returns 1, and in no case can it fail to get a speed. -/
theorem main_accepts (stof : Stof) (order : List CString) (hargc : 1 ≤ argv.length) :
    (∀ settings, Sets stof argv settings → main stof order argv =
      .ok (.spins ⟨speedOf stof settings .linear, speedOf stof settings .angular⟩)) ∧
    ((¬ ∃ settings, Sets stof argv settings) → ∃ p text, mainParser = some p ∧
      p.help order = .ok text ∧
      main stof order argv = .ok (.exited 1 (text ++ .ofString "\n"))) :=
  ⟨fun _ hsets => main_of_sets stof order hargc hsets, main_of_not_sets stof order hargc⟩

/-- The last of two linear speeds is driven with, and an option without a value is refused. -/
theorem main_accepts_twice :
    let stof : Stof := fun str =>
      if str = .ofString "1.5" then .ok (0x3ff8000000000000, 3)
      else if str = .ofString "-2" then .ok (0xc000000000000000, 2)
      else .error .invalidArgument
    main stof [] (["prog", "-l", "1.5", "--linear_speed", "-2"].map .ofString) =
        .ok (.spins ⟨0xc000000000000000, Speed.angular.default⟩) ∧
      ∃ err, main stof [] (["prog", "-l"].map .ofString) = .ok (.exited 1 err) := by
  intro stof
  constructor
  · have hsets : Sets stof (["prog", "-l", "1.5", "--linear_speed", "-2"].map .ofString)
        [⟨.linear, false, .ofString "1.5"⟩, ⟨.linear, true, .ofString "-2"⟩] := by
      refine ⟨by decide, ?_⟩
      simp only [List.forall_mem_cons, List.not_mem_nil, false_implies, implies_true, and_true]
      exact ⟨by decide, by decide⟩
    exact (main_accepts stof [] (by decide)).1 _ hsets
  · have hnone : ¬ ∃ settings, Sets stof (["prog", "-l"].map .ofString) settings := by
      rintro ⟨settings, htokens, -⟩
      match settings with
      | [] => cases htokens
      | _ :: _ =>
        have hlength := congrArg List.length htokens
        simp only [List.flatMap_cons, List.length_append, Setting.tokens, List.length_cons] at hlength
        simp only [List.map_cons, List.map_nil, List.drop_succ_cons, List.drop_zero,
          List.length_cons, List.length_nil] at hlength
        omega
    obtain ⟨p, text, -, -, hmain⟩ := (main_accepts stof [] (by decide)).2 hnone
    exact ⟨_, hmain⟩

end TeleopKeyboard
