-- SUMMARY: What an accepted command line means: the last occurrence of an option decides, a flag toggles, and both names of an option do the same.
import MBotTeleop.Util.CommandLine
import Mathlib.Algebra.Ring.Parity
import Mathlib.Data.List.Forall2

/-!
# The meaning of a command line

The calls of `add` say which options there are. What `get` returns after `parse`
is determined by the occurrences of each option in the one reading of the
command line, and by no other option.
-/

namespace Rix.Util

open Options (Splits Occurrence positional assignAll valuesOf replay)

-- ---------------------------------------------------------------------------
-- The arguments that were added
-- ---------------------------------------------------------------------------

namespace AddCall

def name : AddCall → CString
  | required _ name _ | optional name _ _ | short name _ _ _ => name

/-- The short name that a call gives. -/
def letter : AddCall → Option UInt8
  | required .. | optional .. => none
  | short _ _ shortName _ => some shortName

end AddCall

theorem isalnum_ne_zero {c : UInt8} (h : isalnum c = true) : c ≠ 0 := by
  rintro rfl
  exact absurd h (by decide)

theorem Arg.make_ok {name description : CString} {shortName : UInt8} {value : Value}
    {required : Bool} {arg : Arg} (h : Arg.make name description shortName value required = .ok arg) :
    arg = { name, description, value, required, shortName } ∧ 2 ≤ name.length := by
  unfold Arg.make at h
  split at h
  · cases h
  · rename_i hname
    split at h
    · cases h
    · cases h
      exact ⟨rfl, Nat.le_of_not_lt fun hlt => hname (.inl hlt)⟩

theorem AddCall.arg_short {name description : CString} {shortName : UInt8} {value : Value}
    {arg : Arg} (h : (AddCall.short name description shortName value).arg = .ok arg) :
    arg = { name, description, value, required := false, shortName } ∧ 2 ≤ name.length ∧
      shortName ≠ 0 := by
  rw [AddCall.arg] at h
  split at h
  · rename_i halnum
    obtain ⟨rfl, hlength⟩ := Arg.make_ok h
    exact ⟨rfl, hlength, isalnum_ne_zero halnum⟩
  · cases h

theorem AddCall.arg_ok {call : AddCall} {arg : Arg} (h : call.arg = .ok arg) :
    arg.name = call.name ∧ 2 ≤ arg.name.length ∧
      (arg.required = false → arg.shortName ≠ 0 → call.letter = some arg.shortName) := by
  cases call with
  | required T name description =>
    obtain ⟨rfl, hlength⟩ := Arg.make_ok h
    exact ⟨rfl, hlength, nofun⟩
  | optional name description value =>
    obtain ⟨rfl, hlength⟩ := Arg.make_ok h
    exact ⟨rfl, hlength, fun _ hne => absurd rfl hne⟩
  | short name description shortName value =>
    obtain ⟨rfl, hlength, -⟩ := AddCall.arg_short h
    exact ⟨rfl, hlength, fun _ _ => rfl⟩

namespace ArgumentParser

/-- The tables have what the calls of `add` were given. -/
structure Registered (calls : List AddCall) (p : ArgumentParser) : Prop where
  args : ∀ call ∈ calls, ∃ arg, call.arg = .ok arg ∧ p.args arg.name = some arg
  names : ∀ name, (p.args name).isSome → name ∈ calls.map AddCall.name
  short : ∀ name description c value, .short name description c value ∈ calls →
    p.shortToLong c = some name

variable {p : ArgumentParser} {calls : List AddCall} {call : AddCall} {arg : Arg}

theorem addArg_shortToLong (p : ArgumentParser) (arg : Arg) : (p.addArg arg).shortToLong =
    if ¬ arg.required ∧ arg.shortName ≠ 0 then
      Function.update p.shortToLong arg.shortName (some arg.name)
    else p.shortToLong := rfl

theorem addArg_shortToLong_iff {c : UInt8} {n : CString} :
    (p.addArg arg).shortToLong c = some n ↔
      if arg.required = false ∧ arg.shortName ≠ 0 ∧ c = arg.shortName then n = arg.name
      else p.shortToLong c = some n := by
  rw [addArg_shortToLong]
  by_cases h : ¬ arg.required ∧ arg.shortName ≠ 0
  · rw [if_pos h]
    have hrequired := Bool.not_eq_true _ ▸ h.1
    by_cases hc : c = arg.shortName
    · rw [if_pos ⟨hrequired, h.2, hc⟩, hc, Function.update_self, Option.some.injEq, eq_comm]
    · rw [if_neg fun hand => hc hand.2.2, Function.update_of_ne hc]
  · rw [if_neg h, if_neg fun hand => h ⟨by rw [hand.1]; exact Bool.false_ne_true, hand.2.1⟩]

/-- A call with a new name and a new letter adds to what is registered. -/
theorem Registered.addArg (hp : p.Registered calls) (harg : call.arg = .ok arg)
    (hname : call.name ∉ calls.map AddCall.name)
    (hletter : ∀ c ∈ call.letter, c ∉ calls.filterMap AddCall.letter) :
    (p.addArg arg).Registered (calls ++ [call]) := by
  obtain ⟨hargname, -, hargletter⟩ := AddCall.arg_ok harg
  have hargs : (p.addArg arg).args = Function.update p.args arg.name (some arg) := by
    rw [addArg_args, if_neg]
    exact fun hsome => hname (hargname ▸ hp.names arg.name hsome)
  constructor
  · intro call' hcall'
    rcases List.mem_append.mp hcall' with hcall' | hcall'
    · obtain ⟨arg', harg', hsome⟩ := hp.args call' hcall'
      exact ⟨arg', harg', addArg_args_of_some hsome⟩
    · obtain rfl := List.mem_singleton.mp hcall'
      exact ⟨arg, harg, hargs ▸ Function.update_self ..⟩
  · intro name hsome
    rw [List.map_append, List.mem_append]
    by_cases heq : name = arg.name
    · exact .inr (List.mem_singleton.mpr (heq.trans hargname))
    · rw [hargs, Function.update_of_ne heq] at hsome
      exact .inl (hp.names name hsome)
  · intro name description c value hcall'
    rw [addArg_shortToLong_iff]
    rcases List.mem_append.mp hcall' with hcall' | hcall'
    · rw [if_neg, hp.short name description c value hcall']
      rintro ⟨hoptional, hne, rfl⟩
      have hmem : arg.shortName ∈ calls.filterMap AddCall.letter :=
        List.mem_filterMap.mpr ⟨_, hcall', rfl⟩
      exact hletter arg.shortName (hargletter hoptional hne) hmem
    · obtain rfl := List.mem_singleton.mp hcall'
      obtain ⟨rfl, -, hne⟩ := AddCall.arg_short harg
      rw [if_pos ⟨rfl, hne, rfl⟩]

theorem registered_built {name description : CString}
    (h : (built name description).run calls = some p) (hnames : (calls.map AddCall.name).Nodup)
    (hletters : (calls.filterMap AddCall.letter).Nodup) : p.Registered calls := by
  revert hnames hletters
  refine (built name description).run_invariant
    (I := fun calls p => (calls.map AddCall.name).Nodup → (calls.filterMap AddCall.letter).Nodup →
      p.Registered calls) ?_ ?_ h
  · intro _ _
    exact ⟨nofun, nofun, nofun⟩
  · intro calls p call p' _ hp hstep hnames hletters
    obtain ⟨arg, harg, rfl⟩ := built_step.mp hstep
    rw [List.map_append, List.nodup_append] at hnames
    rw [List.filterMap_append, List.nodup_append] at hletters
    apply (hp hnames.1 hletters.1).addArg harg
    · exact fun hmem => hnames.2.2 _ hmem _ List.mem_cons_self rfl
    · intro c hc hmem
      exact hletters.2.2 c hmem c (List.mem_filterMap.mpr ⟨call, List.mem_cons_self, hc⟩) rfl

end ArgumentParser

-- ---------------------------------------------------------------------------
-- Values
-- ---------------------------------------------------------------------------

/-- What is left of a value after occurrences with these tokens: each toggles a
flag, and for any other value the last one decides. -/
def Value.after (stof : Stof) (v : Value) (occurrences : List (List CString)) : Option Value :=
  match v, occurrences.getLast? with
  | bool b, _ => some (bool (if Odd occurrences.length then !b else b))
  | v, none => some v
  | v, some strs => v.index.decode stof strs

section

variable {stof : Stof} {name : CString} {v w : Value} {occurrences : List (List CString)}

theorem Value.after_of_ne (h : v.index ≠ .bool) :
    v.after stof occurrences = match occurrences.getLast? with
      | none => some v
      | some strs => v.index.decode stof strs := by
  cases v with
  | bool b => exact absurd rfl h
  | _ => cases hlast : occurrences.getLast? <;> simp only [Value.after, hlast]

theorem iterate_not (b : Bool) (n : Nat) : not^[n] b = if Odd n then !b else b := by
  split
  · rename_i hodd
    rw [Bool.involutive_not.iterate_odd hodd]
  · rename_i hodd
    rw [Bool.involutive_not.iterate_even (Nat.not_odd_iff_even.mp hodd)]
    rfl

/-- An assignment to a value, whatever its name. -/
def assignValue (stof : Stof) (_ : CString) (v : Value) (strs : List CString) : Option Value :=
  v.assign stof strs

theorem Value.after_of_replay (h : replay (assignValue stof) name v occurrences = some w) :
    v.after stof occurrences = some w := by
  by_cases hflag : v.index = .bool
  · cases v with
    | bool b =>
      have hstep (b : Bool) (strs : List CString) :
          assignValue stof name (bool b) strs = some (bool (not b)) := rfl
      have htoggle := Options.replay_iterate hstep b occurrences
      rw [iterate_not] at htoggle
      exact htoggle.symm.trans h
    | _ => cases hflag
  · have hkeep {u u' : Value} {strs : List CString} (hu : u.index = v.index)
        (hassign : assignValue stof name u strs = some u') : u'.index = v.index :=
      (Value.index_assign hassign).trans hu
    have hforget {u u' : Value} {strs : List CString} (hu : u.index = v.index)
        (hu' : u'.index = v.index) :
        assignValue stof name u strs = assignValue stof name u' strs := by
      rw [assignValue, assignValue, Value.assign_of_ne (hu ▸ hflag),
        Value.assign_of_ne (hu' ▸ hflag), hu, hu']
    rw [Value.after_of_ne hflag]
    rcases Options.replay_last hkeep hforget rfl h with ⟨rfl, rfl⟩ | ⟨strs, hlast, hassign⟩
    · rfl
    · rw [Option.mem_def.mp hlast]
      exact (Value.assign_of_ne hflag).symm.trans hassign

theorem replay_assignArg {arg : Arg} :
    replay (assignArg stof) name (some arg) occurrences =
      (replay (assignValue stof) name arg.value occurrences).map fun value =>
        some { arg with value } := by
  induction occurrences generalizing arg with
  | nil => rfl
  | cons strs occurrences ih =>
    rw [replay, replay, assignArg, Option.bind_some, assignValue]
    cases arg.value.assign stof strs with
    | none => rfl
    | some value => exact ih

end

namespace ArgumentParser

/-- What assignments leave of an argument is decided by its own occurrences. -/
theorem Leaves.value {p : ArgumentParser} {stof : Stof} {as : List (CString × List CString)}
    {os : List (Occurrence CString CString)} {args : CString → Option Arg} {name : CString}
    {arg : Arg} (h : p.Leaves stof as os args) (harg : p.args name = some arg) :
    ∃ value, arg.value.after stof (valuesOf name (as ++ os.map Occurrence.assignment)) = some value ∧
      args name = some { arg with value } := by
  have hreplay := Options.assignAll_eq_some_iff.mp h name
  rw [harg, replay_assignArg] at hreplay
  obtain ⟨value, hvalue, hargs⟩ := Option.map_eq_some_iff.mp hreplay
  exact ⟨value, Value.after_of_replay hvalue, hargs.symm⟩

-- ---------------------------------------------------------------------------
-- The two names of an option
-- ---------------------------------------------------------------------------

/-- `-c` -/
def shortOption (c : UInt8) : CString := ['-'.toUInt8, c]

/-- `--name` -/
def longOption (name : CString) : CString := '-'.toUInt8 :: '-'.toUInt8 :: name

variable {shortToLong : UInt8 → Option CString}

theorem optionName_short (c : UInt8) :
    optionName shortToLong (shortOption c) = shortToLong c := rfl

theorem optionName_long {name : CString} (h : 2 ≤ name.length) :
    optionName shortToLong (longOption name) = some name := by
  have hlength : (longOption name).length = name.length + 2 := rfl
  rw [optionName, if_neg (by omega), if_neg (by omega)]
  rfl

/-- The same occurrence, with the other one of the names that a call of `add`
gave the option, or with the same. -/
structure Respelled (calls : List AddCall) (o o' : Occurrence CString CString) : Prop where
  key : o'.key = o.key
  values : o'.values = o.values
  token : o'.token = o.token ∨ ∃ name description c value,
    AddCall.short name description c value ∈ calls ∧
      (o.token = shortOption c ∧ o'.token = longOption name ∨
        o.token = longOption name ∧ o'.token = shortOption c)

variable {p : ArgumentParser} {calls : List AddCall} {o o' : Occurrence CString CString}
  {os os' : List (Occurrence CString CString)}

theorem Registered.optionName_eq {name description : CString} {c : UInt8} {value : Value}
    (hp : p.Registered calls) (hcall : .short name description c value ∈ calls) :
    optionName p.shortToLong (shortOption c) = some name ∧
      optionName p.shortToLong (longOption name) = some name := by
  obtain ⟨arg, harg, -⟩ := hp.args _ hcall
  obtain ⟨-, hlength, -⟩ := AddCall.arg_short harg
  exact ⟨hp.short name description c value hcall, optionName_long hlength⟩

theorem Respelled.formed (hp : p.Registered calls) (h : Respelled calls o o')
    (ho : o.Formed p.grammar) : o'.Formed p.grammar := by
  obtain ⟨hkey, hvalues⟩ := ho
  rw [← h.key] at hkey hvalues
  rw [← h.values] at hvalues
  refine ⟨?_, hvalues⟩
  rcases h.token with htoken | ⟨name, description, c, value, hcall, ⟨hold, hnew⟩ | ⟨hold, hnew⟩⟩
  · rw [htoken, hkey]
  · obtain ⟨hshort, hlong⟩ := hp.optionName_eq hcall
    rw [hold] at hkey
    rw [hnew]
    exact hlong.trans (hshort.symm.trans hkey)
  · obtain ⟨hshort, hlong⟩ := hp.optionName_eq hcall
    rw [hold] at hkey
    rw [hnew]
    exact hshort.trans (hlong.symm.trans hkey)

theorem assignments_of_respelled (h : List.Forall₂ (Respelled calls) os os') :
    os'.map Occurrence.assignment = os.map Occurrence.assignment := by
  induction h with
  | nil => rfl
  | cons ho _ ih => rw [List.map_cons, List.map_cons, ih, Occurrence.assignment, ho.key, ho.values]; rfl

theorem formed_of_respelled (hp : p.Registered calls) (h : List.Forall₂ (Respelled calls) os os')
    (hos : ∀ o ∈ os, o.Formed p.grammar) : ∀ o' ∈ os', o'.Formed p.grammar := by
  induction h with
  | nil => exact hos
  | cons ho _ ih =>
    rw [List.forall_mem_cons] at hos ⊢
    exact ⟨ho.formed hp hos.1, ih hos.2⟩

theorem Reads.respelled {prog : CString} {pos : List CString} {as : List (CString × List CString)}
    (hp : p.Registered calls) (h : p.Reads (prog :: (pos ++ os.flatMap Occurrence.tokens)) as os)
    (hos : List.Forall₂ (Respelled calls) os os') :
    p.Reads (prog :: (pos ++ os'.flatMap Occurrence.tokens)) as os' := by
  have hassign := assignments_of_respelled hos
  obtain ⟨rest, -, hsplits⟩ := h.cut
  apply h.congr
  · exact formed_of_respelled hp hos hsplits.formed
  · rw [Options.endsEmpty_congr hassign]
    exact hsplits.not_endsEmpty
  · exact Options.length_tokens_congr hassign

-- ---------------------------------------------------------------------------
-- The meaning of a command line
-- ---------------------------------------------------------------------------

/-- After `parse` has accepted a command line, the occurrences of each argument
decide its value, and both of its names do the same. -/
theorem parse_meaning {name description : CString} (stof : Stof)
    (hbuilt : (built name description).run calls = some p)
    (hnames : (calls.map AddCall.name).Nodup) (hletters : (calls.filterMap AddCall.letter).Nodup)
    {argv : List CString} {r : Parsed ArgumentParser} (hargc : 1 ≤ argv.length)
    (hparse : p.parse stof argv = .ok r) (hok : r.ok = true) :
    ∃ as os, p.Reads argv as os ∧ (∀ as' os', p.Reads argv as' os' → as' = as ∧ os' = os) ∧
      argv = argv.take 1 ++ as.flatMap Prod.snd ++ os.flatMap Occurrence.tokens ∧
      (∀ call ∈ calls, ∃ arg value, call.arg = .ok arg ∧
        arg.value.after stof (valuesOf arg.name (as ++ os.map Occurrence.assignment)) = some value ∧
        ∀ T, r.value.get T arg.name = value.get T) ∧
      ∀ os', List.Forall₂ (Respelled calls) os os' →
        ∃ r', p.parse stof (argv.take 1 ++ as.flatMap Prod.snd ++ os'.flatMap Occurrence.tokens) =
          .ok r' ∧ r'.ok = true ∧ r'.value = r.value := by
  have hp := registered_built hbuilt hnames hletters
  have hdeclared := declared_built hbuilt
  obtain ⟨as, os, args, hreads, hleaves, hvalue⟩ := reads_of_ok hdeclared hargc hparse hok
  obtain ⟨prog, ts, rfl⟩ := List.exists_cons_of_length_pos hargc
  obtain rfl : ts = as.flatMap Prod.snd ++ os.flatMap Occurrence.tokens := hreads.tokens
  refine ⟨as, os, hreads, fun _ _ => hreads.unique, rfl, fun call hcall => ?_, fun os' hos => ?_⟩
  · obtain ⟨arg, harg, hsome⟩ := hp.args call hcall
    obtain ⟨value, hafter, hargs⟩ := hleaves.value hsome
    refine ⟨arg, value, harg, hafter, fun T => ?_⟩
    rw [get, hvalue]
    exact congrArg (fun oarg : Option Arg => oarg.bind fun arg => arg.value.get T) hargs
  · rw [Leaves, ← assignments_of_respelled hos] at hleaves
    obtain ⟨r', hr', hok', hvalue'⟩ := ok_of_reads hdeclared (Nat.le_add_left 1 _)
      (hreads.respelled hp hos) hleaves
    exact ⟨r', hr', hok', hvalue'.trans hvalue.symm⟩

/-- A required argument, a vector and a flag, all given twice. -/
theorem parse_meaning_twice :
    let calls : List AddCall := [.required .int (.ofString "count") [],
      .short (.ofString "nums") [] 'n'.toUInt8 (.intVec []),
      .short (.ofString "verbose") [] 'v'.toUInt8 (.bool false)]
    let argv : List CString :=
      ["prog", "1", "-n", "2", "3", "-v", "--nums", "4", "--count", "5", "-v"].map .ofString
    let stof : Stof := fun _ => .error .invalidArgument
    ∃ p r, (built [] []).run calls = some p ∧ p.parse stof argv = .ok r ∧ r.ok = true ∧
      ∃ as os, p.Reads argv as os ∧ (∀ as' os', p.Reads argv as' os' → as' = as ∧ os' = os) ∧
        argv = argv.take 1 ++ as.flatMap Prod.snd ++ os.flatMap Occurrence.tokens ∧
        (∀ call ∈ calls, ∃ arg value, call.arg = .ok arg ∧
          arg.value.after stof (valuesOf arg.name (as ++ os.map Occurrence.assignment)) =
            some value ∧
          ∀ T, r.value.get T arg.name = value.get T) ∧
        ∀ os', List.Forall₂ (Respelled calls) os os' →
          ∃ r', p.parse stof (argv.take 1 ++ as.flatMap Prod.snd ++
              os'.flatMap Occurrence.tokens) = .ok r' ∧ r'.ok = true ∧ r'.value = r.value := by
  intro calls argv stof
  have hbuilt : (built [] []).run calls = some _ := rfl
  refine ⟨_, _, hbuilt, rfl, rfl, ?_⟩
  exact parse_meaning stof hbuilt (by decide) (by decide) (by decide) rfl rfl

end ArgumentParser

end Rix.Util
