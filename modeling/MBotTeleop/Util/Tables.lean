-- SUMMARY: The three tables of an ArgumentParser, over calls of add that may throw: when they agree, and what help and parse make of them then.
import MBotTeleop.Util.Meaning

/-!
# The tables of an argument parser

A call of `add` appends to the list of the required names, overwrites the entry
of the short letter, and leaves an entry of `args_` that is there already. So a
name or a letter that is repeated can set the tables against each other.
-/

namespace Rix.Util

open Options (Occurrence)

-- ---------------------------------------------------------------------------
-- Calls
-- ---------------------------------------------------------------------------

/-- The call throws nothing. -/
def AddCall.succeeds (call : AddCall) : Bool := call.arg.toBool

theorem AddCall.succeeds_iff {call : AddCall} : call.succeeds = true ↔ ∃ arg, call.arg = .ok arg := by
  rw [succeeds]
  cases call.arg with
  | error message => exact iff_of_false Bool.false_ne_true (by rintro ⟨_, ⟨⟩⟩)
  | ok arg => exact iff_of_true rfl ⟨arg, rfl⟩

/-- Only an optional argument has a short letter, and it is the one that its
call was given. -/
theorem AddCall.letter_eq {call : AddCall} {arg : Arg} (h : call.arg = .ok arg) :
    call.letter = if ¬ arg.required ∧ arg.shortName ≠ 0 then some arg.shortName else none := by
  cases call with
  | required T name description =>
    obtain ⟨rfl, -⟩ := Arg.make_ok h
    rfl
  | optional name description value =>
    obtain ⟨rfl, -⟩ := Arg.make_ok h
    rfl
  | short name description shortName value =>
    obtain ⟨rfl, -, hne⟩ := AddCall.arg_short h
    exact (if_pos ⟨Bool.false_ne_true, hne⟩).symm

/-- A call that is not the first to succeed with its name or its letter repeats
both of one that did; one without a letter, that is not required, may repeat any
name. -/
def AddCall.Fits (before : List AddCall) : AddCall → Prop
  | required _ name _ => name ∉ before.map AddCall.name
  | optional .. => True
  | short name _ shortName _ =>
    (name ∉ before.map AddCall.name ∧ shortName ∉ before.filterMap AddCall.letter) ∨
      ∃ call ∈ before, call.name = name ∧ call.letter = some shortName

namespace ArgumentParser

/-- A call of `add` that may throw. What it throws leaves the parser as it is. -/
def attempt (p : ArgumentParser) (call : AddCall) : ArgumentParser :=
  match p.add call with
  | .ok p => p
  | .error _ => p

/-- A parser, and calls of `add` from a program that goes on after an exception. -/
def attempts (name description : CString) : Machine ArgumentParser AddCall where
  init := { name, description }
  step p call := some (p.attempt call)

variable {p : ArgumentParser} {call : AddCall} {arg : Arg}

theorem attempt_of_ok (h : call.arg = .ok arg) : p.attempt call = p.addArg arg := by
  rw [attempt, add, h]
  rfl

theorem attempt_of_not (h : call.succeeds = false) : p.attempt call = p := by
  unfold AddCall.succeeds at h
  unfold attempt add
  cases harg : call.arg with
  | error message => rfl
  | ok arg =>
    rw [harg] at h
    cases h

/-- So these parsers are made by the calls that succeed. -/
theorem built_of_attempts {name description : CString} {calls : List AddCall}
    (h : (attempts name description).run calls = some p) :
    (built name description).run (calls.filter AddCall.succeeds) = some p := by
  let M := attempts name description
  let N := built name description
  let throws (call : AddCall) : Bool := !call.succeeds
  obtain ⟨_, hrun, rfl⟩ : ∃ q, N.run (calls.filter (!throws ·)) = some q ∧ p = q := by
    refine Machine.run_filter_of_simulation (M := M) (N := N) (R := Eq) rfl ?_ ?_ h
    · rintro p _ call p' rfl hstep hthrows
      cases hstep
      exact attempt_of_not (by simpa [throws] using hthrows)
    · rintro p _ call p' rfl hstep hthrows
      cases hstep
      obtain ⟨arg, harg⟩ := AddCall.succeeds_iff.mp (by simpa [throws] using hthrows)
      exact ⟨p.addArg arg, built_step.mpr ⟨arg, harg, rfl⟩, attempt_of_ok harg⟩
  simpa only [throws, Bool.not_not] using hrun

-- ---------------------------------------------------------------------------
-- Consistency
-- ---------------------------------------------------------------------------

/-- The tables agree: every required name is listed once, and the letters are
those of the optional arguments that have one. -/
structure Consistent (p : ArgumentParser) : Prop where
  nodup : p.requiredArgNames.Nodup
  required : ∀ n, n ∈ p.requiredArgNames ↔ ∃ arg, p.args n = some arg ∧ arg.required = true
  short : ∀ c n, p.shortToLong c = some n ↔
    c ≠ 0 ∧ ∃ arg, p.args n = some arg ∧ arg.required = false ∧ arg.shortName = c

/-- What an argument must be for the tables to agree after it as before: its name
is new, and its letter if it has one; or nothing of it is. -/
def Accepts (p : ArgumentParser) (arg : Arg) : Prop :=
  if arg.required then p.args arg.name = none
  else arg.shortName = 0 ∨
    (p.args arg.name = none ∧ p.shortToLong arg.shortName = none) ∨
    p.shortToLong arg.shortName = some arg.name

/-! ## What a call changes -/

theorem addArg_args_iff {n : CString} {arg' : Arg} : (p.addArg arg).args n = some arg' ↔
    p.args n = some arg' ∨ p.args n = none ∧ n = arg.name ∧ arg' = arg := by
  cases h : p.args n with
  | some arg₀ =>
    rw [addArg_args_of_some h, or_iff_left fun hand => Option.some_ne_none _ hand.1]
  | none =>
    rw [addArg_args]
    by_cases hn : n = arg.name
    · subst hn
      rw [if_neg (by rw [h]; exact Bool.false_ne_true), Function.update_self]
      grind
    · have hsame : (if (p.args arg.name).isSome then p.args
          else Function.update p.args arg.name (some arg)) n = none := by
        split
        · exact h
        · rw [Function.update_of_ne hn, h]
      rw [hsame]
      grind

theorem addArg_args_eq_none {n : CString} :
    (p.addArg arg).args n = none ↔ p.args n = none ∧ n ≠ arg.name := by
  constructor
  · intro h
    have hold : p.args n = none := by
      cases hn : p.args n with
      | none => rfl
      | some arg' => cases (addArg_args_of_some hn).symm.trans h
    refine ⟨hold, ?_⟩
    rintro rfl
    cases h.symm.trans (addArg_args_iff.mpr (.inr ⟨hold, rfl, rfl⟩))
  · rintro ⟨hold, hne⟩
    rw [Option.eq_none_iff_forall_ne_some]
    intro arg' h
    rcases addArg_args_iff.mp h with h | ⟨-, heq, -⟩
    · cases hold.symm.trans h
    · exact hne heq

/-! ## Consistency after a call -/

/-- A name that is in no table yet. -/
theorem Consistent.fresh (hp : p.Consistent) {n : CString} (hn : p.args n = none) :
    n ∉ p.requiredArgNames ∧ ∀ c, p.shortToLong c ≠ some n := by
  constructor
  · intro hmem
    obtain ⟨arg, harg, -⟩ := (hp.required n).mp hmem
    cases hn.symm.trans harg
  · intro c hc
    obtain ⟨-, arg, harg, -⟩ := (hp.short c n).mp hc
    cases hn.symm.trans harg

/-- A letter that was taken is still that of the argument that had it. -/
theorem Consistent.letter_free (hp : p.Consistent) (h : (p.addArg arg).Consistent)
    (hn : p.args arg.name = none) (hoptional : arg.required = false) (hne : arg.shortName ≠ 0) :
    p.shortToLong arg.shortName = none := by
  rw [Option.eq_none_iff_forall_ne_some]
  intro m hm
  obtain ⟨-, arg', harg', hoptional', hletter⟩ := (hp.short _ m).mp hm
  have hkept := (h.short arg.shortName m).mpr
    ⟨hne, arg', addArg_args_iff.mpr (.inl harg'), hoptional', hletter⟩
  rw [addArg_shortToLong_iff, if_pos ⟨hoptional, hne, rfl⟩] at hkept
  rw [hkept, hn] at harg'
  cases harg'

/-- With a new name, and a new letter if there is one, the tables agree as before. -/
theorem Consistent.addArg_new (hp : p.Consistent) (hn : p.args arg.name = none)
    (hfree : arg.required = false → arg.shortName ≠ 0 → p.shortToLong arg.shortName = none) :
    (p.addArg arg).Consistent := by
  obtain ⟨hmem, hshort⟩ := hp.fresh hn
  refine ⟨?_, fun n => ?_, fun c n => ?_⟩
  · rw [addArg_requiredArgNames]
    split
    · rw [← List.concat_eq_append]
      exact hp.nodup.concat hmem
    · exact hp.nodup
  · rw [mem_addArg_requiredArgNames, hp.required]
    simp only [addArg_args_iff]
    grind
  · rw [addArg_shortToLong_iff]
    simp only [addArg_args_iff]
    split
    · rename_i hset
      obtain ⟨hoptional, hne, rfl⟩ := hset
      constructor
      · rintro rfl
        exact ⟨hne, arg, .inr ⟨hn, rfl, rfl⟩, hoptional, rfl⟩
      · rintro ⟨hc, arg', harg' | ⟨-, heq, -⟩, hoptional', hletter⟩
        · have htaken := (hp.short arg.shortName n).mpr ⟨hc, arg', harg', hoptional', hletter⟩
          cases (hfree hoptional hne).symm.trans htaken
        · exact heq
    · rw [hp.short]
      refine and_congr_right fun hc => exists_congr fun arg' => ?_
      grind

theorem Consistent.addArg_new_iff (hp : p.Consistent) (hn : p.args arg.name = none) :
    (p.addArg arg).Consistent ↔
      (arg.required = false → arg.shortName ≠ 0 → p.shortToLong arg.shortName = none) :=
  ⟨fun h => hp.letter_free h hn, hp.addArg_new hn⟩

/-- An argument of a name that is there changes no entry of `args_`. -/
theorem Consistent.addArg_repeated_iff (hp : p.Consistent) {arg₀ : Arg}
    (hn : p.args arg.name = some arg₀) :
    (p.addArg arg).Consistent ↔ arg.required = false ∧
      (arg.shortName = 0 ∨ p.shortToLong arg.shortName = some arg.name) := by
  have hargs : (p.addArg arg).args = p.args := by
    rw [addArg_args, if_pos (hn ▸ rfl)]
  constructor
  · intro h
    have hoptional : arg.required = false := by
      by_contra hrequired
      rw [Bool.not_eq_false] at hrequired
      -- the name is required, so it was listed already, and now is twice
      obtain ⟨arg', harg', hreq⟩ := (h.required arg.name).mp
        (mem_addArg_requiredArgNames.mpr (.inr ⟨hrequired, rfl⟩))
      have hmem := (hp.required arg.name).mpr ⟨arg', hargs ▸ harg', hreq⟩
      have hnodup := h.nodup
      rw [addArg_requiredArgNames, if_pos hrequired] at hnodup
      exact List.nodup_append.mp hnodup |>.2.2 _ hmem _ List.mem_cons_self rfl
    refine ⟨hoptional, or_iff_not_imp_left.mpr fun hzero => ?_⟩
    have hset := (h.short arg.shortName arg.name).mp
      (addArg_shortToLong_iff.mpr (by rw [if_pos ⟨hoptional, hzero, rfl⟩]))
    rw [hargs] at hset
    exact (hp.short arg.shortName arg.name).mpr hset
  · rintro ⟨hoptional, hletter⟩
    suffices hsame : p.addArg arg = p by rwa [hsame]
    have hshort : (p.addArg arg).shortToLong = p.shortToLong := by
      rw [addArg_shortToLong]
      split
      · rename_i hset
        rw [← hletter.resolve_left hset.2, Function.update_eq_self]
      · rfl
    have hrequired : (p.addArg arg).requiredArgNames = p.requiredArgNames := by
      rw [addArg_requiredArgNames, hoptional]
      rfl
    calc p.addArg arg = ⟨p.name, p.description, (p.addArg arg).requiredArgNames,
          (p.addArg arg).shortToLong, (p.addArg arg).args⟩ := rfl
      _ = p := by rw [hrequired, hshort, hargs]

/-- The tables agree after an argument exactly where it is accepted. -/
theorem Consistent.addArg_iff (hp : p.Consistent) : (p.addArg arg).Consistent ↔ p.Accepts arg := by
  unfold Accepts
  cases hn : p.args arg.name with
  | none =>
    have hfresh := (hp.fresh hn).2 arg.shortName
    rw [hp.addArg_new_iff hn]
    cases arg.required <;> simp [hfresh, or_iff_not_imp_left]
  | some arg₀ =>
    rw [hp.addArg_repeated_iff hn]
    cases arg.required <;> simp

-- ---------------------------------------------------------------------------
-- The calls so far
-- ---------------------------------------------------------------------------

/-- The tables have the names and the letters of the calls that succeeded. -/
structure Recorded (added : List AddCall) (p : ArgumentParser) : Prop where
  keyed : ∀ n arg, p.args n = some arg → arg.name = n
  names : ∀ n, p.args n = none ↔ n ∉ added.map AddCall.name
  letters : ∀ c n, p.shortToLong c = some n ↔
    ∃ call ∈ added, call.name = n ∧ call.letter = some c

section

variable {added : List AddCall}

theorem Recorded.letter_none (hp : p.Recorded added) (c : UInt8) :
    p.shortToLong c = none ↔ c ∉ added.filterMap AddCall.letter := by
  rw [Option.eq_none_iff_forall_ne_some, List.mem_filterMap, not_exists]
  simp only [ne_eq, hp.letters, not_exists, not_and]
  exact ⟨fun h call hmem => h call.name call hmem rfl, fun h n call hmem _ => h call hmem⟩

/-- What the tables accept can be told from the calls. -/
theorem Recorded.accepts_iff (hp : p.Recorded added) (h : call.arg = .ok arg) :
    p.Accepts arg ↔ call.Fits added := by
  cases call with
  | required T name description =>
    obtain ⟨rfl, -⟩ := Arg.make_ok h
    exact hp.names name
  | optional name description value =>
    obtain ⟨rfl, -⟩ := Arg.make_ok h
    exact iff_of_true (.inl rfl) trivial
  | short name description shortName value =>
    obtain ⟨rfl, -, hne⟩ := AddCall.arg_short h
    rw [Accepts, if_neg Bool.false_ne_true, or_iff_right hne, hp.names, hp.letter_none, hp.letters]
    rfl

theorem Recorded.addArg_of_accepts (hp : p.Recorded added) (h : call.arg = .ok arg)
    (haccepts : p.Accepts arg) : (p.addArg arg).Recorded (added ++ [call]) := by
  obtain ⟨hname, -, -⟩ := AddCall.arg_ok h
  have hletter := AddCall.letter_eq h
  refine ⟨fun n arg' hsome => ?_, fun n => ?_, fun c n => ?_⟩
  · rcases addArg_args_iff.mp hsome with hsome | ⟨-, rfl, rfl⟩
    · exact hp.keyed n arg' hsome
    · rfl
  · rw [addArg_args_eq_none, hp.names, List.map_append, List.mem_append, not_or, hname]
    exact and_congr_right fun _ => not_congr List.mem_singleton.symm
  · rw [addArg_shortToLong_iff]
    simp only [List.mem_append, List.mem_singleton, or_and_right, exists_or, exists_eq_left,
      ← hp.letters]
    split
    · rename_i hset
      obtain ⟨hoptional, hne, rfl⟩ := hset
      have hnew : call.letter = some arg.shortName := by
        rw [hletter, if_pos ⟨by rw [hoptional]; exact Bool.false_ne_true, hne⟩]
      rw [Accepts, hoptional, if_neg Bool.false_ne_true, or_iff_right hne] at haccepts
      constructor
      · rintro rfl
        exact .inr ⟨hname.symm, hnew⟩
      · rintro (hold | ⟨rfl, -⟩)
        · rcases haccepts with ⟨-, hnone⟩ | hsome
          · cases hnone.symm.trans hold
          · exact Option.some.inj (hold.symm.trans hsome)
        · exact hname.symm
    · rename_i hset
      refine (or_iff_left ?_).symm
      rintro ⟨-, hnew⟩
      rw [hletter] at hnew
      split at hnew
      · rename_i hshort
        exact hset ⟨Bool.not_eq_true _ ▸ hshort.1, hshort.2, (Option.some.inj hnew).symm⟩
      · cases hnew

end

-- ---------------------------------------------------------------------------
-- What help and parse make of the tables
-- ---------------------------------------------------------------------------

/-- `order` lists the names in `args_`. -/
def Enumerates (p : ArgumentParser) (order : List CString) : Prop :=
  order.Nodup ∧ ∀ n, n ∈ order ↔ (p.args n).isSome

/-- The tables agree, and so do `help` and `parse`, which go by different ones. -/
structure Coherent (p : ArgumentParser) : Prop where
  consistent : p.Consistent
  /-- Each option with a short letter is shown with one that stands for it. -/
  help : ∀ order, p.Enumerates order → ∃ text, p.help order = .ok text ∧
    ∀ n arg, p.args n = some arg → arg.required = false → arg.shortName ≠ 0 →
      arg.name = n ∧ arg.optUsage <:+: text ∧ arg.optDescription <:+: text ∧
        optionName p.shortToLong (shortOption arg.shortName) = some n
  /-- The positional values are those of the required arguments, one for each. -/
  parse : ∀ stof argv r, 1 ≤ argv.length → p.parse stof argv = .ok r → r.ok = true →
    ∃ as os args, p.Reads argv as os ∧ p.Leaves stof as os args ∧ r.value = { p with args } ∧
      (as.map Prod.fst).Nodup ∧
      ∀ n, n ∈ as.map Prod.fst ↔ ∃ arg, p.args n = some arg ∧ arg.required = true

theorem Consistent.declared (hp : p.Consistent) : p.Declared := by
  intro n hmem
  obtain ⟨arg, harg, -⟩ := (hp.required n).mp hmem
  rw [harg]
  rfl

theorem Reads.names {argv : List CString} {as : List (CString × List CString)}
    {os : List (Occurrence CString CString)} (h : p.Reads argv as os) :
    as.map Prod.fst = p.requiredArgNames := by
  obtain ⟨rest, hpos, -⟩ := h.cut
  exact Options.positional_keys hpos

/-- The loop over the required names finds all of them. -/
theorem mapM_argsAt_ok {names : List CString} (h : ∀ n ∈ names, (p.args n).isSome) :
    ∃ required, names.mapM p.argsAt = .ok required := by
  induction names with
  | nil => exact ⟨[], rfl⟩
  | cons n names ih =>
    obtain ⟨arg, harg⟩ := Option.isSome_iff_exists.mp (h n List.mem_cons_self)
    obtain ⟨required, hrequired⟩ := ih fun n' hmem => h n' (List.mem_cons_of_mem n hmem)
    refine ⟨arg :: required, ?_⟩
    rw [List.mapM_cons, hrequired, argsAt, harg]
    rfl

theorem help_shows (hp : p.Declared) {order : List CString} (horder : p.Enumerates order) :
    ∃ text, p.help order = .ok text ∧
      ∀ n arg, p.args n = some arg → arg.required = false →
        arg.optUsage <:+: text ∧ arg.optDescription <:+: text := by
  obtain ⟨required, hrequired⟩ := mapM_argsAt_ok hp
  refine ⟨_, by rw [ArgumentParser.help, hrequired]; rfl, fun n arg harg hoptional => ?_⟩
  have hmem : arg ∈ (order.filterMap p.args).filter (!·.required) := by
    rw [List.mem_filter, List.mem_filterMap]
    exact ⟨⟨n, (horder.2 n).mpr (harg ▸ rfl), harg⟩, by rw [hoptional]; rfl⟩
  have hflat (f : Arg → CString) :
      f arg <:+: ((order.filterMap p.args).filter (!·.required)).flatMap f := by
    rw [List.flatMap_def]
    exact List.infix_of_mem_flatten (List.mem_map_of_mem hmem)
  constructor
  · apply (hflat Arg.optUsage).trans
    apply (List.suffix_append _ _).isInfix.trans
    apply (List.prefix_append _ _).isInfix.trans
    exact (List.prefix_append _ _).isInfix
  · exact (hflat Arg.optDescription).trans (List.suffix_append _ _).isInfix

theorem Consistent.coherent (hp : p.Consistent) (hkeyed : ∀ n arg, p.args n = some arg → arg.name = n) :
    p.Coherent := by
  refine ⟨hp, fun order horder => ?_, fun stof argv r hargc hparse hok => ?_⟩
  · obtain ⟨text, htext, hshows⟩ := help_shows hp.declared horder
    refine ⟨text, htext, fun n arg harg hoptional hne => ?_⟩
    obtain ⟨husage, hdescription⟩ := hshows n arg harg hoptional
    refine ⟨hkeyed n arg harg, husage, hdescription, ?_⟩
    rw [optionName_short, hp.short]
    exact ⟨hne, arg, harg, hoptional, rfl⟩
  · obtain ⟨as, os, args, hreads, hleaves, hvalue⟩ := reads_of_ok hp.declared hargc hparse hok
    refine ⟨as, os, args, hreads, hleaves, hvalue, ?_, fun n => ?_⟩
    · exact hreads.names ▸ hp.nodup
    · rw [hreads.names]
      exact hp.required n

-- ---------------------------------------------------------------------------
-- Runs
-- ---------------------------------------------------------------------------

/-- Every call that succeeds fits those that did before it. -/
def AllFit (calls : List AddCall) : Prop :=
  ∀ before call after, calls = before ++ call :: after → call.succeeds = true →
    call.Fits (before.filter AddCall.succeeds)

section

variable (name description : CString)

theorem consistent_init : ({ name, description } : ArgumentParser).Consistent where
  nodup := List.nodup_nil
  required n := iff_of_false List.not_mem_nil (by rintro ⟨_, ⟨⟩, -⟩)
  short c n := iff_of_false (by rintro ⟨⟩) (by rintro ⟨-, _, ⟨⟩, -⟩)

theorem recorded_init : ({ name, description } : ArgumentParser).Recorded [] where
  keyed n arg := by rintro ⟨⟩
  names n := iff_of_true rfl List.not_mem_nil
  letters c n := iff_of_false (by rintro ⟨⟩) (by rintro ⟨_, ⟨⟩, -⟩)

/-- A call that succeeds adds to what is recorded, where it fits. -/
theorem recorded_attempt {calls : List AddCall} (hp : p.Consistent)
    (hrec : p.Recorded (calls.filter AddCall.succeeds))
    (hfits : call.succeeds = true → call.Fits (calls.filter AddCall.succeeds)) :
    (p.attempt call).Consistent ∧
      (p.attempt call).Recorded ((calls ++ [call]).filter AddCall.succeeds) := by
  rw [List.filter_append]
  cases hsucceeds : call.succeeds with
  | false =>
    have hnot : ¬ call.succeeds = true := Bool.not_eq_true _ ▸ hsucceeds
    rw [attempt_of_not hsucceeds, List.filter_cons_of_neg hnot, List.filter_nil, List.append_nil]
    exact ⟨hp, hrec⟩
  | true =>
    obtain ⟨arg, harg⟩ := AddCall.succeeds_iff.mp hsucceeds
    have haccepts := (hrec.accepts_iff harg).mpr (hfits hsucceeds)
    rw [attempt_of_ok harg, List.filter_cons_of_pos hsucceeds, List.filter_nil]
    exact ⟨hp.addArg_iff.mpr haccepts, hrec.addArg_of_accepts harg haccepts⟩

theorem attempts_isSome (calls : List AddCall) :
    ∃ p, (attempts name description).run calls = some p := by
  induction calls using List.reverseRecOn with
  | nil => exact ⟨_, rfl⟩
  | append_singleton calls call ih =>
    obtain ⟨p, hp⟩ := ih
    exact ⟨p.attempt call, (attempts name description).run_concat.mpr ⟨p, hp, rfl⟩⟩

/-- Every call can be made, so the condition on runs is one on calls. -/
theorem beforeEach_iff_allFit (calls : List AddCall) :
    (attempts name description).BeforeEach (fun before _ call =>
      call.succeeds = true → call.Fits (before.filter AddCall.succeeds)) calls ↔ AllFit calls := by
  constructor
  · intro h before call after heq
    obtain ⟨p, hp⟩ := attempts_isSome name description before
    exact h before call after p heq hp rfl
  · intro h before call after p heq _ _
    exact h before call after heq

/-- The parser is coherent throughout exactly the calls that all fit. -/
theorem coherent_throughout_iff (calls : List AddCall) :
    (attempts name description).Throughout Coherent calls ↔ AllFit calls := by
  rw [← beforeEach_iff_allFit name description]
  apply (attempts name description).throughout_iff
    (J := fun calls p => p.Consistent ∧ p.Recorded (calls.filter AddCall.succeeds))
  · exact ⟨consistent_init name description, recorded_init name description⟩
  · exact fun h => h.1.coherent h.2.keyed
  · rintro calls p call p' ⟨hp, hrec⟩ hstep hfits
    cases hstep
    exact recorded_attempt hp hrec hfits
  · rintro calls p call p' ⟨hp, hrec⟩ hstep hcoherent hsucceeds
    cases hstep
    obtain ⟨arg, harg⟩ := AddCall.succeeds_iff.mp hsucceeds
    have hconsistent := hcoherent.consistent
    rw [attempt_of_ok harg] at hconsistent
    exact (hrec.accepts_iff harg).mp (hp.addArg_iff.mp hconsistent)

end

/-- A letter that goes over to another option, a required argument that is added
twice, and an option that is added again as a required argument. -/
theorem not_coherent_throughout :
    let M := attempts [] []
    let speed : AddCall := .short (.ofString "speed") [] 's'.toUInt8 (.bool false)
    let stop : AddCall := .short (.ofString "stop") [] 's'.toUInt8 (.bool false)
    let port : AddCall := .required .int (.ofString "port") []
    ¬ M.Throughout Coherent [speed, stop] ∧
      ¬ M.Throughout Coherent [port, port] ∧
      ¬ M.Throughout Coherent [stop, .required .int (.ofString "stop") []] := by
  intro M speed stop port
  refine ⟨fun h => ?_, fun h => ?_, fun h => ?_⟩
  · have hshort := (h _ _ (List.prefix_refl _) rfl).consistent.short 's'.toUInt8 (.ofString "speed")
    have hlost := hshort.mpr ⟨by decide, _, rfl, rfl, rfl⟩
    exact absurd (Option.some.inj hlost) (by decide)
  · have hnodup := (h _ _ (List.prefix_refl _) rfl).consistent.nodup
    exact absurd hnodup (by decide)
  · have hrequired := (h _ _ (List.prefix_refl _) rfl).consistent.required (.ofString "stop")
    obtain ⟨arg, harg, hreq⟩ := hrequired.mp List.mem_cons_self
    cases harg
    cases hreq

end ArgumentParser

end Rix.Util
