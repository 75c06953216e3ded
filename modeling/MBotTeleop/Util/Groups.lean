-- SUMMARY: Command lines written as groups of an option and its values: when parse accepts one, and when the order of the groups matters.
import MBotTeleop.Util.CommandLine

/-!
# Groups of options

A group is an option token with its values. A vector takes what it finds up to
the next option, so a group means the same wherever it stands, but for one place:
`parse` wants a first element, or the next option, to be there.
-/

namespace Rix.Util.ArgumentParser

open Options (Splits Occurrence positional assignAll EndsEmpty)

variable {p : ArgumentParser} {stof : Stof} {prog : CString} {pos : List CString}
  {as as' : List (CString × List CString)} {gs gs' os : List (Occurrence CString CString)}
  {args : CString → Option Arg}

-- ---------------------------------------------------------------------------
-- Values
-- ---------------------------------------------------------------------------

/-- The tokens can be converted to the type of the argument. -/
def Converts (p : ArgumentParser) (stof : Stof) (a : CString × List CString) : Prop :=
  ∃ arg ∈ p.args a.1, (arg.value.assign stof a.2).isSome

/-- Whether tokens can be converted depends on the type of an argument only. -/
theorem isSome_assign_congr {v v' : Value} {strs : List CString} (h : v.index = v'.index) :
    (v.assign stof strs).isSome = (v'.assign stof strs).isSome := by
  by_cases hflag : v.index = .bool
  · cases v with
    | bool b =>
      cases v' with
      | bool b' => rfl
      | _ => cases h
    | _ => cases hflag
  · rw [Value.assign_of_ne hflag, Value.assign_of_ne (h ▸ hflag), h]

theorem leaves_iff_converts : (∃ args, p.Leaves stof as os args) ↔
    ∀ a ∈ as ++ os.map Occurrence.assignment, p.Converts stof a := by
  -- the table keeps the types that it has
  let Q (name : CString) (oarg : Option Arg) : Prop :=
    oarg.map (·.value.index) = (p.args name).map (·.value.index)
  have hkeep {name : CString} {oarg oarg' : Option Arg} {strs : List CString} (hQ : Q name oarg)
      (h : assignArg stof name oarg strs = some oarg') : Q name oarg' := by
    obtain ⟨arg, rfl, hsome⟩ := Option.bind_eq_some_iff.mp h
    obtain ⟨value, hvalue, rfl⟩ := Option.map_eq_some_iff.mp hsome
    exact (congrArg some (Value.index_assign hvalue)).trans hQ
  have hsame {name : CString} {oarg oarg' : Option Arg} {strs : List CString} (hQ : Q name oarg)
      (hQ' : Q name oarg') :
      (assignArg stof name oarg strs).isSome = (assignArg stof name oarg' strs).isSome := by
    have heq : oarg.map (·.value.index) = oarg'.map (·.value.index) := hQ.trans hQ'.symm
    cases oarg with
    | none =>
      rw [Option.map_none] at heq
      rw [Option.map_eq_none_iff.mp heq.symm]
    | some arg =>
      obtain ⟨arg', rfl, hindex⟩ := Option.map_eq_some_iff.mp heq.symm
      simp only [assignArg, Option.bind_some, Option.isSome_map]
      exact isSome_assign_congr hindex.symm
  have hassign : (assignAll (assignArg stof) p.args (as ++ os.map Occurrence.assignment)).isSome ↔
      ∀ a ∈ as ++ os.map Occurrence.assignment, (assignArg stof a.1 (p.args a.1) a.2).isSome :=
    Options.assignAll_isSome_iff (Q := Q) hkeep hsame fun _ => rfl
  rw [Option.isSome_iff_exists] at hassign
  refine hassign.trans (forall₂_congr fun a _ => ?_)
  rw [Converts, assignArg]
  cases p.args a.1 with
  | none =>
    apply iff_of_false
    · exact Bool.false_ne_true
    · rintro ⟨_, ⟨⟩, _⟩
  | some arg => simp only [Option.bind_some, Option.isSome_map, Option.mem_some_iff, exists_eq_left']

/-- Groups of different options leave the same in any order. -/
theorem leaves_perm (hperm : gs.Perm gs') (hkeys : (gs.map Occurrence.key).Nodup) :
    p.Leaves stof as gs args ↔ p.Leaves stof as gs' args := by
  have hassign (s : CString → Option Arg) :
      assignAll (assignArg stof) s (gs.map Occurrence.assignment) =
        assignAll (assignArg stof) s (gs'.map Occurrence.assignment) := by
    apply Options.assignAll_perm (hperm.map Occurrence.assignment)
    rw [List.map_map]
    exact hkeys
  rw [Leaves, Leaves, Options.assignAll_append, Options.assignAll_append]
  simp only [hassign]

-- ---------------------------------------------------------------------------
-- Groups
-- ---------------------------------------------------------------------------

/-- A command line of groups has one reading, unless a vector at its end is empty. -/
theorem reads_groups_iff (hformed : ∀ g ∈ gs, g.Formed p.grammar)
    (hpos : positional p.grammar p.requiredArgNames (pos ++ gs.flatMap Occurrence.tokens) =
      some (as, gs.flatMap Occurrence.tokens)) :
    p.Reads (prog :: (pos ++ gs.flatMap Occurrence.tokens)) as' os ↔
      as' = as ∧ os = gs ∧ ¬ EndsEmpty p.grammar gs ∧
        p.requiredArgNames.length ≤ (pos ++ gs.flatMap Occurrence.tokens).length := by
  constructor
  · rintro ⟨henough, rest, hpos', hsplits⟩
    obtain ⟨rfl, rfl⟩ := Prod.mk.inj (Option.some.inj (hpos.symm.trans hpos'))
    obtain rfl := hsplits.eq_of_formed p.grammar_sound hformed
    exact ⟨rfl, rfl, hsplits.not_endsEmpty, henough⟩
  · rintro ⟨rfl, rfl, hlast, henough⟩
    exact ⟨henough, _, hpos, Options.splits_of_formed p.grammar_sound hformed hlast⟩

/-- A command line of groups is accepted if there are enough arguments, no empty
vector at the end, and all values can be converted. -/
theorem parse_groups (stof : Stof) (prog : CString) (hp : p.Declared) (hformed : ∀ g ∈ gs, g.Formed p.grammar)
    (hpos : positional p.grammar p.requiredArgNames (pos ++ gs.flatMap Occurrence.tokens) =
      some (as, gs.flatMap Occurrence.tokens)) :
    ∃ r, p.parse stof (prog :: (pos ++ gs.flatMap Occurrence.tokens)) = .ok r ∧
      (r.ok = true ↔ ¬ EndsEmpty p.grammar gs ∧
        p.requiredArgNames.length ≤ (pos ++ gs.flatMap Occurrence.tokens).length ∧
        ∀ a ∈ as ++ gs.map Occurrence.assignment, p.Converts stof a) ∧
      (r.ok = true → ∃ args, p.Leaves stof as gs args ∧ r.value = { p with args }) := by
  have hargc : 1 ≤ (prog :: (pos ++ gs.flatMap Occurrence.tokens)).length := Nat.le_add_left 1 _
  obtain ⟨r, hr, -, hiff⟩ := parse_spec stof hp hargc
  simp only [reads_groups_iff hformed hpos] at hiff
  refine ⟨r, hr, ⟨fun hok => ?_, fun hgroups => ?_⟩, fun hok => ?_⟩
  · obtain ⟨args, ⟨as', os, ⟨rfl, rfl, hlast, henough⟩, hleaves⟩, -⟩ := (hiff r.value).mp ⟨hok, rfl⟩
    exact ⟨hlast, henough, leaves_iff_converts.mp ⟨args, hleaves⟩⟩
  · obtain ⟨hlast, henough, hconverts⟩ := hgroups
    obtain ⟨args, hleaves⟩ := leaves_iff_converts.mpr hconverts
    exact ((hiff { p with args }).mpr ⟨args, ⟨as, gs, ⟨rfl, rfl, hlast, henough⟩, hleaves⟩, rfl⟩).1
  · obtain ⟨args, ⟨as', os, ⟨rfl, rfl, -⟩, hleaves⟩, hvalue⟩ := (hiff r.value).mp ⟨hok, rfl⟩
    exact ⟨args, hleaves, hvalue⟩

-- ---------------------------------------------------------------------------
-- The order of groups
-- ---------------------------------------------------------------------------

/-- `parse` returns the same for both command lines, and if this is true, so does
every `get`. -/
def SameParse (p : ArgumentParser) (stof : Stof) (argv argv' : List CString) : Prop :=
  ∃ r r', p.parse stof argv = .ok r ∧ p.parse stof argv' = .ok r' ∧ r.ok = r'.ok ∧
    (r.ok = true → ∀ T name, r.value.get T name = r'.value.get T name)

/-- The order of groups does not matter iff the empty vector that may be at the end
of one order is also one at the end of the other, or the command line is rejected
for another reason: too few arguments, or a value that cannot be converted. -/
theorem sameParse_perm_iff {name description : CString} {calls : List AddCall}
    (hbuilt : (built name description).run calls = some p)
    (hformed : ∀ g ∈ gs, g.Formed p.grammar) (hkeys : (gs.map Occurrence.key).Nodup)
    (hperm : gs.Perm gs')
    (hpos : positional p.grammar p.requiredArgNames (pos ++ gs.flatMap Occurrence.tokens) =
      some (as, gs.flatMap Occurrence.tokens)) :
    p.SameParse stof (prog :: (pos ++ gs.flatMap Occurrence.tokens))
        (prog :: (pos ++ gs'.flatMap Occurrence.tokens)) ↔
      (EndsEmpty p.grammar gs ↔ EndsEmpty p.grammar gs') ∨
        (pos ++ gs.flatMap Occurrence.tokens).length < p.requiredArgNames.length ∨
        ∃ a ∈ as ++ gs.map Occurrence.assignment, ¬ p.Converts stof a := by
  have hformed' : ∀ g ∈ gs', g.Formed p.grammar := fun g hg => hformed g (hperm.mem_iff.mpr hg)
  have hlength := (hperm.flatMap_right Occurrence.tokens).length_eq
  have hpos' : positional p.grammar p.requiredArgNames (pos ++ gs'.flatMap Occurrence.tokens) =
      some (as, gs'.flatMap Occurrence.tokens) := by
    apply Options.positional_congr hpos (Options.stopped_tokens p.grammar_sound hformed')
    rw [← List.length_eq_zero_iff, hlength, List.length_eq_zero_iff]
  have hp := declared_built hbuilt
  obtain ⟨r, hr, hok, hvalue⟩ := parse_groups stof prog hp hformed hpos
  obtain ⟨r', hr', hok', hvalue'⟩ := parse_groups stof prog hp hformed' hpos'
  have hconverts : (∀ a ∈ as ++ gs'.map Occurrence.assignment, p.Converts stof a) ↔
      ∀ a ∈ as ++ gs.map Occurrence.assignment, p.Converts stof a := by
    simp only [List.mem_append, (hperm.map Occurrence.assignment).mem_iff]
  rw [hconverts, List.length_append, ← hlength, ← List.length_append] at hok'
  constructor
  · rintro ⟨r₁, r₁', hr₁, hr₁', hsame, -⟩
    obtain rfl := Except.ok.inj (hr.symm.trans hr₁)
    obtain rfl := Except.ok.inj (hr'.symm.trans hr₁')
    by_cases hshort : (pos ++ gs.flatMap Occurrence.tokens).length < p.requiredArgNames.length
    · exact .inr (.inl hshort)
    by_cases hall : ∀ a ∈ as ++ gs.map Occurrence.assignment, p.Converts stof a
    · have hrest : p.requiredArgNames.length ≤ (pos ++ gs.flatMap Occurrence.tokens).length ∧
          ∀ a ∈ as ++ gs.map Occurrence.assignment, p.Converts stof a :=
        ⟨Nat.le_of_not_lt hshort, hall⟩
      rw [and_iff_left hrest] at hok hok'
      exact .inl (not_iff_not.mp (hok.symm.trans (hsame ▸ hok')))
    · simp only [not_forall, exists_prop] at hall
      exact .inr (.inr hall)
  · intro hcond
    have hsame : r.ok = true ↔ r'.ok = true := by
      rw [hok, hok']
      rcases hcond with hlast | hshort | ⟨a, ha, hbad⟩
      · rw [hlast]
      · exact iff_of_false (fun h => Nat.not_le.mpr hshort h.2.1) fun h => Nat.not_le.mpr hshort h.2.1
      · exact iff_of_false (fun h => hbad (h.2.2 a ha)) fun h => hbad (h.2.2 a ha)
    refine ⟨r, r', hr, hr', Bool.eq_iff_iff.mpr hsame, fun htrue T name => ?_⟩
    obtain ⟨args, hleaves, hargs⟩ := hvalue htrue
    obtain ⟨args', hleaves', hargs'⟩ := hvalue' (hsame.mp htrue)
    rw [← leaves_perm hperm hkeys] at hleaves'
    obtain rfl := Option.some.inj (hleaves.symm.trans hleaves')
    rw [hargs, hargs']

/-- The calls of `add` for a flag and a vector. -/
def flagAndVector : List AddCall := [.short (.ofString "verbose") [] 'v'.toUInt8 (.bool false),
  .short (.ofString "nums") [] 'n'.toUInt8 (.intVec [])]

/-- The vector has an element, and can stand before or after the flag. -/
theorem sameParse_perm_iff_flagAndVector :
    let gs : List (Occurrence CString CString) :=
      [⟨.ofString "-n", .ofString "nums", [.ofString "1"]⟩, ⟨.ofString "-v", .ofString "verbose", []⟩]
    let gs' := gs.reverse
    let stof : Stof := fun _ => .error .invalidArgument
    ∃ p, (built [] []).run flagAndVector = some p ∧
      (p.SameParse stof ([] :: ([] ++ gs.flatMap Occurrence.tokens))
          ([] :: ([] ++ gs'.flatMap Occurrence.tokens)) ↔
        (EndsEmpty p.grammar gs ↔ EndsEmpty p.grammar gs') ∨
          ([] ++ gs.flatMap Occurrence.tokens).length < p.requiredArgNames.length ∨
          ∃ a ∈ [] ++ gs.map Occurrence.assignment, ¬ p.Converts stof a) := by
  intro gs gs' stof
  have hbuilt : (built [] []).run flagAndVector = some _ := rfl
  refine ⟨_, hbuilt, sameParse_perm_iff hbuilt ?_ (by decide) (List.reverse_perm gs).symm ?_⟩
  · rw [List.forall_mem_cons, List.forall_mem_singleton]
    exact ⟨⟨rfl, .run, rfl, List.forall_mem_singleton.mpr rfl⟩, ⟨rfl, .flag, rfl, rfl⟩⟩
  · generalize gs.flatMap Occurrence.tokens = rest
    rfl

/-- `-v -n` is rejected, and `-n -v` is not. -/
theorem not_sameParse_emptyVector :
    let gs : List (Occurrence CString CString) :=
      [⟨.ofString "-v", .ofString "verbose", []⟩, ⟨.ofString "-n", .ofString "nums", []⟩]
    let gs' := gs.reverse
    let stof : Stof := fun _ => .error .invalidArgument
    ∃ p, (built [] []).run flagAndVector = some p ∧ (∀ g ∈ gs, g.Formed p.grammar) ∧
      (gs.map Occurrence.key).Nodup ∧ gs.Perm gs' ∧
      positional p.grammar p.requiredArgNames ([] ++ gs.flatMap Occurrence.tokens) =
        some ([], gs.flatMap Occurrence.tokens) ∧
      ¬ p.SameParse stof ([] :: ([] ++ gs.flatMap Occurrence.tokens))
        ([] :: ([] ++ gs'.flatMap Occurrence.tokens)) := by
  intro gs gs' stof
  refine ⟨_, rfl, ?_, by decide, (List.reverse_perm gs).symm, ?_, ?_⟩
  · rw [List.forall_mem_cons, List.forall_mem_singleton]
    exact ⟨⟨rfl, .flag, rfl, rfl⟩, ⟨rfl, .run, rfl, nofun⟩⟩
  · generalize gs.flatMap Occurrence.tokens = rest
    rfl
  · rintro ⟨r, r', hr, hr', hsame, -⟩
    have hlast : Except.ok false = Except.ok r.ok := congrArg (Except.map Parsed.ok) hr
    have hfirst : Except.ok true = Except.ok r'.ok := congrArg (Except.map Parsed.ok) hr'
    cases (Except.ok.inj hlast).trans (hsame.trans (Except.ok.inj hfirst).symm)

end Rix.Util.ArgumentParser
