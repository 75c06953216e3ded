-- SUMMARY: Where the values that ArgumentParser::get returns come from: the default of an argument, or a command line.
import MBotTeleop.Util.Session

/-!
# Where values come from

A call of `parse` that fails is not undone. What it has read until then stays,
and a vector that could not be read may be empty. But nothing is made up.
-/

namespace Rix.Util

variable {stof : Stof} {args : CString → Option Arg} {arg : Arg} {argv : List CString} {fuel : Nat}
  {c : Cursor}

/-- Consecutive arguments of the command line denote the value. -/
def Value.ReadFrom (stof : Stof) (argv : List CString) (v : Value) : Prop :=
  ∃ strs, strs <:+: argv.drop 1 ∧ v.index.decode stof strs = some v

namespace ArgumentParser

variable {p q : ArgumentParser} {name description : CString} {es : List Use}

/-- A conversion that fails leaves a scalar as it is. -/
theorem parseScalar_failed {α : Type} {conversion : CString → Option α} {value : α} {r : Parsed α}
    (h : detail.parseScalar conversion argv c value = .ok r) (hok : r.ok = false) :
    r.value = value := by
  rw [detail.parseScalar] at h
  split at h
  · cases h
    rfl
  · cases hnext : c.next argv with
    | error fault =>
      rw [hnext] at h
      cases h
    | ok token =>
      rw [hnext] at h
      simp only [bind, Except.bind, pure, Except.pure] at h
      cases hconv : conversion token.1 with
      | none =>
        rw [hconv] at h
        cases h
        rfl
      | some x =>
        rw [hconv] at h
        cases h
        cases hok

theorem vectorLoop_failed {α : Type} {conversion : CString → Option α} {init : α} {values : List α}
    {r : Parsed (List α)} (h : detail.vectorLoop conversion init argv fuel c values = .ok r)
    (hok : r.ok = false) : r.value = [] := by
  induction fuel generalizing c values with
  | zero => cases h
  | succ fuel ih =>
    rw [detail.vectorLoop] at h
    split at h
    · cases hpeek : c.peek argv with
      | error fault =>
        rw [hpeek] at h
        cases h
      | ok token =>
        rw [hpeek] at h
        simp only [bind, Except.bind, pure, Except.pure] at h
        split at h
        · cases h
          cases hok
        · cases hscalar : detail.parseScalar conversion argv token.2 init with
          | error fault =>
            rw [hscalar] at h
            cases h
          | ok r' =>
            rw [hscalar] at h
            simp only at h
            split at h
            · exact ih h
            · cases h
              rfl
    · cases h
      cases hok

/-- A vector that cannot be read is left as it is, or empty. -/
theorem parseVector_failed {α : Type} {conversion : CString → Option α} {init : α} {values : List α}
    {r : Parsed (List α)} (h : detail.parseVector conversion init fuel argv c values = .ok r)
    (hok : r.ok = false) : r.value = values ∨ r.value = [] := by
  rw [detail.parseVector] at h
  split at h
  · cases h
    exact .inl rfl
  · exact .inr (vectorLoop_failed h hok)

theorem parse_failed {T : VariantIndex} {value : T.Carrier} {r : Parsed T.Carrier}
    (h : detail.parse stof fuel argv c T value = .ok r) (hok : r.ok = false) :
    r.value = value ∨ T.decode stof [] = some (T.wrap r.value) := by
  cases T with
  | bool =>
    cases h
    unfold detail.parseBool at hok ⊢
    split
    · exact .inl rfl
    · rename_i hle
      rw [if_neg hle] at hok
      cases hok
  | char | int | double => exact .inl (parseScalar_failed h hok)
  | string =>
    have hscalar : detail.parseScalar some argv c value = .ok r := h
    exact .inl (parseScalar_failed hscalar hok)
  | intVec | doubleVec | stringVec =>
    rcases parseVector_failed h hok with hsame | hempty
    · exact .inl hsame
    · exact .inr (by rw [hempty]; rfl)

theorem parseArg_failed {r : Parsed Arg} (h : parseArg stof fuel argv c arg = .ok r)
    (hok : r.ok = false) : r.value.value = arg.value ∨ r.value.value.ReadFrom stof argv := by
  have hindex := (Arg.shape_eq_iff.mp (parseArg_shape h)).1
  rw [parseArg] at h
  split at h
  · cases h
  · rename_i value hvalue
    cases hparse : detail.parse stof fuel argv c arg.value.index value with
    | error fault =>
      rw [hparse] at h
      cases h
    | ok r' =>
      rw [hparse] at h
      cases h
      rcases parse_failed hparse hok with hsame | hempty
      · exact .inl ((congrArg _ hsame).trans (Value.wrap_get hvalue).symm)
      · exact .inr ⟨[], List.nil_infix, (congrArg (·.decode stof []) hindex).trans hempty⟩

/-- What `parse_arg` leaves of an argument, whatever it returns. -/
theorem parseArg_value (hc : c.Sane argv.length) {r : Parsed Arg}
    (h : parseArg stof (argv.length + 1) argv c arg = .ok r) (hflag : arg.value.index ≠ .bool) :
    r.value.value = arg.value ∨ r.value.value.ReadFrom stof argv := by
  cases hok : r.ok with
  | false => exact parseArg_failed h hok
  | true =>
    right
    obtain ⟨r', hr', -, hresult⟩ := parseArg_spec stof arg hc (Nat.lt_succ_self argv.length)
    obtain rfl := Except.ok.inj (h.symm.trans hr')
    rw [Parsed.result, hok] at hresult
    obtain ⟨strs, value, htake, hassign, hvalue⟩ := readArg_eq_some_iff.mp hresult.symm
    obtain ⟨htokens, -⟩ := Options.take_eq_some_iff.mp htake
    have hindex := (Arg.shape_eq_iff.mp (parseArg_shape h)).1
    rw [Value.assign_of_ne hflag] at hassign
    refine ⟨strs, ?_, ?_⟩
    · have hinfix : strs <:+: argv.drop c.offset := ⟨[], _, htokens.symm⟩
      obtain ⟨n, hn⟩ := Nat.exists_eq_add_of_le hc.pos
      rw [hn, ← List.drop_drop] at hinfix
      exact hinfix.trans (List.drop_suffix n _).isInfix
    · rw [hindex, hassign, hvalue]

/-- The arguments have the defaults that they were added with, or what was read. -/
def Given (stof : Stof) (calls : List AddCall) (argvs : List (List CString))
    (args : CString → Option Arg) : Prop :=
  ∀ n arg, args n = some arg → ∃ call ∈ calls, ∃ arg₀, call.arg = .ok arg₀ ∧ arg₀.name = n ∧
    arg.shape = arg₀.shape ∧ (arg.value.index ≠ .bool →
      arg.value = arg₀.value ∨ ∃ argv ∈ argvs, arg.value.ReadFrom stof argv)

variable {calls : List AddCall} {argvs : List (List CString)}

theorem Given.mono {calls' : List AddCall} {argvs' : List (List CString)}
    (h : Given stof calls argvs args) (hcalls : calls ⊆ calls') (hargvs : argvs ⊆ argvs') :
    Given stof calls' argvs' args := by
  intro n arg harg
  obtain ⟨call, hcall, arg₀, harg₀, hname, hshape, hvalue⟩ := h n arg harg
  refine ⟨call, hcalls hcall, arg₀, harg₀, hname, hshape, fun hflag => ?_⟩
  exact (hvalue hflag).imp_right fun ⟨argv, hargv, hread⟩ => ⟨argv, hargvs hargv, hread⟩

theorem Given.attempt (h : Given stof calls argvs p.args) {call : AddCall} (hcall : call ∈ calls) :
    Given stof calls argvs (p.attempt call).args := by
  cases hsucceeds : call.succeeds with
  | false => rwa [attempt_of_not hsucceeds]
  | true =>
    obtain ⟨arg₀, harg₀⟩ := AddCall.succeeds_iff.mp hsucceeds
    rw [attempt_of_ok harg₀]
    intro n arg harg
    rcases addArg_args_iff.mp harg with hold | ⟨-, rfl, rfl⟩
    · exact h n arg hold
    · exact ⟨call, hcall, arg, harg₀, rfl, rfl, fun _ => .inl rfl⟩

theorem Given.parse (hargv : argv ∈ argvs) : ParsesKeep stof argv (Given stof calls argvs) := by
  intro c args name arg r hc hgiven harg hparse n arg' harg'
  by_cases hn : n = name
  · subst hn
    rw [Function.update_self] at harg'
    obtain rfl := Option.some.inj harg'
    obtain ⟨call, hcall, arg₀, harg₀, hname, hshape, hvalue⟩ := hgiven n arg harg
    have hshape' := parseArg_shape hparse
    have hindex := (Arg.shape_eq_iff.mp hshape').1
    refine ⟨call, hcall, arg₀, harg₀, hname, hshape'.trans hshape, fun hflag => ?_⟩
    rw [hindex] at hflag
    rcases parseArg_value hc hparse hflag with hsame | hread
    · exact hsame ▸ hvalue hflag
    · exact .inr ⟨argv, hargv, hread⟩
  · rw [Function.update_of_ne hn] at harg'
    exact hgiven n arg' harg'

/-- The command lines of a session. -/
def Use.argv? : Use → Option (List CString)
  | add _ => none
  | parse argv => some argv

theorem session_given (hrun : (session stof name description).run es = some q) :
    Given stof (es.filterMap Use.add?) (es.filterMap Use.argv?) q.args := by
  refine (session stof name description).run_invariant
    (I := fun es q => Given stof (es.filterMap Use.add?) (es.filterMap Use.argv?) q.args) ?_ ?_ hrun
  · intro n arg harg
    cases harg
  · intro es q e q' _ hgiven hstep
    have hmono := hgiven.mono
      (List.subset_append_left (es.filterMap Use.add?) ([e].filterMap Use.add?))
      (List.subset_append_left (es.filterMap Use.argv?) ([e].filterMap Use.argv?))
    rw [← List.filterMap_append, ← List.filterMap_append] at hmono
    cases e with
    | add call =>
      cases hstep
      exact hmono.attempt (by simp [Use.add?])
    | parse argv =>
      obtain ⟨hargc, r, hr, rfl⟩ := use_parse_iff.mp hstep
      have hargv : argv ∈ (es ++ [Use.parse argv]).filterMap Use.argv? := by simp [Use.argv?]
      exact ((Given.parse hargv).parse hargc hmono hr).1

/-- `get` makes nothing up. However a parser has been used, and whether its calls
of `parse` returned true or false, a value that is no flag is the one that its
argument was added with, or what consecutive arguments of a command line denote. -/
theorem session_get (hrun : (session stof name description).run es = some q) {T : VariantIndex}
    (hflag : T ≠ .bool) {n : CString} {x : T.Carrier} (hget : q.get T n = some x) :
    ∃ call, .add call ∈ es ∧ ∃ arg, call.arg = .ok arg ∧ arg.name = n ∧ arg.value.index = T ∧
      (arg.value.get T = some x ∨ ∃ argv, .parse argv ∈ es ∧ ∃ strs, strs <:+: argv.drop 1 ∧
        T.decode stof strs = some (T.wrap x)) := by
  obtain ⟨arg, harg, hsome⟩ := Option.bind_eq_some_iff.mp hget
  obtain ⟨call, hcall, arg₀, harg₀, hname, hshape, hvalue⟩ := session_given hrun n arg harg
  have hwrap := Value.wrap_get hsome
  have hindex : arg.value.index = T := by rw [hwrap, VariantIndex.index_wrap]
  have hindex₀ := (Arg.shape_eq_iff.mp hshape).1
  refine ⟨call, ?_, arg₀, harg₀, hname, hindex₀.symm.trans hindex, ?_⟩
  · obtain ⟨e, he, heq⟩ := List.mem_filterMap.mp hcall
    cases e with
    | add call' =>
      cases heq
      exact he
    | parse argv => cases heq
  · rw [hindex] at hvalue
    rcases hvalue hflag with hsame | ⟨argv, hargv, strs, hinfix, hdecode⟩
    · exact .inl (hsame ▸ hsome)
    · right
      rw [hindex, hwrap] at hdecode
      obtain ⟨e, he, heq⟩ := List.mem_filterMap.mp hargv
      cases e with
      | add call => cases heq
      | parse argv' =>
        cases heq
        exact ⟨argv, he, strs, hinfix, hdecode⟩

/-- The value of a parse that returned true, after one that returned false. -/
theorem session_get_failed :
    let es : List Use := [.add (.short (.ofString "count") [] 'c'.toUInt8 (.int 0)),
      .parse (["prog", "-c", "7"].map .ofString), .parse (["prog", "-c", "x"].map .ofString)]
    let seven : BitVec 32 := 7
    let stof : Stof := fun _ => .error .invalidArgument
    ∃ q, (session stof [] []).run es = some q ∧ q.get .int (.ofString "count") = some seven ∧
      ∃ call, .add call ∈ es ∧ ∃ arg, call.arg = .ok arg ∧ arg.name = .ofString "count" ∧
        (arg.value.get .int = some seven ∨
          ∃ argv, .parse argv ∈ es ∧ ∃ strs, strs <:+: argv.drop 1 ∧
            VariantIndex.int.decode stof strs = some (.int seven)) := by
  intro es seven stof
  obtain ⟨q, hrun, hget⟩ : ∃ q, (session stof [] []).run es = some q ∧
      q.get .int (.ofString "count") = some seven := ⟨_, rfl, rfl⟩
  obtain ⟨call, hcall, arg, harg, hname, -, hvalue⟩ := session_get hrun (by decide) hget
  exact ⟨q, hrun, hget, call, hcall, arg, harg, hname, hvalue⟩

end ArgumentParser

end Rix.Util
