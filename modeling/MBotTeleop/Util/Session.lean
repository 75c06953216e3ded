-- SUMMARY: An ArgumentParser over its whole life, with calls of add and parse in any order: what a parse leaves for the next one.
import MBotTeleop.Util.Groups
import MBotTeleop.Util.Tables

/-!
# The life of a parser

A parser can be used more than once, and arguments can be added in between. A
call of `parse`, also one that fails, changes the values of arguments and
nothing else, and what it reads depends on no value.
-/

namespace Rix.Util

open Options (Occurrence assignAll valuesOf)

-- ---------------------------------------------------------------------------
-- What parse leaves alone
-- ---------------------------------------------------------------------------

/-- An argument without its value, of which the type remains. -/
def Arg.shape (arg : Arg) : Arg := { arg with value := arg.value.index.init }

/-- The tables have the same arguments, but for their values. -/
def SameShapes (args args' : CString → Option Arg) : Prop :=
  ∀ name, (args' name).map Arg.shape = (args name).map Arg.shape

section

variable {stof : Stof} {args args' : CString → Option Arg} {name : CString} {arg arg' : Arg}
  {argv : List CString} {fuel : Nat} {c : Cursor}

@[simp] theorem VariantIndex.index_init (T : VariantIndex) : T.init.index = T := by cases T <;> rfl

theorem VariantIndex.index_wrap (T : VariantIndex) (value : T.Carrier) : (T.wrap value).index = T := by
  cases T <;> rfl

theorem Value.isSome_get (T : VariantIndex) (v : Value) : (v.get T).isSome = decide (v.index = T) := by
  cases T <;> cases v <;> rfl

theorem Value.wrap_get {v : Value} {T : VariantIndex} {x : T.Carrier} (h : v.get T = some x) :
    v = T.wrap x := by
  cases T <;> cases v <;> cases h <;> rfl

theorem Value.exists_wrap {v : Value} {T : VariantIndex} (h : v.index = T) :
    ∃ x : T.Carrier, v = T.wrap x := by
  subst h
  cases v <;> exact ⟨_, rfl⟩

theorem Arg.shape_eq_iff : arg'.shape = arg.shape ↔
    arg'.value.index = arg.value.index ∧ arg' = { arg with value := arg'.value } := by
  obtain ⟨name, description, value, required, shortName⟩ := arg
  obtain ⟨name', description', value', required', shortName'⟩ := arg'
  simp only [Arg.shape, Arg.mk.injEq, true_and]
  constructor
  · rintro ⟨hname, hdescription, hvalue, hrest⟩
    have hindex := congrArg Value.index hvalue
    simp only [VariantIndex.index_init] at hindex
    exact ⟨hindex, hname, hdescription, hrest⟩
  · rintro ⟨hindex, hname, hdescription, hrest⟩
    exact ⟨hname, hdescription, by rw [hindex], hrest⟩

theorem SameShapes.refl (args : CString → Option Arg) : SameShapes args args := fun _ => rfl

theorem SameShapes.trans {args'' : CString → Option Arg} (h : SameShapes args args')
    (h' : SameShapes args' args'') : SameShapes args args'' := fun name =>
  (h' name).trans (h name)

/-- A name is in both tables or in neither. -/
theorem SameShapes.lookup (h : SameShapes args args') (name : CString) :
    (args name = none ∧ args' name = none) ∨
      ∃ arg arg', args name = some arg ∧ args' name = some arg' ∧ arg'.shape = arg.shape := by
  have hname := h name
  cases harg : args name with
  | none =>
    rw [harg] at hname
    exact .inl ⟨rfl, Option.map_eq_none_iff.mp hname⟩
  | some arg =>
    rw [harg] at hname
    obtain ⟨arg', harg', hshape⟩ := Option.map_eq_some_iff.mp hname
    exact .inr ⟨arg, arg', rfl, harg', hshape⟩

theorem SameShapes.isSome (h : SameShapes args args') (name : CString) :
    (args' name).isSome = (args name).isSome := by
  simpa only [Option.isSome_map] using congrArg Option.isSome (h name)

theorem SameShapes.sameTypes (h : SameShapes args args') : SameTypes args args' := by
  intro name
  have hindex := congrArg (Option.map fun arg : Arg => arg.value.index) (h name)
  simpa only [Option.map_map, Function.comp_def, Arg.shape, VariantIndex.index_init] using hindex.symm

theorem SameShapes.update_both (h : SameShapes args args') (name : CString)
    (hshape : arg'.shape = arg.shape) :
    SameShapes (Function.update args name (some arg)) (Function.update args' name (some arg')) := by
  intro name'
  by_cases hname : name' = name
  · subst hname
    rw [Function.update_self, Function.update_self, Option.map_some, Option.map_some, hshape]
  · rw [Function.update_of_ne hname, Function.update_of_ne hname]
    exact h name'

theorem SameShapes.update (h : args name = some arg) (hshape : arg'.shape = arg.shape) :
    SameShapes args (Function.update args name (some arg')) := by
  intro name'
  by_cases hname : name' = name
  · subst hname
    rw [Function.update_self, h, Option.map_some, Option.map_some, hshape]
  · rw [Function.update_of_ne hname]

namespace ArgumentParser

theorem parseArg_shape {r : Parsed Arg} (h : parseArg stof fuel argv c arg = .ok r) :
    r.value.shape = arg.shape := by
  rw [parseArg] at h
  split at h
  · cases h
  · rename_i value _
    cases hparse : detail.parse stof fuel argv c arg.value.index value with
    | error fault =>
      rw [hparse] at h
      cases h
    | ok r' =>
      rw [hparse] at h
      cases h
      exact Arg.shape_eq_iff.mpr ⟨VariantIndex.index_wrap _ _, rfl⟩

/-! ## What a parse keeps -/

/-- What every value that is parsed keeps of the table. -/
def ParsesKeep (stof : Stof) (argv : List CString) (I : (CString → Option Arg) → Prop) : Prop :=
  ∀ c args name arg r, c.Sane argv.length → I args → args name = some arg →
    parseArg stof (argv.length + 1) argv c arg = .ok r → I (Function.update args name (some r.value))

variable {I : (CString → Option Arg) → Prop}

theorem parseArg_sane (hc : c.Sane argv.length) {r : Parsed Arg}
    (h : parseArg stof (argv.length + 1) argv c arg = .ok r) : r.cursor.Sane argv.length := by
  obtain ⟨r', hr', hsane, -⟩ := parseArg_spec stof arg hc (Nat.lt_succ_self _)
  exact Except.ok.inj (h.symm.trans hr') ▸ hsane

theorem ParsesKeep.required (hkeep : ParsesKeep stof argv I) {names : List CString}
    (hc : c.Sane argv.length) (hI : I args) {r : Parsed (CString → Option Arg)}
    (h : parseRequired stof (argv.length + 1) argv names c args = .ok r) :
    r.cursor.Sane argv.length ∧ I r.value := by
  induction names generalizing c args with
  | nil =>
    cases h
    exact ⟨hc, hI⟩
  | cons name names ih =>
    rw [parseRequired] at h
    cases harg : args name with
    | none =>
      rw [harg] at h
      cases h
    | some arg =>
      simp only [harg] at h
      cases hparse : parseArg stof (argv.length + 1) argv c arg with
      | error fault =>
        rw [hparse] at h
        cases h
      | ok r' =>
        rw [hparse] at h
        have hI' := hkeep c args name arg r' hc hI harg hparse
        have hc' := parseArg_sane hc hparse
        simp only [bind, Except.bind, pure, Except.pure] at h
        split at h
        · exact ih hc' hI' h
        · cases h
          exact ⟨hc', hI'⟩

theorem ParsesKeep.options (hkeep : ParsesKeep stof argv I) {shortToLong : UInt8 → Option CString}
    (hc : c.Sane argv.length) (hI : I args) {r : Parsed (CString → Option Arg)}
    (h : parseOptions stof (argv.length + 1) argv shortToLong fuel c args = .ok r) : I r.value := by
  induction fuel generalizing c args with
  | zero => cases h
  | succ fuel ih =>
    rw [parseOptions] at h
    split at h
    · rename_i hlt
      obtain ⟨c', hnext, hc', -⟩ := c.next_eq hc (List.drop_eq_getElem_cons hlt)
      rw [hnext] at h
      simp only [bind, Except.bind, pure, Except.pure] at h
      split at h
      · cases h
        exact hI
      · rename_i name _
        cases harg : args name with
        | none =>
          simp only [harg] at h
          cases h
          exact hI
        | some arg =>
          simp only [harg] at h
          cases hparse : parseArg stof (argv.length + 1) argv c' arg with
          | error fault =>
            rw [hparse] at h
            cases h
          | ok r' =>
            rw [hparse] at h
            have hI' := hkeep c' args name arg r' hc' hI harg hparse
            simp only at h
            split at h
            · exact ih (parseArg_sane hc' hparse) hI' h
            · cases h
              exact hI'
    · cases h
      exact hI

/-- A parse, whether it returns true or false, changes the table by values that are
parsed, and nothing else. -/
theorem ParsesKeep.parse (hkeep : ParsesKeep stof argv I) (hargc : 1 ≤ argv.length)
    {p : ArgumentParser} (hI : I p.args) {r : Parsed ArgumentParser}
    (h : p.parse stof argv = .ok r) : I r.value.args ∧ r.value = { p with args := r.value.args } := by
  have hstart : Cursor.Sane argv.length {} :=
    ⟨Nat.le_refl 1, hargc, List.forall_mem_nil _, List.pairwise_singleton _ _⟩
  rw [ArgumentParser.parse] at h
  split at h
  · cases h
    exact ⟨hI, rfl⟩
  · cases hrequired : parseRequired stof (argv.length + 1) argv p.requiredArgNames {} p.args with
    | error fault =>
      rw [hrequired] at h
      cases h
    | ok r₁ =>
      obtain ⟨hc, hI₁⟩ := hkeep.required hstart hI hrequired
      simp only [hrequired, bind, Except.bind, pure, Except.pure] at h
      split at h
      · cases hoptions : parseOptions stof (argv.length + 1) argv p.shortToLong (argv.length + 1)
          r₁.cursor r₁.value with
        | error fault =>
          rw [hoptions] at h
          cases h
        | ok r₂ =>
          rw [hoptions] at h
          cases h
          exact ⟨hkeep.options hc hI₁ hoptions, rfl⟩
      · cases h
        exact ⟨hI₁, rfl⟩

/-! ## Parsers that differ in values -/

/-- Two parsers that differ at most in the values of their arguments. -/
structure Alike (p q : ArgumentParser) : Prop where
  name : q.name = p.name
  description : q.description = p.description
  requiredArgNames : q.requiredArgNames = p.requiredArgNames
  shortToLong : q.shortToLong = p.shortToLong
  args : SameShapes p.args q.args

variable {p q : ArgumentParser}

theorem Alike.refl (p : ArgumentParser) : p.Alike p := ⟨rfl, rfl, rfl, rfl, .refl _⟩

theorem Alike.trans {r : ArgumentParser} (h : p.Alike q) (h' : q.Alike r) : p.Alike r :=
  ⟨h'.name.trans h.name, h'.description.trans h.description,
    h'.requiredArgNames.trans h.requiredArgNames, h'.shortToLong.trans h.shortToLong,
    h.args.trans h'.args⟩

theorem parse_alike (hargc : 1 ≤ argv.length) {r : Parsed ArgumentParser}
    (h : p.parse stof argv = .ok r) : p.Alike r.value := by
  have hkeep : ParsesKeep stof argv (SameShapes p.args) := fun _ _ _ _ _ _ hshapes harg hparse =>
    hshapes.trans (.update harg (parseArg_shape hparse))
  obtain ⟨hshapes, hvalue⟩ := hkeep.parse hargc (.refl _) h
  rw [hvalue]
  exact ⟨rfl, rfl, rfl, rfl, hshapes⟩

/-- A call of `add` looks at no value. -/
theorem Alike.attempt (h : p.Alike q) (call : AddCall) : (p.attempt call).Alike (q.attempt call) := by
  cases hsucceeds : call.succeeds with
  | false => rwa [attempt_of_not hsucceeds, attempt_of_not hsucceeds]
  | true =>
    obtain ⟨arg, harg⟩ := AddCall.succeeds_iff.mp hsucceeds
    rw [attempt_of_ok harg, attempt_of_ok harg]
    refine ⟨h.name, h.description, ?_, ?_, fun name => ?_⟩
    · simp only [addArg, h.requiredArgNames]
    · simp only [addArg, h.shortToLong]
    · rw [addArg_args, addArg_args, h.args.isSome]
      split
      · exact h.args name
      · by_cases hname : name = arg.name
        · rw [hname, Function.update_self, Function.update_self]
        · rw [Function.update_of_ne hname, Function.update_of_ne hname]
          exact h.args name

-- ---------------------------------------------------------------------------
-- What depends on no value
-- ---------------------------------------------------------------------------

theorem Alike.declared (h : p.Alike q) (hp : p.Declared) : q.Declared := by
  intro name hmem
  rw [h.args.isSome]
  exact hp name (h.requiredArgNames ▸ hmem)

theorem Alike.grammar (h : p.Alike q) : q.grammar = p.grammar := by
  rw [ArgumentParser.grammar, ArgumentParser.grammar, h.shortToLong,
    grammar_congr h.args.sameTypes]

theorem Alike.reads_iff (h : p.Alike q) {as : List (CString × List CString)}
    {os : List (Occurrence CString CString)} : q.Reads argv as os ↔ p.Reads argv as os := by
  constructor
  · rintro ⟨henough, hcut⟩
    rw [h.requiredArgNames] at henough hcut
    rw [h.grammar] at hcut
    exact ⟨henough, hcut⟩
  · rintro ⟨henough, hcut⟩
    rw [← h.requiredArgNames] at henough hcut
    rw [← h.grammar] at hcut
    exact ⟨henough, hcut⟩

/-- A parser accepts what is cut into occurrences whose values can be converted. -/
theorem parse_ok_iff (hp : p.Declared) (hargc : 1 ≤ argv.length) {r : Parsed ArgumentParser}
    (h : p.parse stof argv = .ok r) : r.ok = true ↔ ∃ as os, p.Reads argv as os ∧
      ∀ a ∈ as ++ os.map Occurrence.assignment, p.Converts stof a := by
  constructor
  · intro hok
    obtain ⟨as, os, args, hreads, hleaves, -⟩ := reads_of_ok hp hargc h hok
    exact ⟨as, os, hreads, leaves_iff_converts.mp ⟨args, hleaves⟩⟩
  · rintro ⟨as, os, hreads, hconverts⟩
    obtain ⟨args, hleaves⟩ := leaves_iff_converts.mpr hconverts
    obtain ⟨r', hr', hok, -⟩ := ok_of_reads hp hargc hreads hleaves
    exact Except.ok.inj (h.symm.trans hr') ▸ hok

/-! ## Parses that differ in values -/

/-- Both throw, or both return the same, with the same offset and the same reads, and
leave values that are related. -/
inductive SameOutcome {α : Type} (R : α → α → Prop) :
    Except Fault (Parsed α) → Except Fault (Parsed α) → Prop where
  | error (fault : Fault) : SameOutcome R (.error fault) (.error fault)
  | ok (success : Bool) (c : Cursor) {v v' : α} (h : R v v') :
    SameOutcome R (.ok ⟨success, v, c⟩) (.ok ⟨success, v', c⟩)

theorem SameOutcome.bind {α β : Type} {R : α → α → Prop} {S : β → β → Prop}
    {x x' : Except Fault (Parsed α)} {f f' : Parsed α → Except Fault (Parsed β)}
    (h : SameOutcome R x x')
    (hf : ∀ success c v v', R v v' → SameOutcome S (f ⟨success, v, c⟩) (f' ⟨success, v', c⟩)) :
    SameOutcome S (x >>= f) (x' >>= f') := by
  cases h with
  | error fault => exact .error fault
  | ok success c hR => exact hf success c _ _ hR

theorem parseScalar_same {α : Type} (conversion : CString → Option α) (value value' : α) :
    SameOutcome (fun _ _ => True) (detail.parseScalar conversion argv c value)
      (detail.parseScalar conversion argv c value') := by
  unfold detail.parseScalar
  split
  · exact .ok _ _ trivial
  · cases c.next argv with
    | error fault => exact .error fault
    | ok next =>
      simp only [bind, Except.bind]
      cases conversion next.1 with
      | none => exact .ok _ _ trivial
      | some value => exact .ok _ _ trivial

/-- The elements that a vector had are cleared before any is read. -/
theorem parseVector_same {α : Type} (conversion : CString → Option α) (init : α)
    (value value' : List α) :
    SameOutcome (fun _ _ => True) (detail.parseVector conversion init fuel argv c value)
      (detail.parseVector conversion init fuel argv c value') := by
  unfold detail.parseVector
  split
  · exact .ok _ _ trivial
  · cases detail.vectorLoop conversion init argv fuel c [] with
    | error fault => exact .error fault
    | ok r => exact .ok r.ok r.cursor trivial

theorem parse_value_same (stof : Stof) (T : VariantIndex) (value value' : T.Carrier) :
    SameOutcome (fun _ _ => True) (detail.parse stof fuel argv c T value)
      (detail.parse stof fuel argv c T value') := by
  cases T with
  | bool =>
    unfold detail.parse detail.parseBool
    split <;> exact .ok _ _ trivial
  | char | int | double => exact parseScalar_same _ value value'
  | string => exact parseScalar_same some value value'
  | intVec | doubleVec | stringVec => exact parseVector_same _ _ value value'

theorem parseArg_wrap {T : VariantIndex} {value : T.Carrier} (h : arg.value = T.wrap value) :
    parseArg stof fuel argv c arg = do
      let r ← detail.parse stof fuel argv c T value
      return ⟨r.ok, { arg with value := T.wrap r.value }, r.cursor⟩ := by
  obtain ⟨name, description, _, required, shortName⟩ := arg
  obtain rfl := h
  cases T <;> rfl

theorem parseArg_same (h : arg'.shape = arg.shape) :
    SameOutcome (fun arg arg' => arg'.shape = arg.shape) (parseArg stof fuel argv c arg)
      (parseArg stof fuel argv c arg') := by
  obtain ⟨hindex, harg'⟩ := Arg.shape_eq_iff.mp h
  obtain ⟨value, hvalue⟩ := Value.exists_wrap (v := arg.value) rfl
  obtain ⟨value', hvalue'⟩ := Value.exists_wrap hindex
  rw [parseArg_wrap hvalue, parseArg_wrap hvalue']
  refine (parse_value_same stof _ value value').bind fun success c v v' _ => .ok success c ?_
  refine Arg.shape_eq_iff.mpr ⟨?_, by rw [harg']⟩
  rw [VariantIndex.index_wrap, VariantIndex.index_wrap]

theorem parseRequired_same {names : List CString} (h : SameShapes args args') :
    SameOutcome SameShapes (parseRequired stof fuel argv names c args)
      (parseRequired stof fuel argv names c args') := by
  induction names generalizing c args args' with
  | nil => exact .ok true c h
  | cons name names ih =>
    rw [parseRequired, parseRequired]
    rcases h.lookup name with ⟨hnone, hnone'⟩ | ⟨arg, arg', harg, harg', hshape⟩
    · rw [hnone, hnone']
      exact .error _
    · rw [harg, harg']
      refine (parseArg_same hshape).bind fun success c arg arg' hshape => ?_
      have hupdate := h.update_both name hshape
      cases success with
      | true => exact ih hupdate
      | false => exact .ok false c hupdate

theorem parseOptions_same {limit : Nat} {shortToLong : UInt8 → Option CString}
    (h : SameShapes args args') :
    SameOutcome SameShapes (parseOptions stof limit argv shortToLong fuel c args)
      (parseOptions stof limit argv shortToLong fuel c args') := by
  induction fuel generalizing c args args' with
  | zero => exact .error _
  | succ fuel ih =>
    rw [parseOptions, parseOptions]
    split
    · cases c.next argv with
      | error fault => exact .error fault
      | ok next =>
        simp only [bind, Except.bind]
        split
        · exact .ok _ _ h
        · rename_i name _
          rcases h.lookup name with ⟨hnone, hnone'⟩ | ⟨arg, arg', harg, harg', hshape⟩
          · rw [hnone, hnone']
            exact .ok _ _ h
          · rw [harg, harg']
            refine (parseArg_same hshape).bind fun success c arg arg' hshape => ?_
            have hupdate := h.update_both name hshape
            cases success with
            | true => exact ih hupdate
            | false => exact .ok false c hupdate
    · exact .ok _ _ h

/-- Whether a parse returns true and what it reads depends on no value. -/
theorem Alike.parse_same (h : p.Alike q) (stof : Stof) (argv : List CString) :
    SameOutcome Alike (p.parse stof argv) (q.parse stof argv) := by
  rw [ArgumentParser.parse, ArgumentParser.parse, h.requiredArgNames, h.shortToLong]
  split
  · exact .ok _ _ h
  · refine (parseRequired_same h.args).bind fun success c args args' hargs => ?_
    cases success with
    | true =>
      exact (parseOptions_same hargs).bind fun success c args args' hargs =>
        .ok success c ⟨h.name, h.description, rfl, rfl, hargs⟩
    | false => exact .ok false c ⟨h.name, h.description, rfl, rfl, hargs⟩

theorem Alike.parse_eq (h : p.Alike q) {r r' : Parsed ArgumentParser}
    (hr : p.parse stof argv = .ok r) (hr' : q.parse stof argv = .ok r') :
    r'.ok = r.ok ∧ r'.cursor = r.cursor := by
  have hsame := h.parse_same stof argv
  rw [hr, hr'] at hsame
  cases hsame
  exact ⟨rfl, rfl⟩

theorem Alike.isSome_get (h : p.Alike q) (T : VariantIndex) (name : CString) :
    (q.get T name).isSome = (p.get T name).isSome := by
  unfold get
  rcases h.args.lookup name with ⟨hnone, hnone'⟩ | ⟨arg, arg', harg, harg', hshape⟩
  · rw [hnone, hnone']
  · rw [harg, harg', Option.bind_some, Option.bind_some, Value.isSome_get, Value.isSome_get,
      (Arg.shape_eq_iff.mp hshape).1]

/-! ## help -/

theorem flatMap_shape (f : Arg → CString) (hf : ∀ arg : Arg, f arg.shape = f arg) {as as' : List Arg}
    (h : as'.map Arg.shape = as.map Arg.shape) : as'.flatMap f = as.flatMap f := by
  have hshape (as : List Arg) : as.flatMap f = (as.map Arg.shape).flatMap f := by
    rw [List.flatMap_map]
    simp only [hf]
  rw [hshape as', h, ← hshape as]

theorem map_shape_cases {x y : Except Fault (List Arg)}
    (h : y.map (List.map Arg.shape) = x.map (List.map Arg.shape)) :
    (∃ fault, x = .error fault ∧ y = .error fault) ∨
      ∃ args args', x = .ok args ∧ y = .ok args' ∧ args'.map Arg.shape = args.map Arg.shape := by
  cases x with
  | error fault =>
    cases y with
    | error fault' =>
      cases h
      exact .inl ⟨fault, rfl, rfl⟩
    | ok args' => cases h
  | ok args =>
    cases y with
    | error fault' => cases h
    | ok args' => exact .inr ⟨args, args', rfl, rfl, Except.ok.inj h⟩

theorem Alike.mapM_argsAt (h : p.Alike q) (names : List CString) :
    (names.mapM q.argsAt).map (List.map Arg.shape) =
      (names.mapM p.argsAt).map (List.map Arg.shape) := by
  induction names with
  | nil => rfl
  | cons name names ih =>
    rw [List.mapM_cons, List.mapM_cons, argsAt, argsAt]
    rcases h.args.lookup name with ⟨hnone, hnone'⟩ | ⟨arg, arg', harg, harg', hshape⟩
    · rw [hnone, hnone']
      rfl
    · rw [harg, harg']
      rcases map_shape_cases ih with ⟨fault, hps, hqs⟩ | ⟨args, args', hps, hqs, hargs⟩
      · rw [hps, hqs]
        rfl
      · rw [hps, hqs]
        simp only [bind, Except.bind, pure, Except.pure, Except.map, List.map_cons, hshape, hargs]

theorem Alike.optional (h : p.Alike q) (order : List CString) :
    ((order.filterMap q.args).filter (!·.required)).map Arg.shape =
      ((order.filterMap p.args).filter (!·.required)).map Arg.shape := by
  have hshape (args : CString → Option Arg) :
      ((order.filterMap args).filter (!·.required)).map Arg.shape =
        (order.filterMap fun name => (args name).map Arg.shape).filter (!·.required) := by
    rw [← List.map_filterMap, List.filter_map]
    rfl
  rw [hshape q.args, hshape p.args]
  simp only [h.args _]

theorem Alike.help (h : p.Alike q) (order : List CString) : q.help order = p.help order := by
  have hmapM := h.mapM_argsAt p.requiredArgNames
  have hoptional := h.optional order
  rw [ArgumentParser.help, ArgumentParser.help, h.name, h.description, h.requiredArgNames]
  rcases map_shape_cases hmapM with ⟨fault, hps, hqs⟩ | ⟨args, args', hps, hqs, hargs⟩
  · rw [hps, hqs]
    rfl
  · rw [hps, hqs]
    simp only [bind, Except.bind, pure, Except.pure]
    rw [flatMap_shape Arg.optUsage (fun _ => rfl) hoptional,
      flatMap_shape Arg.optDescription (fun _ => rfl) hoptional,
      flatMap_shape (fun arg => .ofString " " ++ arg.name) (fun _ => rfl) hargs,
      flatMap_shape (fun arg =>
        .ofString "  " ++ arg.name ++ .ofString " - " ++ arg.description ++ .ofString "\n")
        (fun _ => rfl) hargs]

-- ---------------------------------------------------------------------------
-- Sessions
-- ---------------------------------------------------------------------------

/-- A use of a parser. -/
inductive Use where
  /-- A call of `add`, which may throw. -/
  | add (call : AddCall)
  /-- A call of `parse`, which may return false. -/
  | parse (argv : List CString)

def Use.add? : Use → Option AddCall
  | add call => some call
  | parse _ => none

/-- The parser after a use of it. There is none where `parse` does what it must not
do, and it is not called without the program's name in `argv`. -/
def use (stof : Stof) (p : ArgumentParser) : Use → Option ArgumentParser
  | .add call => some (p.attempt call)
  | .parse argv => if 1 ≤ argv.length then (p.parse stof argv).toOption.map Parsed.value else none

/-- A parser that is used in any order. -/
def session (stof : Stof) (name description : CString) : Machine ArgumentParser Use where
  init := { name, description }
  step := use stof

variable {name description : CString} {es : List Use}

theorem use_parse_iff {p' : ArgumentParser} : p.use stof (.parse argv) = some p' ↔
    1 ≤ argv.length ∧ ∃ r, p.parse stof argv = .ok r ∧ r.value = p' := by
  rw [use]
  split
  · rename_i hargc
    rw [and_iff_right hargc]
    cases p.parse stof argv with
    | error fault =>
      refine iff_of_false (fun h => by cases h) ?_
      rintro ⟨_, ⟨⟩, _⟩
    | ok r =>
      simp only [Except.toOption, Option.map_some, Option.some.injEq, Except.ok.injEq,
        exists_eq_left']
  · rename_i hargc
    exact iff_of_false (fun h => by cases h) fun h => hargc h.1

/-- A session leaves what its calls of `add` alone make, but for values. -/
theorem session_alike (hrun : (session stof name description).run es = some q) :
    ∃ p, (attempts name description).run (es.filterMap Use.add?) = some p ∧ p.Alike q := by
  refine (session stof name description).run_invariant
    (I := fun es q => ∃ p, (attempts name description).run (es.filterMap Use.add?) = some p ∧
      p.Alike q) ⟨_, rfl, .refl _⟩ ?_ hrun
  rintro es q e q' - ⟨p, hp, halike⟩ hstep
  rw [List.filterMap_append]
  cases e with
  | add call =>
    cases hstep
    exact ⟨p.attempt call, (Machine.run_concat _).mpr ⟨p, hp, rfl⟩, halike.attempt call⟩
  | parse argv =>
    obtain ⟨hargc, r, hr, rfl⟩ := use_parse_iff.mp hstep
    refine ⟨p, ?_, halike.trans (parse_alike hargc hr)⟩
    rw [List.filterMap_cons_none rfl, List.filterMap_nil, List.append_nil, hp]

theorem declared_attempts {calls : List AddCall}
    (h : (attempts name description).run calls = some p) : p.Declared :=
  declared_built (built_of_attempts h)

/-- No use of a parser does what it must not do. -/
theorem session_isSome (hargc : ∀ argv, .parse argv ∈ es → 1 ≤ argv.length) :
    ∃ q, (session stof name description).run es = some q := by
  induction es using List.reverseRecOn with
  | nil => exact ⟨_, rfl⟩
  | append_singleton es e ih =>
    obtain ⟨q, hq⟩ := ih fun argv hmem => hargc argv (List.mem_append_left _ hmem)
    suffices ∃ q', q.use stof e = some q' from
      this.imp fun q' hstep => (Machine.run_concat _).mpr ⟨q, hq, hstep⟩
    cases e with
    | add call => exact ⟨q.attempt call, rfl⟩
    | parse argv =>
      obtain ⟨p, hp, halike⟩ := session_alike hq
      have hargv := hargc argv (List.mem_append_right _ List.mem_cons_self)
      obtain ⟨r, hr, -⟩ := parse_spec stof (halike.declared (declared_attempts hp)) hargv
      exact ⟨r.value, use_parse_iff.mpr ⟨hargv, r, hr, rfl⟩⟩

/-- However a parser has been used, parsing any command line ends, throws nothing
and stays within `argv`. What it reads there, also where it returns false, whether
it returns true, which types `get` finds and what `help` says is the same as if it
had never parsed. -/
theorem session_parse (stof : Stof) (name description : CString) {es : List Use}
    (hargc : ∀ argv, .parse argv ∈ es → 1 ≤ argv.length) :
    ∃ p q, (attempts name description).run (es.filterMap Use.add?) = some p ∧
      (session stof name description).run es = some q ∧
      (∀ T n, (q.get T n).isSome = (p.get T n).isSome) ∧
      (∀ order, q.help order = p.help order) ∧
      ∀ argv, 1 ≤ argv.length → ∃ r r', p.parse stof argv = .ok r ∧ q.parse stof argv = .ok r' ∧
        r'.ok = r.ok ∧ r'.cursor.reads = r.cursor.reads ∧
        (∀ i ∈ r'.cursor.reads, 1 ≤ i ∧ i < argv.length) ∧
        ∀ as os, q.Reads argv as os ↔ p.Reads argv as os := by
  obtain ⟨q, hq⟩ := session_isSome hargc
  obtain ⟨p, hp, halike⟩ := session_alike hq
  have hdeclared := declared_attempts hp
  refine ⟨p, q, hp, hq, halike.isSome_get, halike.help, fun argv hargv => ?_⟩
  obtain ⟨r, hr, -⟩ := parse_spec stof hdeclared hargv
  obtain ⟨r', hr', hsane, -⟩ := parse_spec stof (halike.declared hdeclared) hargv
  obtain ⟨hok, hcursor⟩ := halike.parse_eq hr hr'
  exact ⟨r, r', hr, hr', hok, congrArg Cursor.reads hcursor, hsane.reads,
    fun _ _ => halike.reads_iff⟩

/-- The second element of a vector cannot be converted, and the next command line
is accepted as ever. -/
theorem session_parse_failed :
    let es : List Use := [.add (.short (.ofString "nums") [] 'n'.toUInt8 (.intVec [])),
      .parse (["prog", "-n", "1", "x"].map .ofString)]
    let argv : List CString := ["prog", "-n", "7"].map .ofString
    let stof : Stof := fun _ => .error .invalidArgument
    ∃ p q, (attempts [] []).run (es.filterMap Use.add?) = some p ∧
      (session stof [] []).run es = some q ∧
      ∃ r r', p.parse stof argv = .ok r ∧ q.parse stof argv = .ok r' ∧ r'.ok = r.ok := by
  intro es argv stof
  have hargc : ∀ argv', .parse argv' ∈ es → 1 ≤ argv'.length := by
    intro argv' hmem
    simp only [es, List.mem_cons, reduceCtorEq, List.not_mem_nil, false_or, or_false] at hmem
    cases hmem
    decide
  obtain ⟨p, q, hp, hq, -, -, hparse⟩ := session_parse stof [] [] hargc
  obtain ⟨r, r', hr, hr', hok, -⟩ := hparse argv (by decide)
  exact ⟨p, q, hp, hq, r, r', hr, hr', hok⟩

-- ---------------------------------------------------------------------------
-- Several command lines
-- ---------------------------------------------------------------------------

theorem assignAll_of_ok (hp : p.Declared) (hargc : 1 ≤ argv.length) {r : Parsed ArgumentParser}
    (hr : p.parse stof argv = .ok r) (hok : r.ok = true) :
    ∃ as os, p.Reads argv as os ∧
      assignAll (assignArg stof) p.args (as ++ os.map Occurrence.assignment) =
        some r.value.args := by
  obtain ⟨as, os, args, hreads, hleaves, hvalue⟩ := reads_of_ok hp hargc hr hok
  exact ⟨as, os, hreads, by rw [hvalue]; exact hleaves⟩

/-- The command lines that `p` accepts, one after the other, leave what all their
assignments leave together. -/
theorem runFrom_parses (name description : CString) (hp : p.Declared) (halike : p.Alike q) {argvs : List (List CString)}
    (hargc : ∀ argv ∈ argvs, 1 ≤ argv.length)
    (hok : ∀ argv ∈ argvs, ∃ r, p.parse stof argv = .ok r ∧ r.ok = true) :
    ∃ q' rs, (session stof name description).runFrom q (argvs.map .parse) = some q' ∧
      p.Alike q' ∧ List.Forall₂ (fun argv (r : List (CString × List CString) × List (Occurrence CString CString)) =>
        p.Reads argv r.1 r.2) argvs rs ∧
      assignAll (assignArg stof) q.args
        (rs.flatMap fun r => r.1 ++ r.2.map Occurrence.assignment) = some q'.args := by
  induction argvs generalizing q with
  | nil => exact ⟨q, [], rfl, halike, .nil, rfl⟩
  | cons argv argvs ih =>
    rw [List.forall_mem_cons] at hargc hok
    obtain ⟨r, hr, hok'⟩ := hok.1
    have hq := halike.declared hp
    obtain ⟨r', hr', -⟩ := parse_spec stof hq hargc.1
    have hok'' := (halike.parse_eq hr hr').1.trans hok'
    obtain ⟨as, os, hreads, hassign⟩ := assignAll_of_ok hq hargc.1 hr' hok''
    obtain ⟨q', rs, hrun, halike', hrs, hassign'⟩ :=
      ih (halike.trans (parse_alike hargc.1 hr')) hargc.2 hok.2
    refine ⟨q', (as, os) :: rs, ?_, halike', .cons (halike.reads_iff.mp hreads) hrs, ?_⟩
    · have hstep : q.use stof (.parse argv) = some r'.value := use_parse_iff.mpr ⟨hargc.1, r', hr', rfl⟩
      rw [List.map_cons, Machine.runFrom]
      exact Option.bind_eq_some_iff.mpr ⟨r'.value, hstep, hrun⟩
    · rw [List.flatMap_cons, Options.assignAll_append, hassign]
      exact hassign'

/-- A parser may be given several command lines, and accepts each that it would
accept as the first. Of an argument that is no flag the last occurrence in all of
them decides, and each occurrence toggles a flag. -/
theorem parses_meaning (stof : Stof) {calls : List AddCall}
    (hbuilt : (built name description).run calls = some p)
    (hnames : (calls.map AddCall.name).Nodup) (hletters : (calls.filterMap AddCall.letter).Nodup)
    {argvs : List (List CString)} (hargc : ∀ argv ∈ argvs, 1 ≤ argv.length)
    (hok : ∀ argv ∈ argvs, ∃ r, p.parse stof argv = .ok r ∧ r.ok = true) :
    (∀ before argv after, argvs = before ++ argv :: after →
      ∃ q r, (session stof name description).runFrom p (before.map .parse) = some q ∧
        q.parse stof argv = .ok r ∧ r.ok = true) ∧
    ∃ q rs, (session stof name description).runFrom p (argvs.map .parse) = some q ∧
      List.Forall₂ (fun argv (r : List (CString × List CString) × List (Occurrence CString CString)) =>
        p.Reads argv r.1 r.2) argvs rs ∧
      ∀ call ∈ calls, ∃ arg value, call.arg = .ok arg ∧
        arg.value.after stof (valuesOf arg.name
          (rs.flatMap fun r => r.1 ++ r.2.map Occurrence.assignment)) = some value ∧
        ∀ T, q.get T arg.name = value.get T := by
  have hdeclared := declared_built hbuilt
  constructor
  · rintro before argv after rfl
    rw [List.forall_mem_append, List.forall_mem_cons] at hargc hok
    obtain ⟨q, -, hrun, halike, -⟩ := runFrom_parses name description hdeclared (.refl p) hargc.1 hok.1
    obtain ⟨r, hr, hok'⟩ := hok.2.1
    obtain ⟨r', hr', -⟩ := parse_spec stof (halike.declared hdeclared) hargc.2.1
    exact ⟨q, r', hrun, hr', (halike.parse_eq hr hr').1.trans hok'⟩
  · obtain ⟨q, rs, hrun, -, hrs, hassign⟩ := runFrom_parses name description hdeclared (.refl p) hargc hok
    refine ⟨q, rs, hrun, hrs, fun call hcall => ?_⟩
    obtain ⟨arg, harg, hsome⟩ := (registered_built hbuilt hnames hletters).args call hcall
    have hleaves : p.Leaves stof (rs.flatMap fun r => r.1 ++ r.2.map Occurrence.assignment) [] q.args := by
      rw [Leaves, List.map_nil, List.append_nil]
      exact hassign
    obtain ⟨value, hafter, hargs⟩ := hleaves.value hsome
    rw [List.map_nil, List.append_nil] at hafter
    refine ⟨arg, value, harg, hafter, fun T => ?_⟩
    rw [get, hargs]
    rfl

/-- A vector and a flag, given on two command lines: the second vector is there, and
the flag was toggled twice. -/
theorem parses_meaning_twoLines :
    let nums : CString := .ofString "nums"
    let verbose : CString := .ofString "verbose"
    let calls : List AddCall := [.short nums [] 'n'.toUInt8 (.intVec []),
      .short verbose [] 'v'.toUInt8 (.bool false)]
    let first : List CString := ["prog", "-v", "-n", "2", "3"].map .ofString
    let second : List CString := ["prog", "--nums", "4", "-v"].map .ofString
    let stof : Stof := fun _ => .error .invalidArgument
    ∃ p q₁ q₂ r, (built [] []).run calls = some p ∧
      p.Reads first [] [⟨.ofString "-v", verbose, []⟩,
        ⟨.ofString "-n", nums, ["2", "3"].map .ofString⟩] ∧
      p.Reads second [] [⟨.ofString "--nums", nums, ["4"].map .ofString⟩,
        ⟨.ofString "-v", verbose, []⟩] ∧
      (session stof [] []).runFrom p [.parse first] = some q₁ ∧
      q₁.parse stof second = .ok r ∧ r.ok = true ∧
      (session stof [] []).runFrom p [.parse first, .parse second] = some q₂ ∧
      q₂.get .intVec nums = some [4] ∧ q₂.get .bool verbose = some false := by
  intro nums verbose calls first second stof
  obtain ⟨p, hbuilt, hfirst, hsecond, hok⟩ : ∃ p, (built [] []).run calls = some p ∧
      p.Reads first [] [⟨.ofString "-v", verbose, []⟩,
        ⟨.ofString "-n", nums, ["2", "3"].map .ofString⟩] ∧
      p.Reads second [] [⟨.ofString "--nums", nums, ["4"].map .ofString⟩,
        ⟨.ofString "-v", verbose, []⟩] ∧
      ∀ argv ∈ [first, second], ∃ r, p.parse stof argv = .ok r ∧ r.ok = true := by
    refine ⟨_, rfl, ⟨by decide, _, rfl, ?_⟩, ⟨by decide, _, rfl, ?_⟩, ?_⟩
    · exact .cons rfl rfl rfl (.cons rfl rfl rfl .nil)
    · exact .cons rfl rfl rfl (.cons rfl rfl rfl .nil)
    · exact List.forall_mem_cons.mpr ⟨⟨_, rfl, rfl⟩, List.forall_mem_singleton.mpr ⟨_, rfl, rfl⟩⟩
  obtain ⟨haccepts, q₂, rs, hrun, hrs, hvalues⟩ :=
    parses_meaning stof hbuilt (by decide) (by decide) (by decide) hok
  obtain ⟨q₁, r, hrun₁, hr, hok'⟩ := haccepts [first] second [] rfl
  refine ⟨p, q₁, q₂, r, hbuilt, hfirst, hsecond, hrun₁, hr, hok', hrun, ?_⟩
  obtain ⟨⟨as₁, os₁⟩, rest, hreads₁, hrest, rfl⟩ := List.forall₂_cons_left_iff.mp hrs
  obtain ⟨⟨as₂, os₂⟩, end₂, hreads₂, hend, rfl⟩ := List.forall₂_cons_left_iff.mp hrest
  obtain rfl := List.forall₂_nil_left_iff.mp hend
  obtain ⟨rfl, rfl⟩ : as₁ = [] ∧ os₁ = _ := hfirst.unique hreads₁
  obtain ⟨rfl, rfl⟩ : as₂ = [] ∧ os₂ = _ := hsecond.unique hreads₂
  rw [List.forall_mem_cons, List.forall_mem_singleton] at hvalues
  obtain ⟨⟨arg, value, harg, hafter, hget⟩, arg', value', harg', hafter', hget'⟩ := hvalues
  cases harg
  cases harg'
  cases hafter
  cases hafter'
  exact ⟨hget .intVec, (hget' .bool).trans (congrArg some (if_neg (by decide)))⟩

end ArgumentParser

end

end Rix.Util
