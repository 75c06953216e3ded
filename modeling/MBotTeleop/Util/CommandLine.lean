-- SUMMARY: ArgumentParser::parse reads a command line of options, and never reads past it.
import MBotTeleop.Util.Values

/-!
# Command lines

What `parse` makes of the arguments from its offset on: the required ones first,
then occurrences of options until the arguments end.
-/

namespace Rix.Util

open Options (Splits Occurrence positional assignAll)

variable {argv : List CString} {c : Cursor} {str : CString} {rest : List CString}

/-- The tables have the same arguments, of the same types. -/
def SameTypes (args args' : CString → Option Arg) : Prop :=
  ∀ name, (args name).map (·.value.index) = (args' name).map (·.value.index)

section

variable {stof : Stof} {shortToLong : UInt8 → Option CString} {args args' : CString → Option Arg}
  {name : CString} {arg : Arg} {names strs ts : List CString} {value : Value}

theorem grammar_congr (h : SameTypes args args') :
    grammar shortToLong args = grammar shortToLong args' := by
  have harity (name : CString) : (args name).map (fun arg => arg.value.index.arity) =
      (args' name).map fun arg => arg.value.index.arity := by
    simpa only [Option.map_map, Function.comp_def] using congrArg (Option.map VariantIndex.arity) (h name)
  simp only [grammar, harity]

theorem grammar_arity (harg : args name = some arg) :
    (grammar shortToLong args).arity name = some arg.value.index.arity :=
  congrArg (Option.map fun arg : Arg => arg.value.index.arity) harg

theorem assignArg_some (h : arg.value.assign stof strs = some value) :
    assignArg stof name (some arg) strs = some (some { arg with value }) := by
  rw [assignArg, Option.bind_some, h]
  rfl

theorem sameTypes_update (harg : args name = some arg) (h : arg.value.assign stof strs = some value) :
    SameTypes args (Function.update args name (some { arg with value })) := by
  intro name'
  by_cases hname : name' = name
  · subst hname
    rw [Function.update_self, harg]
    exact congrArg some (Value.index_assign h).symm
  · rw [Function.update_of_ne hname]

theorem sameTypes_of_assignAll {as : List (CString × List CString)}
    (h : assignAll (assignArg stof) args as = some args') : SameTypes args args' := by
  induction as generalizing args with
  | nil =>
    cases h
    exact fun _ => rfl
  | cons a as ih =>
    obtain ⟨oarg, hoarg, hrest⟩ := Option.bind_eq_some_iff.mp h
    obtain ⟨arg, harg, hsome⟩ := Option.bind_eq_some_iff.mp hoarg
    obtain ⟨value, hvalue, rfl⟩ := Option.map_eq_some_iff.mp hsome
    exact fun name => (sameTypes_update harg hvalue name).trans (ih hrest name)

/-- What `parse` makes of the required arguments at the front. -/
def readRequired (stof : Stof) (shortToLong : UInt8 → Option CString)
    (args : CString → Option Arg) (names ts : List CString) :
    Option ((CString → Option Arg) × List CString) :=
  (positional (grammar shortToLong args) names ts).bind fun r =>
    (assignAll (assignArg stof) args r.1).map fun args => (args, r.2)

theorem readRequired_eq_some_iff {rest : List CString} :
    readRequired stof shortToLong args names ts = some (args', rest) ↔
      ∃ as, positional (grammar shortToLong args) names ts = some (as, rest) ∧
        assignAll (assignArg stof) args as = some args' := by
  simp only [readRequired, Option.bind_eq_some_iff, Option.map_eq_some_iff, Prod.exists,
    Prod.mk.injEq]
  constructor
  · rintro ⟨as, rest, hpos, args', hassign, rfl, rfl⟩
    exact ⟨as, hpos, hassign⟩
  · rintro ⟨as, hpos, hassign⟩
    exact ⟨as, rest, hpos, args', hassign, rfl, rfl⟩

theorem readRequired_cons (harg : args name = some arg) :
    readRequired stof shortToLong args (name :: names) ts = (readArg stof arg ts).bind fun r =>
      readRequired stof shortToLong (Function.update args name (some r.1)) names r.2 := by
  rw [readRequired, positional, grammar_arity harg, Option.bind_some, readArg]
  change Option.bind ((arg.value.index.arity.take isDash ts).bind _) _ = _
  cases arg.value.index.arity.take isDash ts with
  | none => rfl
  | some r =>
    simp only [Option.bind_some, Option.bind_map, Function.comp_def, assignAll, harg, assignArg]
    cases hvalue : arg.value.assign stof r.1 with
    | none => simp only [Option.bind_none, Option.map_none, Option.bind_fun_none]
    | some value =>
      simp only [Option.bind_some, readRequired, grammar_congr (sameTypes_update harg hvalue)]

theorem parseRequired_spec (stof : Stof) (shortToLong : UInt8 → Option CString)
    {args : CString → Option Arg} {fuel : Nat} (hc : c.Sane argv.length) (hfuel : argv.length < fuel)
    (hnames : ∀ name ∈ names, (args name).isSome) :
    Computes argv (ArgumentParser.parseRequired stof fuel argv names c args)
      (readRequired stof shortToLong args names (argv.drop c.offset)) := by
  induction names generalizing c args with
  | nil => exact ⟨_, rfl, hc, rfl⟩
  | cons name names ih =>
    obtain ⟨arg, harg⟩ := Option.isSome_iff_exists.mp (hnames name List.mem_cons_self)
    rw [readRequired_cons harg, ArgumentParser.parseRequired, harg]
    apply (parseArg_spec stof arg hc hfuel).bind
    intro r hsane _
    apply ih hsane
    intro name' hname'
    by_cases heq : name' = name
    · subst heq
      rw [Function.update_self]
      rfl
    · rw [Function.update_of_ne heq]
      exact hnames name' (List.mem_cons_of_mem name hname')

/-- What `parse` makes of the options after them. -/
def ReadsOptions (stof : Stof) (shortToLong : UInt8 → Option CString)
    (args : CString → Option Arg) (ts : List CString) (args' : CString → Option Arg) : Prop :=
  ∃ os, Splits (grammar shortToLong args) ts os ∧
    assignAll (assignArg stof) args (os.map Occurrence.assignment) = some args'

theorem readsOptions_nil : ReadsOptions stof shortToLong args [] args' ↔ args = args' := by
  constructor
  · rintro ⟨os, hsplits, hassign⟩
    cases hsplits
    exact Option.some.inj hassign
  · rintro rfl
    exact ⟨[], .nil, rfl⟩

theorem readsOptions_cons {token : CString} :
    ReadsOptions stof shortToLong args (token :: ts) args' ↔
      ∃ name arg arg' rest, ArgumentParser.optionName shortToLong token = some name ∧
        args name = some arg ∧ readArg stof arg ts = some (arg', rest) ∧
        ReadsOptions stof shortToLong (Function.update args name (some arg')) rest args' := by
  constructor
  · rintro ⟨os, hsplits, hassign⟩
    obtain ⟨name, a, strs, rest, os', hname, ha, htake, htail, rfl⟩ :=
      Options.splits_cons_iff.mp hsplits
    obtain ⟨arg, harg, rfl⟩ := Option.map_eq_some_iff.mp ha
    obtain ⟨oarg, hoarg, hassign⟩ := Option.bind_eq_some_iff.mp hassign
    obtain ⟨arg₀, harg₀, hsome⟩ := Option.bind_eq_some_iff.mp hoarg
    obtain rfl := Option.some.inj (harg.symm.trans harg₀)
    obtain ⟨value, hvalue, rfl⟩ := Option.map_eq_some_iff.mp hsome
    refine ⟨name, arg, { arg with value }, rest, hname, harg,
      readArg_eq_some_iff.mpr ⟨strs, value, htake, hvalue, rfl⟩, os', ?_, hassign⟩
    rw [← grammar_congr (sameTypes_update harg hvalue)]
    exact htail
  · rintro ⟨name, arg, arg', rest, hname, harg, hread, os', htail, hassign⟩
    obtain ⟨strs, value, htake, hvalue, rfl⟩ := readArg_eq_some_iff.mp hread
    rw [← grammar_congr (sameTypes_update harg hvalue)] at htail
    refine ⟨_, .cons hname (grammar_arity harg) htake htail, ?_⟩
    rw [List.map_cons, Occurrence.assignment, assignAll, harg, assignArg_some hvalue]
    exact hassign

theorem parseOptions_spec (stof : Stof) (shortToLong : UInt8 → Option CString)
    (args : CString → Option Arg) {limit fuel : Nat} (hc : c.Sane argv.length)
    (hlimit : argv.length < limit) (hfuel : (argv.drop c.offset).length < fuel) :
    ∃ r, ArgumentParser.parseOptions stof limit argv shortToLong fuel c args = .ok r ∧
      r.cursor.Sane argv.length ∧
      ∀ args', r.ok = true ∧ r.value = args' ↔
        ReadsOptions stof shortToLong args (argv.drop c.offset) args' := by
  induction fuel generalizing c args with
  | zero => cases hfuel
  | succ fuel ih =>
    cases h : argv.drop c.offset with
    | nil =>
      have hge := Nat.not_lt.mpr (List.drop_eq_nil_iff.mp h)
      refine ⟨⟨true, args, c⟩, if_neg hge, hc, fun args' => ?_⟩
      rw [readsOptions_nil]
      exact and_iff_right rfl
    | cons token rest =>
      obtain ⟨c₁, hnext, hc₁, -, hrest⟩ := c.next_eq hc h
      have hlt : (argv.drop c₁.offset).length < fuel := by
        rw [hrest]
        rw [h] at hfuel
        exact Nat.lt_of_succ_lt_succ hfuel
      simp only [readsOptions_cons]
      rw [ArgumentParser.parseOptions, if_pos (lt_of_drop_eq_cons h), hnext]
      simp only [bind, Except.bind, pure, Except.pure]
      cases hname : ArgumentParser.optionName shortToLong token with
      | none =>
        refine ⟨⟨false, args, c₁⟩, rfl, hc₁, fun args' => ?_⟩
        refine iff_of_false (fun h => Bool.false_ne_true h.1) ?_
        rintro ⟨_, _, _, _, ⟨⟩, -⟩
      | some name =>
        cases harg : args name with
        | none =>
          refine ⟨⟨false, args, c₁⟩, by simp only [harg], hc₁, fun args' => ?_⟩
          refine iff_of_false (fun h => Bool.false_ne_true h.1) ?_
          rintro ⟨_, _, _, _, ⟨⟩, harg', -⟩
          cases harg.symm.trans harg'
        | some arg =>
          obtain ⟨r, hr, hsane, hresult⟩ := parseArg_spec stof arg hc₁ hlimit
          rw [hrest] at hresult
          simp only [harg, hr]
          cases hok : r.ok with
          | false =>
            rw [Parsed.result, hok] at hresult
            refine ⟨_, rfl, hsane, fun args' => ?_⟩
            refine iff_of_false (fun h => Bool.false_ne_true h.1) ?_
            rintro ⟨_, arg₀, _, _, ⟨⟩, harg₀, hread, -⟩
            obtain rfl := Option.some.inj (harg.symm.trans harg₀)
            cases hresult.trans hread
          | true =>
            rw [Parsed.result, hok] at hresult
            obtain ⟨r', hr', hsane', hiff⟩ := ih _ hsane
              (Nat.lt_of_le_of_lt (readArg_length hresult.symm) (hrest ▸ hlt))
            refine ⟨r', hr', hsane', fun args' => (hiff args').trans ⟨fun h => ?_, ?_⟩⟩
            · exact ⟨name, arg, _, _, rfl, harg, hresult.symm, h⟩
            · rintro ⟨_, arg₀, _, _, ⟨⟩, harg₀, hread, h⟩
              obtain rfl := Option.some.inj (harg.symm.trans harg₀)
              cases hresult.trans hread
              exact h

end

-- ---------------------------------------------------------------------------
-- parse
-- ---------------------------------------------------------------------------

namespace ArgumentParser

/-- Every required argument is in the table. -/
def Declared (p : ArgumentParser) : Prop := ∀ name ∈ p.requiredArgNames, (p.args name).isSome

/-- How the parser cuts a command line into occurrences. -/
def grammar (p : ArgumentParser) : Options.Syntax CString CString :=
  Util.grammar p.shortToLong p.args

/-- The arguments after the program's name are the values of the required
arguments, and then these occurrences of options. -/
structure Reads (p : ArgumentParser) (argv : List CString) (as : List (CString × List CString))
    (os : List (Occurrence CString CString)) : Prop where
  enough : p.requiredArgNames.length ≤ argv.length - 1
  cut : ∃ rest, positional p.grammar p.requiredArgNames (argv.drop 1) = some (as, rest) ∧
    Splits p.grammar rest os

/-- The assignments that a reading makes are possible, and leave the table `args`. -/
def Leaves (p : ArgumentParser) (stof : Stof) (as : List (CString × List CString))
    (os : List (Occurrence CString CString)) (args : CString → Option Arg) : Prop :=
  assignAll (assignArg stof) p.args (as ++ os.map Occurrence.assignment) = some args

variable {p : ArgumentParser} {stof : Stof} {as as' : List (CString × List CString)}
  {os os' : List (Occurrence CString CString)}

theorem grammar_sound (p : ArgumentParser) : p.grammar.Sound :=
  Util.grammar_sound p.shortToLong p.args

theorem Reads.unique (h : p.Reads argv as os) (h' : p.Reads argv as' os') : as' = as ∧ os' = os := by
  obtain ⟨rest, hpos, hsplits⟩ := h.cut
  obtain ⟨rest', hpos', hsplits'⟩ := h'.cut
  obtain ⟨rfl, rfl⟩ := Prod.mk.inj (Option.some.inj (hpos.symm.trans hpos'))
  exact ⟨rfl, hsplits'.unique hsplits⟩

theorem Reads.tokens (h : p.Reads argv as os) :
    argv.drop 1 = as.flatMap Prod.snd ++ os.flatMap Occurrence.tokens := by
  obtain ⟨rest, hpos, hsplits⟩ := h.cut
  rw [Options.positional_tokens hpos, ← hsplits.tokens]

/-- Other options, as many tokens, can come after the same required arguments. -/
theorem Reads.congr {prog : CString} {pos : List CString}
    (h : p.Reads (prog :: (pos ++ os.flatMap Occurrence.tokens)) as os)
    (hformed : ∀ o ∈ os', o.Formed p.grammar) (hlast : ¬ Options.EndsEmpty p.grammar os')
    (hlength : (os'.flatMap Occurrence.tokens).length = (os.flatMap Occurrence.tokens).length) :
    p.Reads (prog :: (pos ++ os'.flatMap Occurrence.tokens)) as os' := by
  obtain ⟨rest, hpos, hsplits⟩ := h.cut
  obtain rfl := hsplits.tokens
  refine ⟨?_, _, ?_, Options.splits_of_formed p.grammar_sound hformed hlast⟩
  · have henough := h.enough
    rw [List.length_cons, List.length_append] at henough ⊢
    rwa [hlength]
  · apply Options.positional_congr hpos (Options.stopped_tokens p.grammar_sound hformed)
    rw [← List.length_eq_zero_iff, ← hlength, List.length_eq_zero_iff]

/-- A reading is one of the required arguments, and then one of the options. -/
theorem reads_leaves_iff {args' : CString → Option Arg} :
    (∃ as os, p.Reads argv as os ∧ p.Leaves stof as os args') ↔
      p.requiredArgNames.length ≤ argv.length - 1 ∧ ∃ args rest,
        readRequired stof p.shortToLong p.args p.requiredArgNames (argv.drop 1) =
          some (args, rest) ∧ ReadsOptions stof p.shortToLong args rest args' := by
  constructor
  · rintro ⟨as, os, ⟨henough, rest, hpos, hsplits⟩, hleaves⟩
    rw [Leaves, Options.assignAll_append] at hleaves
    obtain ⟨args, hargs, hassign⟩ := Option.bind_eq_some_iff.mp hleaves
    refine ⟨henough, args, rest, readRequired_eq_some_iff.mpr ⟨as, hpos, hargs⟩, os, ?_, hassign⟩
    rw [← grammar_congr (sameTypes_of_assignAll hargs)]
    exact hsplits
  · rintro ⟨henough, args, rest, hread, os, hsplits, hassign⟩
    obtain ⟨as, hpos, hargs⟩ := readRequired_eq_some_iff.mp hread
    rw [← grammar_congr (sameTypes_of_assignAll hargs)] at hsplits
    refine ⟨as, os, ⟨henough, rest, hpos, hsplits⟩, ?_⟩
    rw [Leaves, Options.assignAll_append, hargs]
    exact hassign

/-- `parse` accepts the command lines that have a reading, where all values can be
converted. -/
theorem parse_spec (stof : Stof) (hp : p.Declared) (hargc : 1 ≤ argv.length) :
    ∃ r, p.parse stof argv = .ok r ∧ r.cursor.Sane argv.length ∧
      ∀ p', r.ok = true ∧ r.value = p' ↔
        ∃ args, (∃ as os, p.Reads argv as os ∧ p.Leaves stof as os args) ∧ p' = { p with args } := by
  have hstart : Cursor.Sane argv.length {} :=
    ⟨Nat.le_refl 1, hargc, List.forall_mem_nil _, List.pairwise_singleton _ _⟩
  simp only [reads_leaves_iff]
  rw [parse]
  by_cases hcount : argv.length - 1 < p.requiredArgNames.length
  · refine ⟨_, if_pos hcount, hstart, fun p' => iff_of_false nofun ?_⟩
    rintro ⟨args, ⟨henough, -⟩, -⟩
    exact Nat.not_lt.mpr henough hcount
  rw [if_neg hcount]
  obtain ⟨r, hr, hsane, hresult⟩ := parseRequired_spec stof p.shortToLong hstart
    (Nat.lt_succ_self argv.length) hp
  have hread : readRequired stof p.shortToLong p.args p.requiredArgNames (argv.drop 1) =
      r.result argv := hresult.symm
  rw [hr]
  simp only [bind, Except.bind, pure, Except.pure, hread]
  cases hok : r.ok with
  | false =>
    refine ⟨_, rfl, hsane, fun p' => iff_of_false nofun ?_⟩
    rintro ⟨_, ⟨-, args, rest, hnone, -⟩, -⟩
    rw [Parsed.result, hok] at hnone
    cases hnone
  | true =>
    have hlt : (argv.drop r.cursor.offset).length < argv.length + 1 := by
      rw [List.length_drop]
      exact Nat.lt_succ_of_le (Nat.sub_le _ _)
    obtain ⟨r', hr', hsane', hiff⟩ := parseOptions_spec stof p.shortToLong r.value hsane
      (Nat.lt_succ_self argv.length) hlt
    simp only [if_pos, hr']
    refine ⟨_, rfl, hsane', fun p' => ?_⟩
    constructor
    · rintro ⟨hok', rfl⟩
      refine ⟨r'.value, ⟨Nat.le_of_not_lt hcount, r.value, _, ?_, (hiff _).mp ⟨hok', rfl⟩⟩, rfl⟩
      rw [Parsed.result, hok]
      rfl
    · rintro ⟨args, ⟨-, args₀, rest, hsome, hoptions⟩, rfl⟩
      rw [Parsed.result, hok] at hsome
      cases hsome
      obtain ⟨hok', rfl⟩ := (hiff args).mpr hoptions
      exact ⟨hok', rfl⟩

/-- An accepted command line has a reading. -/
theorem reads_of_ok (hp : p.Declared) (hargc : 1 ≤ argv.length) {r : Parsed ArgumentParser}
    (hparse : p.parse stof argv = .ok r) (hok : r.ok = true) :
    ∃ as os args, p.Reads argv as os ∧ p.Leaves stof as os args ∧ r.value = { p with args } := by
  obtain ⟨r', hr', -, hiff⟩ := parse_spec stof hp hargc
  obtain rfl := Except.ok.inj (hparse.symm.trans hr')
  obtain ⟨args, ⟨as, os, hreads, hleaves⟩, hvalue⟩ := (hiff r.value).mp ⟨hok, rfl⟩
  exact ⟨as, os, args, hreads, hleaves, hvalue⟩

/-- A command line with a reading is accepted. -/
theorem ok_of_reads {args : CString → Option Arg} (hp : p.Declared) (hargc : 1 ≤ argv.length)
    (hreads : p.Reads argv as os) (hleaves : p.Leaves stof as os args) :
    ∃ r, p.parse stof argv = .ok r ∧ r.ok = true ∧ r.value = { p with args } := by
  obtain ⟨r, hr, -, hiff⟩ := parse_spec stof hp hargc
  obtain ⟨hok, hvalue⟩ := (hiff { p with args }).mpr ⟨args, ⟨as, os, hreads, hleaves⟩, rfl⟩
  exact ⟨r, hr, hok, hvalue⟩

/-! ## Parsers that `add` makes -/

variable {name description : CString} {calls : List AddCall}

theorem built_step {call : AddCall} {p' : ArgumentParser} :
    (built name description).step p call = some p' ↔ ∃ arg, call.arg = .ok arg ∧ p.addArg arg = p' := by
  change (call.arg.map p.addArg).toOption = some p' ↔ _
  cases call.arg with
  | error message => exact iff_of_false nofun nofun
  | ok arg =>
    constructor
    · rintro ⟨⟩
      exact ⟨arg, rfl, rfl⟩
    · rintro ⟨arg', ⟨⟩, rfl⟩
      rfl

theorem addArg_requiredArgNames (p : ArgumentParser) (arg : Arg) :
    (p.addArg arg).requiredArgNames =
      if arg.required then p.requiredArgNames ++ [arg.name] else p.requiredArgNames := rfl

theorem mem_addArg_requiredArgNames {arg : Arg} {n : CString} :
    n ∈ (p.addArg arg).requiredArgNames ↔
      n ∈ p.requiredArgNames ∨ arg.required = true ∧ n = arg.name := by
  rw [addArg_requiredArgNames]
  split <;> rename_i h
  · rw [List.mem_append, List.mem_singleton, and_iff_right h]
  · rw [or_iff_left fun hreq => h hreq.1]

theorem addArg_args (p : ArgumentParser) (arg : Arg) : (p.addArg arg).args =
    if (p.args arg.name).isSome then p.args else Function.update p.args arg.name (some arg) := rfl

theorem addArg_args_self (p : ArgumentParser) (arg : Arg) :
    ((p.addArg arg).args arg.name).isSome := by
  rw [addArg_args]
  split
  · assumption
  · rw [Function.update_self]
    rfl

theorem addArg_args_of_some {name : CString} {arg arg' : Arg} (h : p.args name = some arg') :
    (p.addArg arg).args name = some arg' := by
  rw [addArg_args]
  split
  · exact h
  · rename_i hnone
    have hname : name ≠ arg.name := by
      rintro rfl
      exact hnone (h ▸ rfl)
    rw [Function.update_of_ne hname, h]

theorem declared_built (h : (built name description).run calls = some p) : p.Declared := by
  refine (built name description).run_invariant (I := fun _ p => p.Declared)
    (List.forall_mem_nil _) ?_ h
  intro calls p call p' _ hp hstep name hname
  obtain ⟨arg, -, rfl⟩ := built_step.mp hstep
  rcases mem_addArg_requiredArgNames.mp hname with hname' | ⟨-, rfl⟩
  · obtain ⟨arg', harg'⟩ := Option.isSome_iff_exists.mp (hp name hname')
    rw [addArg_args_of_some harg']
    rfl
  · exact p.addArg_args_self arg

/-- Parsing any command line ends, throws nothing, and stays within `argv`. -/
theorem parse_safe (stof : Stof) (hbuilt : (built name description).run calls = some p)
    (hargc : 1 ≤ argv.length) :
    ∃ r, p.parse stof argv = .ok r ∧ (∀ i ∈ r.cursor.reads, 1 ≤ i ∧ i < argv.length) ∧
      (r.cursor.offset :: r.cursor.past).Pairwise (· ≥ ·) ∧
      ∀ offset ∈ r.cursor.offset :: r.cursor.past, offset ≤ argv.length := by
  obtain ⟨r, hr, hsane, -⟩ := parse_spec stof (declared_built hbuilt) hargc
  refine ⟨r, hr, hsane.reads, hsane.mono, fun offset hoffset => ?_⟩
  rcases List.mem_cons.mp hoffset with rfl | hpast
  · exact hsane.le
  · exact Nat.le_trans ((List.pairwise_cons.mp hsane.mono).1 offset hpast) hsane.le

/-- A required vector takes the first arguments, and a lone dash ends the parse. -/
theorem parse_safe_lone_dash :
    let calls : List AddCall := [.required .intVec (.ofString "nums") [],
      .short (.ofString "verbose") [] 'v'.toUInt8 (.bool false)]
    let argv : List CString := ["prog", "1", "", "-v", "-"].map .ofString
    ∃ p, (built [] []).run calls = some p ∧
      ∃ r, p.parse (fun _ => .error .invalidArgument) argv = .ok r ∧
        (∀ i ∈ r.cursor.reads, 1 ≤ i ∧ i < argv.length) ∧
        (r.cursor.offset :: r.cursor.past).Pairwise (· ≥ ·) ∧
        ∀ offset ∈ r.cursor.offset :: r.cursor.past, offset ≤ argv.length := by
  intro calls argv
  have hbuilt : (built [] []).run calls = some _ := rfl
  exact ⟨_, hbuilt, parse_safe _ hbuilt (by decide)⟩

end ArgumentParser

end Rix.Util
