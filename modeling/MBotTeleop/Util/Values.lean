-- SUMMARY: The values that ArgumentParser reads for one argument, and how far it reads.
import MBotTeleop.Lib.Options
import MBotTeleop.Util.ArgumentParser

/-!
# The values of an argument

How many tokens belong to an argument and what they denote is a matter of its
type. The functions that parse values take them off the command line one by one,
and access no other.
-/

namespace Rix.Util

-- ---------------------------------------------------------------------------
-- The grammar of a parser
-- ---------------------------------------------------------------------------

/-- `str[0] == '-'` -/
def isDash (str : CString) : Bool := str.head? = some '-'.toUInt8

def VariantIndex.arity : VariantIndex → Options.Arity
  | bool => .flag
  | char | int | double | string => .single
  | intVec | doubleVec | stringVec => .run

/-- The value that the tokens of one occurrence denote. -/
def VariantIndex.decode (stof : Stof) : VariantIndex → List CString → Option Value
  | char, [str] => (detail.convertChar str).map .char
  | int, [str] => (detail.convert stoi str).map .int
  | double, [str] => (detail.convert stof str).map .double
  | string, [str] => some (.string str)
  | intVec, strs => (strs.mapM (detail.convert stoi)).map .intVec
  | doubleVec, strs => (strs.mapM (detail.convert stof)).map .doubleVec
  | stringVec, strs => some (.stringVec strs)
  | _, _ => none

/-- What an occurrence with these tokens makes of a value. -/
def Value.assign (stof : Stof) (v : Value) (strs : List CString) : Option Value :=
  match v with
  | bool b => some (bool !b)
  | v => v.index.decode stof strs

theorem Value.assign_of_ne {stof : Stof} {v : Value} {strs : List CString} (h : v.index ≠ .bool) :
    v.assign stof strs = v.index.decode stof strs := by
  cases v with
  | bool b => exact absurd rfl h
  | _ => rfl

theorem VariantIndex.index_of_decode (stof : Stof) {T : VariantIndex} {v : Value}
    {strs : List CString} (h : T.decode stof strs = some v) : v.index = T := by
  revert h
  unfold decode
  split <;> intro h
  all_goals
    first
    | (obtain ⟨_, -, rfl⟩ := Option.map_eq_some_iff.mp h; rfl)
    | (cases h; rfl)
    | cases h

theorem Value.index_assign {stof : Stof} {v v' : Value} {strs : List CString}
    (h : v.assign stof strs = some v') : v'.index = v.index := by
  cases v with
  | bool b =>
    cases h
    rfl
  | _ => exact VariantIndex.index_of_decode stof h

/-- An assignment to an argument, which there must be. -/
def assignArg (stof : Stof) (_ : CString) (arg : Option Arg) (strs : List CString) :
    Option (Option Arg) :=
  arg.bind fun arg => (arg.value.assign stof strs).map fun value => some { arg with value }

/-- An argument with the value that its tokens give it, and the tokens after them. -/
def readArg (stof : Stof) (arg : Arg) (ts : List CString) : Option (Arg × List CString) :=
  (arg.value.index.arity.take isDash ts).bind fun r =>
    (arg.value.assign stof r.1).map fun value => ({ arg with value }, r.2)

theorem readArg_eq_some_iff {stof : Stof} {arg arg' : Arg} {ts rest : List CString} :
    readArg stof arg ts = some (arg', rest) ↔
      ∃ strs value, arg.value.index.arity.take isDash ts = some (strs, rest) ∧
        arg.value.assign stof strs = some value ∧ arg' = { arg with value } := by
  simp only [readArg, Option.bind_eq_some_iff, Option.map_eq_some_iff, Prod.exists, Prod.mk.injEq]
  constructor
  · rintro ⟨strs, rest, htake, value, hvalue, rfl, rfl⟩
    exact ⟨strs, value, htake, hvalue, rfl⟩
  · rintro ⟨strs, value, htake, hvalue, rfl⟩
    exact ⟨strs, rest, htake, value, hvalue, rfl, rfl⟩

theorem readArg_length {stof : Stof} {arg arg' : Arg} {ts rest : List CString}
    (h : readArg stof arg ts = some (arg', rest)) : rest.length ≤ ts.length := by
  obtain ⟨strs, _, htake, -⟩ := readArg_eq_some_iff.mp h
  obtain ⟨rfl, -⟩ := Options.take_eq_some_iff.mp htake
  rw [List.length_append]
  exact Nat.le_add_left _ _

/-- How the tables of a parser cut a command line into occurrences. -/
def grammar (shortToLong : UInt8 → Option CString) (args : CString → Option Arg) :
    Options.Syntax CString CString where
  key := ArgumentParser.optionName shortToLong
  arity name := (args name).map fun arg => arg.value.index.arity
  stops := isDash

theorem optionName_isDash {shortToLong : UInt8 → Option CString} {token name : CString}
    (h : ArgumentParser.optionName shortToLong token = some name) : isDash token = true := by
  unfold ArgumentParser.optionName at h
  split at h
  · cases h
  · split at h
    · split at h
      · rename_i hhead
        exact decide_eq_true hhead
      · cases h
    · split at h
      · rename_i htake
        cases token with
        | nil => cases htake
        | cons c token =>
          have hc := (List.cons.inj htake).1
          rw [hc]
          rfl
      · cases h

theorem grammar_sound (shortToLong : UInt8 → Option CString) (args : CString → Option Arg) :
    (grammar shortToLong args).Sound := fun _ _ => optionName_isDash

-- ---------------------------------------------------------------------------
-- Cursors
-- ---------------------------------------------------------------------------

/-- All accesses were to arguments after the program's name, and the offset has
never decreased. -/
structure Cursor.Sane (argc : Nat) (c : Cursor) : Prop where
  pos : 1 ≤ c.offset
  le : c.offset ≤ argc
  reads : ∀ i ∈ c.reads, 1 ≤ i ∧ i < argc
  mono : (c.offset :: c.past).Pairwise (· ≥ ·)

variable {argv : List CString} {c : Cursor} {str : CString} {rest : List CString}

theorem lt_of_drop_eq_cons (h : argv.drop c.offset = str :: rest) : c.offset < argv.length := by
  by_contra hge
  rw [List.drop_eq_nil_of_le (Nat.le_of_not_lt hge)] at h
  cases h

theorem getElem?_of_drop_eq_cons (h : argv.drop c.offset = str :: rest) :
    argv[c.offset]? = some str := by
  rw [← List.head?_drop, h]
  rfl

namespace Cursor

theorem Sane.read (hc : c.Sane argv.length) (h : c.offset < argv.length) :
    ∀ i ∈ c.offset :: c.reads, 1 ≤ i ∧ i < argv.length := by
  intro i hi
  rcases List.mem_cons.mp hi with rfl | hi
  · exact ⟨hc.pos, h⟩
  · exact hc.reads i hi

theorem peek_eq (hc : c.Sane argv.length) (h : argv.drop c.offset = str :: rest) :
    ∃ c', c.peek argv = .ok (str, c') ∧ c'.Sane argv.length ∧ c'.offset = c.offset := by
  have hread := hc.read (lt_of_drop_eq_cons h)
  refine ⟨{ c with reads := c.offset :: c.reads }, ?_, ⟨hc.pos, hc.le, hread, hc.mono⟩, rfl⟩
  rw [peek, getElem?_of_drop_eq_cons h]

theorem next_eq (hc : c.Sane argv.length) (h : argv.drop c.offset = str :: rest) :
    ∃ c', c.next argv = .ok (str, c') ∧ c'.Sane argv.length ∧ c'.offset = c.offset + 1 ∧
      argv.drop c'.offset = rest := by
  have hlt := lt_of_drop_eq_cons h
  refine ⟨⟨c.offset + 1, c.offset :: c.past, c.offset :: c.reads⟩, ?_, ?_, rfl, ?_⟩
  · rw [next, getElem?_of_drop_eq_cons h]
  · refine ⟨Nat.le_add_left 1 c.offset, hlt, hc.read hlt, List.pairwise_cons.mpr ⟨?_, hc.mono⟩⟩
    intro i hi
    rcases List.mem_cons.mp hi with rfl | hi
    · exact Nat.le_succ c.offset
    · exact Nat.le_succ_of_le ((List.pairwise_cons.mp hc.mono).1 i hi)
  · rw [← List.drop_drop, h]
    rfl

end Cursor

-- ---------------------------------------------------------------------------
-- Values
-- ---------------------------------------------------------------------------

variable {α : Type}

/-- The value that was parsed, and the arguments that are left. -/
def Parsed.result (argv : List CString) (r : Parsed α) : Option (α × List CString) :=
  if r.ok then some (r.value, argv.drop r.cursor.offset) else none

/-- A call has no fault, and its result is `o`. -/
def Computes (argv : List CString) (x : Except Fault (Parsed α)) (o : Option (α × List CString)) :
    Prop :=
  ∃ r, x = .ok r ∧ r.cursor.Sane argv.length ∧ r.result argv = o

theorem Computes.map {β : Type} {x : Except Fault (Parsed α)} {o : Option (α × List CString)}
    (f : α → β) (h : Computes argv x o) :
    Computes argv (x.map fun r => ⟨r.ok, f r.value, r.cursor⟩) (o.map fun r => (f r.1, r.2)) := by
  obtain ⟨r, rfl, hsane, rfl⟩ := h
  refine ⟨_, rfl, hsane, ?_⟩
  obtain ⟨ok, value, c⟩ := r
  cases ok <;> rfl

/-- A call goes on with the value of another, and fails if that fails. -/
theorem Computes.bind {β : Type} {x : Except Fault (Parsed α)} {o : Option (α × List CString)}
    {f : Parsed α → Except Fault (Parsed β)} {e : Parsed α → β}
    {o' : α × List CString → Option (β × List CString)} (hx : Computes argv x o)
    (hf : ∀ r : Parsed α, r.cursor.Sane argv.length →
      o = some (r.value, argv.drop r.cursor.offset) →
      Computes argv (f r) (o' (r.value, argv.drop r.cursor.offset))) :
    Computes argv (x.bind fun r => if r.ok then f r else .ok ⟨false, e r, r.cursor⟩)
      (o.bind o') := by
  obtain ⟨r, rfl, hsane, rfl⟩ := hx
  cases hok : r.ok with
  | false =>
    have hresult : r.result argv = none := by
      rw [Parsed.result, hok]
      rfl
    refine ⟨⟨false, e r, r.cursor⟩, ?_, hsane, ?_⟩
    · rw [Except.bind, hok]
      rfl
    · rw [hresult]
      rfl
  | true =>
    have hresult : r.result argv = some (r.value, argv.drop r.cursor.offset) := by
      rw [Parsed.result, hok]
      rfl
    have hr := hf r hsane hresult
    rw [Except.bind, hok, hresult]
    exact hr

namespace detail

variable {conversion : CString → Option α} {value : α}

theorem parseScalar_nil (h : argv.drop c.offset = []) :
    parseScalar conversion argv c value = .ok ⟨false, value, c⟩ :=
  if_pos (List.drop_eq_nil_iff.mp h)

theorem parseScalar_cons {c' : Cursor} (h : argv.drop c.offset = str :: rest)
    (hnext : c.next argv = .ok (str, c')) :
    parseScalar conversion argv c value =
      .ok ⟨(conversion str).isSome, (conversion str).getD value, c'⟩ := by
  rw [parseScalar, if_neg (Nat.not_le.mpr (lt_of_drop_eq_cons h)), hnext]
  simp only [bind, Except.bind]
  cases conversion str <;> rfl

theorem parseScalar_spec (conversion : CString → Option α) (value : α) (hc : c.Sane argv.length) :
    Computes argv (parseScalar conversion argv c value)
      ((Options.Arity.single.take isDash (argv.drop c.offset)).bind fun r =>
        (r.1.head?.bind conversion).map fun value => (value, r.2)) := by
  cases h : argv.drop c.offset with
  | nil => exact ⟨_, parseScalar_nil h, hc, rfl⟩
  | cons str rest =>
    obtain ⟨c', hnext, hc', -, rfl⟩ := c.next_eq hc h
    refine ⟨_, parseScalar_cons h hnext, hc', ?_⟩
    simp only [Options.Arity.take, Option.bind_some, List.head?_cons, Parsed.result]
    cases conversion str <;> rfl

theorem parseBool_spec {b : Bool} (hc : c.Sane argv.length) :
    parseBool argv c b = ⟨true, !b, c⟩ :=
  if_neg (Nat.not_lt.mpr hc.le)

/-- The loop takes elements as long as they do not begin with a dash. -/
theorem vectorLoop_spec (conversion : CString → Option α) (init : α) (values : List α) {fuel : Nat}
    (hc : c.Sane argv.length) (hfuel : (argv.drop c.offset).length < fuel) :
    Computes argv (vectorLoop conversion init argv fuel c values)
      ((((argv.drop c.offset).takeWhile (!isDash ·)).mapM conversion).map fun xs =>
        (values ++ xs, (argv.drop c.offset).dropWhile (!isDash ·))) := by
  induction fuel generalizing c values with
  | zero => cases hfuel
  | succ fuel ih =>
    cases h : argv.drop c.offset with
    | nil =>
      have hge := Nat.not_lt.mpr (List.drop_eq_nil_iff.mp h)
      refine ⟨⟨true, values, c⟩, if_neg hge, hc, ?_⟩
      simp only [Parsed.result, if_pos, h, List.takeWhile_nil, List.dropWhile_nil]
      exact congrArg some (Prod.ext (List.append_nil values).symm rfl)
    | cons str rest =>
      obtain ⟨c₁, hpeek, hc₁, hoffset⟩ := c.peek_eq hc h
      rw [← hoffset] at h
      have hloop : vectorLoop conversion init argv (fuel + 1) c values =
          if str.head? = some '-'.toUInt8 then .ok ⟨true, values, c₁⟩
          else (parseScalar conversion argv c₁ init).bind fun r =>
            if r.ok then vectorLoop conversion init argv fuel r.cursor (values ++ [r.value])
            else .ok ⟨false, [], r.cursor⟩ := by
        rw [vectorLoop, if_pos (hoffset ▸ lt_of_drop_eq_cons h), hpeek]
        rfl
      rw [hloop]
      by_cases hdash : str.head? = some '-'.toUInt8
      · have hstop : (!isDash str) = false := by rw [isDash, decide_eq_true hdash]; rfl
        refine ⟨_, if_pos hdash, hc₁, ?_⟩
        simp only [Parsed.result, if_pos, h, List.takeWhile_cons, List.dropWhile_cons, hstop]
        exact congrArg some (Prod.ext (List.append_nil values).symm rfl)
      · have hgo : (!isDash str) = true := by rw [isDash, decide_eq_false hdash]; rfl
        obtain ⟨c₂, hnext, hc₂, hoffset₂, hrest⟩ := c₁.next_eq hc₁ h
        rw [if_neg hdash, parseScalar_cons h hnext]
        simp only [List.takeWhile_cons, List.dropWhile_cons, hgo, if_pos, List.mapM_cons]
        cases hconv : conversion str with
        | none => exact ⟨_, rfl, hc₂, rfl⟩
        | some x =>
          have hlt : (argv.drop c₂.offset).length < fuel := by
            rw [hrest]
            rw [← hoffset, h] at hfuel
            exact Nat.lt_of_succ_lt_succ hfuel
          have htail := ih (values ++ [x]) hc₂ hlt
          rw [hrest] at htail
          refine (Eq.mp ?_ htail)
          congr 1
          simp only [bind, Option.bind_some, pure]
          cases (rest.takeWhile (!isDash ·)).mapM conversion with
          | none => rfl
          | some xs => simp only [Option.map_some, Option.bind_some, List.append_assoc,
              List.singleton_append]

theorem parseVector_spec (conversion : CString → Option α) (init : α) (values : List α) {fuel : Nat}
    (hc : c.Sane argv.length) (hfuel : argv.length < fuel) :
    Computes argv (parseVector conversion init fuel argv c values)
      ((Options.Arity.run.take isDash (argv.drop c.offset)).bind fun r =>
        (r.1.mapM conversion).map fun xs => (xs, r.2)) := by
  cases h : argv.drop c.offset with
  | nil => exact ⟨⟨false, values, c⟩, if_pos (List.drop_eq_nil_iff.mp h), hc, rfl⟩
  | cons str rest =>
    have hlt : (argv.drop c.offset).length < fuel := by
      rw [List.length_drop]
      exact Nat.lt_of_le_of_lt (Nat.sub_le _ _) hfuel
    have hloop := vectorLoop_spec conversion init [] hc hlt
    rw [parseVector, if_neg (Nat.not_le.mpr (lt_of_drop_eq_cons h))]
    rw [h] at hloop
    exact hloop

end detail

section

variable {stof : Stof} {arg : Arg} {v : Value} {init : α}

theorem parseScalar_assign (conversion : CString → Option α) (wrap : α → Value) (value : α) (hc : c.Sane argv.length)
    (hassign : ∀ str, v.assign stof [str] = (conversion str).map wrap) :
    Computes argv ((detail.parseScalar conversion argv c value).map fun r =>
        ⟨r.ok, { arg with value := wrap r.value }, r.cursor⟩)
      ((Options.Arity.single.take isDash (argv.drop c.offset)).bind fun r =>
        (v.assign stof r.1).map fun value => ({ arg with value }, r.2)) := by
  have hspec := (detail.parseScalar_spec conversion value hc).map fun x =>
    { arg with value := wrap x }
  cases h : argv.drop c.offset with
  | nil =>
    rw [h] at hspec
    exact hspec
  | cons str rest =>
    simp only [h, Options.Arity.take, Option.bind_some, List.head?_cons, Option.map_map] at hspec
    simp only [Options.Arity.take, Option.bind_some, hassign, Option.map_map]
    exact hspec

theorem parseVector_assign (conversion : CString → Option α) (wrap : List α → Value)
    (values : List α) {fuel : Nat} (hc : c.Sane argv.length) (hfuel : argv.length < fuel)
    (hassign : ∀ strs, v.assign stof strs = (strs.mapM conversion).map wrap) :
    Computes argv ((detail.parseVector conversion init fuel argv c values).map fun r =>
        ⟨r.ok, { arg with value := wrap r.value }, r.cursor⟩)
      ((Options.Arity.run.take isDash (argv.drop c.offset)).bind fun r =>
        (v.assign stof r.1).map fun value => ({ arg with value }, r.2)) := by
  have hspec := (detail.parseVector_spec conversion init values hc hfuel).map fun xs =>
    { arg with value := wrap xs }
  simp only [Option.map_bind, Function.comp_def, Option.map_map] at hspec
  simp only [hassign, Option.map_map, Function.comp_def]
  exact hspec

end

/-- `parse_arg` takes the values that belong to the type of the argument. -/
theorem parseArg_spec (stof : Stof) (arg : Arg) {fuel : Nat} (hc : c.Sane argv.length)
    (hfuel : argv.length < fuel) :
    Computes argv (ArgumentParser.parseArg stof fuel argv c arg)
      (readArg stof arg (argv.drop c.offset)) := by
  obtain ⟨name, description, value, required, shortName⟩ := arg
  cases value with
  | bool b =>
    refine ⟨_, rfl, ?_⟩
    rw [detail.parseBool_spec hc]
    exact ⟨hc, rfl⟩
  | char ch => exact parseScalar_assign detail.convertChar .char ch hc fun _ => rfl
  | int n => exact parseScalar_assign (detail.convert stoi) .int n hc fun _ => rfl
  | double d => exact parseScalar_assign (detail.convert stof) .double d hc fun _ => rfl
  | string s => exact parseScalar_assign some .string s hc fun _ => rfl
  | intVec ns => exact parseVector_assign (detail.convert stoi) .intVec ns hc hfuel fun _ => rfl
  | doubleVec ds => exact parseVector_assign (detail.convert stof) .doubleVec ds hc hfuel fun _ => rfl
  | stringVec ss =>
    apply parseVector_assign some .stringVec ss hc hfuel
    intro strs
    have hstrs : strs.mapM some = some strs :=
      (List.mapM_pure (f := id)).trans (congrArg some (List.map_id strs))
    exact congrArg (Option.map Value.stringVec) hstrs.symm

end Rix.Util
