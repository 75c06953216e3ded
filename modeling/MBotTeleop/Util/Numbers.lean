-- SUMMARY: Numbers on a command line: how much of a token has to be a number, and which lists of integers can be given to a vector.
import MBotTeleop.Util.Groups
import MBotTeleop.Util.Meaning
import Mathlib.Data.List.Forall2

/-!
# Numbers

`std::stoi` and `std::stof` convert a prefix of a token and report how long it
is. The first character of a token decides whether it belongs to a vector, so
what can be read depends on the sign.
-/

namespace Rix.Util

open Options (Splits Occurrence positional EndsEmpty valuesOf)

-- ---------------------------------------------------------------------------
-- Whole numbers
-- ---------------------------------------------------------------------------

section

variable {α β : Type}

theorem mapM_eq_some_iff {f : α → Option β} {xs : List α} {ys : List β} :
    xs.mapM f = some ys ↔ List.Forall₂ (fun x y => f x = some y) xs ys := by
  induction xs generalizing ys with
  | nil =>
    rw [List.mapM_nil, List.forall₂_nil_left_iff]
    exact ⟨fun h => (Option.some.inj h).symm, fun h => congrArg some h.symm⟩
  | cons x xs ih =>
    rw [List.mapM_cons]
    constructor
    · intro h
      obtain ⟨y, hy, hrest⟩ := Option.bind_eq_some_iff.mp h
      obtain ⟨ys', hys', heq⟩ := Option.bind_eq_some_iff.mp hrest
      obtain rfl := Option.some.inj heq
      exact .cons hy (ih.mp hys')
    · rintro (_ | ⟨hy, hys⟩)
      rw [hy, ih.mpr hys]
      rfl

theorem convert_eq_some_iff {sto : CString → Except ConversionError (α × Nat)} {token : CString}
    {x : α} : detail.convert sto token = some x ↔ ∃ index, sto token = .ok (x, index) := by
  rw [detail.convert]
  cases sto token with
  | error e => cases e <;> exact iff_of_false nofun nofun
  | ok r =>
    constructor
    · rintro ⟨⟩
      exact ⟨r.2, rfl⟩
    · rintro ⟨index, ⟨⟩⟩
      rfl

end

namespace VariantIndex

/-- The length of the number that a token for a number begins with. -/
def numberLength (stof : Stof) : VariantIndex → CString → Option Nat
  | int, token | intVec, token => (stoi token).toOption.map Prod.snd
  | double, token | doubleVec, token => (stof token).toOption.map Prod.snd
  | bool, _ | char, _ | string, _ | stringVec, _ => none

/-- The type is that of a number, or of a vector of numbers. -/
def IsNumber (T : VariantIndex) : Prop := T = int ∨ T = double ∨ T = intVec ∨ T = doubleVec

section

variable {α : Type} {sto : CString → Except ConversionError (α × Nat)}
  {wrap : List α → Value} {tokens : List CString} {token : CString} {v : Value}

theorem length_of_convert {x : α} (h : detail.convert sto token = some x) :
    ∃ index, (sto token).toOption.map Prod.snd = some index := by
  obtain ⟨index, hindex⟩ := convert_eq_some_iff.mp h
  exact ⟨index, by rw [hindex]; rfl⟩

theorem length_of_convertAll (h : (tokens.mapM (detail.convert sto)).map wrap = some v)
    (htoken : token ∈ tokens) : ∃ index, (sto token).toOption.map Prod.snd = some index := by
  obtain ⟨xs, hxs, -⟩ := Option.map_eq_some_iff.mp h
  have hall := mapM_eq_some_iff.mp hxs
  clear hxs h
  induction hall with
  | nil => cases htoken
  | cons hx _ ih =>
    rcases List.mem_cons.mp htoken with rfl | htoken
    · exact length_of_convert hx
    · exact ih htoken

theorem length_of_convertOne {wrap : α → Value}
    (h : (detail.convert sto token).map wrap = some v) :
    ∃ index, (sto token).toOption.map Prod.snd = some index := by
  obtain ⟨x, hx, -⟩ := Option.map_eq_some_iff.mp h
  exact length_of_convert hx

/-- A type that takes one token denotes nothing for another number of them. -/
theorem eq_singleton_of_decode {stof : Stof} {T : VariantIndex} (hT : T.arity = .single)
    (h : T.decode stof tokens = some v) : ∃ str, tokens = [str] := by
  cases T with
  | bool | intVec | doubleVec | stringVec => cases hT
  | char | int | double | string =>
    rcases tokens with _ | ⟨str, _ | ⟨str', tokens⟩⟩
    · cases h
    · exact ⟨str, rfl⟩
    · cases h

/-- Tokens that were converted to numbers begin with numbers. -/
theorem numberLength_of_decode {stof : Stof} {T : VariantIndex} (hT : T.IsNumber)
    (h : T.decode stof tokens = some v) (htoken : token ∈ tokens) :
    ∃ index, T.numberLength stof token = some index := by
  rcases hT with rfl | rfl | rfl | rfl
  · obtain ⟨str, rfl⟩ := eq_singleton_of_decode rfl h
    rw [List.mem_singleton.mp htoken]
    exact length_of_convertOne h
  · obtain ⟨str, rfl⟩ := eq_singleton_of_decode rfl h
    rw [List.mem_singleton.mp htoken]
    exact length_of_convertOne h
  · exact length_of_convertAll h htoken
  · exact length_of_convertAll h htoken

end

end VariantIndex

namespace ArgumentParser

variable {p : ArgumentParser} {stof : Stof} {argv : List CString}

/-- `token` is where the command line has a number of this type. -/
def NumberAt (p : ArgumentParser) (argv : List CString) (T : VariantIndex) (token : CString) : Prop :=
  ∃ as os, p.Reads argv as os ∧ ∃ a ∈ as ++ os.map Occurrence.assignment, ∃ arg ∈ p.args a.1,
    arg.value.index = T ∧ T.IsNumber ∧ token ∈ a.2

theorem numberLength_of_converts {as : List (CString × List CString)}
    {os : List (Occurrence CString CString)} {T : VariantIndex} {token : CString}
    (hreads : p.Reads argv as os)
    (hconverts : ∀ a ∈ as ++ os.map Occurrence.assignment, p.Converts stof a)
    (hat : p.NumberAt argv T token) : ∃ index, T.numberLength stof token = some index := by
  obtain ⟨as', os', hreads', a, ha, arg, harg, rfl, hnumber, htoken⟩ := hat
  obtain ⟨rfl, rfl⟩ := hreads.unique hreads'
  obtain ⟨arg', harg', hsome⟩ := hconverts a ha
  obtain rfl := Option.some.inj (harg.symm.trans harg')
  have hne : arg.value.index ≠ .bool := by
    intro heq
    rw [heq] at hnumber
    rcases hnumber with h | h | h | h <;> cases h
  rw [Value.assign_of_ne hne] at hsome
  obtain ⟨v, hv⟩ := Option.isSome_iff_exists.mp hsome
  exact VariantIndex.numberLength_of_decode hnumber hv htoken

/-- `parse` accepts the command line only if each conversion of a number takes the
whole of its token. -/
def WholeNumbersOnly (p : ArgumentParser) (stof : Stof) (argv : List CString) : Prop :=
  ∀ r, p.parse stof argv = .ok r → r.ok = true →
    ∀ T token, p.NumberAt argv T token → T.numberLength stof token = some token.length

/-- Only whole numbers are accepted iff the command line is rejected anyway, for what
is left out or cannot be converted at all, or no number has characters after it. -/
theorem wholeNumbersOnly_iff {name description : CString} {calls : List AddCall}
    (hbuilt : (built name description).run calls = some p) (hargc : 1 ≤ argv.length) :
    p.WholeNumbersOnly stof argv ↔
      (∀ as os, p.Reads argv as os →
        ∃ a ∈ as ++ os.map Occurrence.assignment, ¬ p.Converts stof a) ∨
      ∀ T token index, p.NumberAt argv T token → T.numberLength stof token = some index →
        index = token.length := by
  have hp := declared_built hbuilt
  constructor
  · intro honly
    by_cases hbad : ∀ as os, p.Reads argv as os →
        ∃ a ∈ as ++ os.map Occurrence.assignment, ¬ p.Converts stof a
    · exact .inl hbad
    push Not at hbad
    obtain ⟨as, os, hreads, hconverts⟩ := hbad
    obtain ⟨args, hleaves⟩ := leaves_iff_converts.mpr hconverts
    obtain ⟨r, hr, hok, -⟩ := ok_of_reads hp hargc hreads hleaves
    refine .inr fun T token index hat hindex => ?_
    exact Option.some.inj (hindex.symm.trans (honly r hr hok T token hat))
  · intro hcond r hr hok T token hat
    obtain ⟨as, os, args, hreads, hleaves, -⟩ := reads_of_ok hp hargc hr hok
    have hconverts := leaves_iff_converts.mp ⟨args, hleaves⟩
    rcases hcond with hbad | hwhole
    · obtain ⟨a, ha, hnot⟩ := hbad as os hreads
      exact absurd (hconverts a ha) hnot
    · obtain ⟨index, hindex⟩ := numberLength_of_converts hreads hconverts hat
      rw [hindex, hwhole T token index hat hindex]

/-- The call of `add` for an `int`. -/
def oneCount : List AddCall := [.short (.ofString "count") [] 'c'.toUInt8 (.int 0)]

theorem wholeNumbersOnly_iff_oneCount :
    let argv : List CString := ["prog", "-c", "12"].map .ofString
    let stof : Stof := fun _ => .error .invalidArgument
    ∃ p, (built [] []).run oneCount = some p ∧
      (p.WholeNumbersOnly stof argv ↔
        (∀ as os, p.Reads argv as os →
          ∃ a ∈ as ++ os.map Occurrence.assignment, ¬ p.Converts stof a) ∨
        ∀ T token index, p.NumberAt argv T token → T.numberLength stof token = some index →
          index = token.length) := by
  intro argv stof
  have hbuilt : (built [] []).run oneCount = some _ := rfl
  exact ⟨_, hbuilt, wholeNumbersOnly_iff hbuilt (by decide)⟩

/-- `-c 12abc` is accepted, and sets `count` to 12. -/
theorem not_wholeNumbersOnly_12abc :
    let argv : List CString := ["prog", "-c", "12abc"].map .ofString
    let stof : Stof := fun _ => .error .invalidArgument
    ∃ p, (built [] []).run oneCount = some p ∧ ¬ p.WholeNumbersOnly stof argv := by
  intro argv stof
  refine ⟨_, rfl, fun h => absurd (h _ rfl rfl .int (.ofString "12abc") ?_) (by decide)⟩
  exact ⟨[], [⟨.ofString "-c", .ofString "count", [.ofString "12abc"]⟩],
    ⟨by decide, _, rfl, .cons rfl rfl rfl .nil⟩, (.ofString "count", [.ofString "12abc"]),
    List.mem_cons_self, _, rfl, rfl, .inl rfl, List.mem_cons_self⟩

end ArgumentParser

-- ---------------------------------------------------------------------------
-- The texts of integers
-- ---------------------------------------------------------------------------

/-- The decimal text of an `int`. -/
def decimal (n : BitVec 32) : CString :=
  if n.toInt < 0 then '-'.toUInt8 :: Numeral.numeral n.toInt.natAbs
  else Numeral.numeral n.toInt.natAbs

section

variable {c : UInt8} {n : BitVec 32} {m : Nat}

theorem not_isspace_of_isDigit (h : Numeral.isDigit c = true) : isspace c = false := by
  simp only [Numeral.isDigit, decide_eq_true_eq, UInt8.le_iff_toNat_le] at h
  simp only [isspace, decide_eq_false_iff_not, UInt8.le_iff_toNat_le, ← UInt8.toNat_inj]
  have hzero : ('0'.toUInt8).toNat = 48 := rfl
  have hspace : (' '.toUInt8).toNat = 32 := rfl
  have htab : (9 : UInt8).toNat = 9 := rfl
  have hreturn : (13 : UInt8).toNat = 13 := rfl
  omega

theorem not_sign_of_isDigit (h : Numeral.isDigit c = true) :
    ¬ (c = '-'.toUInt8 ∨ c = '+'.toUInt8) := by
  rintro (rfl | rfl) <;> exact absurd h (by decide)

theorem exists_cons_numeral (m : Nat) :
    ∃ c s, Numeral.numeral m = c :: s ∧ Numeral.isDigit c = true := by
  obtain ⟨c, s, hcons⟩ := List.exists_cons_of_length_pos (Numeral.length_numeral_pos m)
  exact ⟨c, s, hcons, Numeral.isDigit_of_mem_numeral (hcons ▸ List.mem_cons_self)⟩

theorem takeWhile_numeral (m : Nat) :
    (Numeral.numeral m).takeWhile Numeral.isDigit = Numeral.numeral m :=
  List.takeWhile_eq_self_iff.mpr fun _ hc => Numeral.isDigit_of_mem_numeral hc

theorem isDash_decimal (n : BitVec 32) : isDash (decimal n) = decide (n.toInt < 0) := by
  unfold decimal
  split
  · rename_i hn
    rw [decide_eq_true hn]
    rfl
  · rename_i hn
    obtain ⟨c, s, hcons, hc⟩ := exists_cons_numeral n.toInt.natAbs
    rw [decide_eq_false hn, hcons, isDash, List.head?_cons, decide_eq_false_iff_not]
    exact fun heq => not_sign_of_isDigit hc (.inl (Option.some.inj heq))

/-- `std::stoi` of a sign and a numeral, for a number that is in range. -/
theorem stoi_signed (sign : CString) {s : CString} {n : BitVec 32}
    (hspace : isspace c = false) (hstr : c :: s = sign ++ Numeral.numeral m)
    (hsign : splitSign (c :: s) = (sign, Numeral.numeral m))
    (hn : (if sign = ['-'.toUInt8] then -(m : Int) else m) = n.toInt) :
    stoi (c :: s) = .ok (n, (c :: s).length) := by
  have hne : Numeral.numeral m ≠ [] := List.ne_nil_of_length_pos (Numeral.length_numeral_pos m)
  have hlow := BitVec.le_toInt n
  have hhigh := BitVec.toInt_lt (x := n)
  have hrange : ¬ (n.toInt < -2 ^ 31 ∨ 2 ^ 31 ≤ n.toInt) := by omega
  have hlength : sign.length + (Numeral.numeral m).length = (c :: s).length := by
    rw [hstr, List.length_append]
  have hblanks : (c :: s).takeWhile isspace = [] := by
    rw [List.takeWhile_cons, hspace]
    rfl
  have hrest : (c :: s).dropWhile isspace = c :: s := by
    rw [List.dropWhile_cons, hspace]
    rfl
  simp only [stoi, hblanks, hrest, hsign, takeWhile_numeral, Numeral.value_numeral, hn, if_neg hne,
    if_neg hrange, BitVec.ofInt_toInt, List.length_nil, Nat.zero_add, hlength]

/-- `std::stoi` reads the text of every `int` back, to its end. -/
theorem stoi_decimal (n : BitVec 32) : stoi (decimal n) = .ok (n, (decimal n).length) := by
  unfold decimal
  split
  · rename_i hn
    apply stoi_signed ['-'.toUInt8] (by decide) rfl rfl
    rw [if_pos rfl]
    omega
  · rename_i hn
    obtain ⟨c, s, hcons, hc⟩ := exists_cons_numeral n.toInt.natAbs
    rw [hcons]
    apply stoi_signed [] (not_isspace_of_isDigit hc) hcons.symm
    · rw [splitSign, if_neg (not_sign_of_isDigit hc), hcons]
    · rw [if_neg (by decide)]
      omega

theorem decode_decimal (stof : Stof) (ns : List (BitVec 32)) :
    VariantIndex.intVec.decode stof (ns.map decimal) = some (.intVec ns) := by
  have hns : (ns.map decimal).mapM (detail.convert stoi) = some ns := by
    rw [mapM_eq_some_iff, List.forall₂_map_left_iff, List.forall₂_same]
    exact fun n _ => convert_eq_some_iff.mpr ⟨_, stoi_decimal n⟩
  exact congrArg (Option.map Value.intVec) hns

theorem length_of_decode_intVec {stof : Stof} {tokens : List CString} {ns : List (BitVec 32)}
    (h : VariantIndex.intVec.decode stof tokens = some (.intVec ns)) : tokens.length = ns.length := by
  obtain ⟨ns', hns', heq⟩ := Option.map_eq_some_iff.mp h
  obtain rfl := Value.intVec.inj heq
  exact (mapM_eq_some_iff.mp hns').length_eq

end

-- ---------------------------------------------------------------------------
-- Vectors of integers
-- ---------------------------------------------------------------------------

namespace ArgumentParser

variable {p : ArgumentParser} {stof : Stof} {prog token name : CString} {pos : List CString}
  {as : List (CString × List CString)} {ns : List (BitVec 32)}
  {gs os : List (Occurrence CString CString)}

/-- The arguments after the program's name: the required part, the option with the
texts of its elements, and other options. -/
def vectorLine (pos : List CString) (token : CString) (ns : List (BitVec 32))
    (gs : List (Occurrence CString CString)) : List CString :=
  pos ++ (token :: ns.map decimal ++ gs.flatMap Occurrence.tokens)

/-- A command line gives the elements `ns` to the vector `name`, and whatever else it
has is valid. -/
structure GivesVector (p : ArgumentParser) (stof : Stof) (pos : List CString)
    (as : List (CString × List CString)) (token name : CString) (ns : List (BitVec 32))
    (gs : List (Occurrence CString CString)) : Prop where
  names : optionName p.shortToLong token = some name
  vector : ∃ arg, p.args name = some arg ∧ arg.value.index = .intVec
  required : positional p.grammar p.requiredArgNames (vectorLine pos token ns gs) =
    some (as, token :: ns.map decimal ++ gs.flatMap Occurrence.tokens)
  enough : p.requiredArgNames.length ≤ (vectorLine pos token ns gs).length
  others : ∀ g ∈ gs, g.Formed p.grammar ∧ g.key ≠ name
  last : ¬ EndsEmpty p.grammar gs
  converts : ∀ a ∈ as ++ gs.map Occurrence.assignment, p.Converts stof a

/-- `parse` returns true, and `get` yields the elements. -/
def VectorSurvives (p : ArgumentParser) (stof : Stof) (argv : List CString) (name : CString)
    (ns : List (BitVec 32)) : Prop :=
  ∃ r, p.parse stof argv = .ok r ∧ r.ok = true ∧ r.value.get .intVec name = some ns

theorem GivesVector.arity (h : p.GivesVector stof pos as token name ns gs) :
    p.grammar.arity name = some .run := by
  obtain ⟨arg, harg, hindex⟩ := h.vector
  have harity : p.grammar.arity name = some arg.value.index.arity := grammar_arity harg
  rw [harity, hindex]
  rfl

theorem GivesVector.formed (h : p.GivesVector stof pos as token name ns gs)
    (hns : ∀ n ∈ ns, 0 ≤ n.toInt) :
    ∀ g ∈ ⟨token, name, ns.map decimal⟩ :: gs, g.Formed p.grammar := by
  refine List.forall_mem_cons.mpr ⟨⟨h.names, .run, h.arity, ?_⟩, fun g hg => (h.others g hg).1⟩
  intro t ht
  obtain ⟨n, hn, rfl⟩ := List.mem_map.mp ht
  exact (isDash_decimal n).trans (decide_eq_false (Int.not_lt.mpr (hns n hn)))

theorem GivesVector.convertsAll (h : p.GivesVector stof pos as token name ns gs) :
    ∀ a ∈ as ++ (name, ns.map decimal) :: gs.map Occurrence.assignment, p.Converts stof a := by
  intro a ha
  rw [List.mem_append, List.mem_cons] at ha
  rcases ha with ha | rfl | ha
  · exact h.converts a (List.mem_append_left _ ha)
  · obtain ⟨arg, harg, hindex⟩ := h.vector
    refine ⟨arg, harg, ?_⟩
    rw [Value.assign_of_ne (by rw [hindex]; exact nofun), hindex, decode_decimal]
    rfl
  · exact h.converts a (List.mem_append_right _ ha)

theorem GivesVector.valuesOf_others (h : p.GivesVector stof pos as token name ns gs) :
    valuesOf name (gs.map Occurrence.assignment) = [] := by
  apply Options.valuesOf_eq_nil
  intro a ha
  obtain ⟨g, hg, rfl⟩ := List.mem_map.mp ha
  exact (h.others g hg).2

/-- The last occurrence of a vector decides what `get` yields. -/
theorem get_intVec_iff {r : Parsed ArgumentParser} {args : CString → Option Arg} {arg : Arg}
    {tokens : List CString} (hleaves : p.Leaves stof as os args) (hr : r.value = { p with args })
    (harg : p.args name = some arg) (hindex : arg.value.index = .intVec)
    (hlast : (valuesOf name (as ++ os.map Occurrence.assignment)).getLast? = some tokens) :
    r.value.get .intVec name = some ns ↔
      VariantIndex.intVec.decode stof tokens = some (.intVec ns) := by
  obtain ⟨value, hafter, hargs⟩ := hleaves.value harg
  rw [Value.after_of_ne (by rw [hindex]; exact nofun), hlast, hindex] at hafter
  have hdecode : VariantIndex.intVec.decode stof tokens = some value := hafter
  have hget : r.value.get .intVec name = value.get .intVec := by
    rw [get, hr]
    exact congrArg (fun oarg : Option Arg => oarg.bind fun arg => arg.value.get .intVec) hargs
  rw [hget, hdecode, Option.some.injEq]
  have hvalue := VariantIndex.index_of_decode stof hdecode
  cases value with
  | intVec ns' => rw [Value.intVec.injEq]; exact Option.some_inj
  | _ => cases hvalue

/-- Elements that are not negative are read as one run. -/
theorem survives_of_nonneg (hp : p.Declared) (h : p.GivesVector stof pos as token name ns gs)
    (hne : ns ≠ []) (hns : ∀ n ∈ ns, 0 ≤ n.toInt) :
    p.VectorSurvives stof (prog :: vectorLine pos token ns gs) name ns := by
  obtain ⟨arg, harg, hindex⟩ := h.vector
  obtain ⟨r, hr, hok, hvalue⟩ := parse_groups stof prog hp (h.formed hns) h.required
  have htexts : ns.map decimal ≠ [] := fun hnil => hne (List.map_eq_nil_iff.mp hnil)
  have htrue := hok.mpr ⟨Options.not_endsEmpty_cons htexts h.last, h.enough, h.convertsAll⟩
  obtain ⟨args, hleaves, hargs⟩ := hvalue htrue
  refine ⟨r, hr, htrue, (get_intVec_iff hleaves hargs harg hindex ?_).mpr (decode_decimal stof ns)⟩
  rw [List.map_cons, Occurrence.assignment, Options.valuesOf_append, Options.valuesOf_cons_self,
    h.valuesOf_others, List.getLast?_concat]

/-- Where an element is negative, no run that is read is as long as the list. -/
theorem GivesVector.run_lt {tokens : List CString} (h : p.GivesVector stof pos as token name ns gs)
    (hsplits : Splits p.grammar (token :: ns.map decimal ++ gs.flatMap Occurrence.tokens) os)
    {n : BitVec 32} (hmem : n ∈ ns) (hn : n.toInt < 0) (htokens : tokens ∈ valuesOf name (os.map Occurrence.assignment)) :
    tokens.length < ns.length := by
  obtain ⟨k, a, vs, rest, os', hkey, ha, htake, htail, rfl⟩ := Options.splits_cons_iff.mp hsplits
  obtain rfl : name = k := Option.some.inj (h.names.symm.trans hkey)
  obtain rfl := Option.some.inj (h.arity.symm.trans ha)
  obtain ⟨heq, hrun, -⟩ := Options.take_eq_some_iff.mp htake
  have hothers : ∀ g ∈ gs, g.Formed p.grammar := fun g hg => (h.others g hg).1
  -- the first run ends before the negative element
  have hnot : decimal n ∉ vs := fun hvs =>
    nomatch (hrun _ hvs).symm.trans ((isDash_decimal n).trans (decide_eq_true hn))
  have htext : decimal n ∈ ns.map decimal := List.mem_map_of_mem hmem
  obtain ⟨us, htexts, rfl⟩ : ∃ us, ns.map decimal = vs ++ us ∧
      us ++ gs.flatMap Occurrence.tokens = rest := by
    rcases List.append_eq_append_iff.mp heq with ⟨us, rfl, -⟩ | ⟨us, htexts, hrest⟩
    · exact absurd (List.mem_append_left us htext) hnot
    · exact ⟨us, htexts, hrest.symm⟩
  have hus : decimal n ∈ us := (List.mem_append.mp (htexts ▸ htext)).resolve_left hnot
  have hpos : 0 < us.length := List.length_pos_of_mem hus
  have hlength : ns.length = vs.length + us.length := by
    rw [← List.length_map (f := decimal), htexts, List.length_append]
  rw [List.map_cons, Occurrence.assignment, Options.valuesOf_cons_self, List.mem_cons] at htokens
  rcases htokens with rfl | htokens
  · omega
  · -- a later run is found among the texts that are left, or is empty
    obtain ⟨o, ho, hassign⟩ := List.mem_map.mp (Options.mem_valuesOf.mp htokens)
    obtain ⟨rfl, rfl⟩ := Prod.mk.inj hassign
    obtain ⟨hname, a, ha', hfits⟩ := htail.formed o ho
    obtain rfl := Option.some.inj (ha.symm.trans ha')
    obtain ⟨pre, post, heq'⟩ := htail.exists_append ho
    rcases Options.run_lt_or_nil p.grammar_sound hothers (fun g hg => (h.others g hg).2) hname hfits
      heq' with hlt | hnil
    · omega
    · rw [hnil, List.length_nil]
      omega

theorem nonneg_of_survives (hp : p.Declared) (h : p.GivesVector stof pos as token name ns gs)
    (hsurvives : p.VectorSurvives stof (prog :: vectorLine pos token ns gs) name ns) :
    ∀ n ∈ ns, 0 ≤ n.toInt := by
  obtain ⟨arg, harg, hindex⟩ := h.vector
  obtain ⟨r, hr, hok, hget⟩ := hsurvives
  have hargc : 1 ≤ (prog :: vectorLine pos token ns gs).length := Nat.le_add_left 1 _
  obtain ⟨as', os, args, hreads, hleaves, hargs⟩ := reads_of_ok hp hargc hr hok
  obtain ⟨rest, hpos, hsplits⟩ := hreads.cut
  obtain ⟨rfl, rfl⟩ := Prod.mk.inj (Option.some.inj (h.required.symm.trans hpos))
  -- the option occurs, so its last occurrence is one of the options
  have hne : valuesOf name (os.map Occurrence.assignment) ≠ [] := by
    obtain ⟨k, _, vs, _, os', hkey, -, -, -, rfl⟩ := Options.splits_cons_iff.mp hsplits
    obtain rfl : name = k := Option.some.inj (h.names.symm.trans hkey)
    rw [List.map_cons, Occurrence.assignment, Options.valuesOf_cons_self]
    exact List.cons_ne_nil _ _
  have hlast : (valuesOf name (as ++ os.map Occurrence.assignment)).getLast? =
      some ((valuesOf name (os.map Occurrence.assignment)).getLast hne) := by
    rw [Options.valuesOf_append, List.getLast?_append_of_ne_nil _ hne, List.getLast?_eq_some_getLast hne]
  have hdecode := (get_intVec_iff hleaves hargs harg hindex hlast).mp hget
  intro n hn
  by_contra hneg
  exact absurd (length_of_decode_intVec hdecode)
    (h.run_lt hsplits hn (Int.not_le.mp hneg) (List.getLast_mem hne)).ne

/-- A vector of integers survives the command line iff none of them is negative. -/
theorem vectorSurvives_iff {parserName description : CString} {calls : List AddCall}
    (hbuilt : (built parserName description).run calls = some p)
    (h : p.GivesVector stof pos as token name ns gs) (hne : ns ≠ []) :
    p.VectorSurvives stof (prog :: vectorLine pos token ns gs) name ns ↔ ∀ n ∈ ns, 0 ≤ n.toInt :=
  ⟨nonneg_of_survives (declared_built hbuilt) h, survives_of_nonneg (declared_built hbuilt) h hne⟩

theorem vectorSurvives_iff_flagAndVector :
    let stof : Stof := fun _ => .error .invalidArgument
    let gs : List (Occurrence CString CString) := [⟨.ofString "-v", .ofString "verbose", []⟩]
    ∃ p, (built [] []).run flagAndVector = some p ∧
      (p.VectorSurvives stof ([] :: vectorLine [] (.ofString "-n") [7, 12] gs) (.ofString "nums")
        [7, 12] ↔ ∀ n ∈ [(7 : BitVec 32), 12], 0 ≤ n.toInt) := by
  intro stof gs
  have hbuilt : (built [] []).run flagAndVector = some _ := rfl
  refine ⟨_, hbuilt, vectorSurvives_iff hbuilt (?_ : GivesVector _ stof [] [] _ _ _ gs)
    (List.cons_ne_nil _ _)⟩
  refine ⟨rfl, ⟨_, rfl, rfl⟩, ?_, Nat.zero_le _, ?_, ?_, ?_⟩
  · rw [vectorLine]
    generalize gs.flatMap Occurrence.tokens = rest
    rfl
  · exact List.forall_mem_singleton.mpr ⟨⟨rfl, .flag, rfl, rfl⟩, by decide⟩
  · rintro ⟨g, hg, harity, -⟩
    cases hg
    cases harity
  · exact List.forall_mem_singleton.mpr ⟨_, rfl, rfl⟩

/-- `-n 1 -5` is rejected: there is no option `-5`. -/
theorem not_vectorSurvives_negative :
    let stof : Stof := fun _ => .error .invalidArgument
    ∃ p, (built [] []).run flagAndVector = some p ∧
      p.GivesVector stof [] [] (.ofString "-n") (.ofString "nums") [1, -5] [] ∧
      ¬ p.VectorSurvives stof ([] :: vectorLine [] (.ofString "-n") [1, -5] []) (.ofString "nums")
        [1, -5] := by
  intro stof
  refine ⟨_, rfl, ⟨rfl, ⟨_, rfl, rfl⟩, rfl, Nat.zero_le _, nofun, nofun, nofun⟩, ?_⟩
  rintro ⟨r, hr, hok, -⟩
  have hrejected : Except.ok false = Except.ok r.ok := congrArg (Except.map Parsed.ok) hr
  cases (Except.ok.inj hrejected).trans hok

end ArgumentParser

end Rix.Util
