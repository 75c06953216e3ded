-- SUMMARY: Command lines of options with values: how tokens are cut into occurrences, and what a list of assignments leaves in a store.
import Mathlib.Data.List.Induction
import Mathlib.Data.List.Perm.Basic
import Mathlib.Data.List.TakeWhile
import Mathlib.Logic.Function.Iterate
import Mathlib.Tactic.Common

/-!
# Options

A command line is a list of tokens. Some of them name options, and an option
takes none, one or a run of the tokens after it as its values. An option may
occur more than once, and each occurrence is an assignment to its key.
-/

namespace Options

/-- How many of the tokens after it an option takes: none, one, or all before
the first that stops a run. -/
inductive Arity where
  | flag
  | single
  | run
  deriving DecidableEq, Repr

structure Syntax (τ κ : Type) where
  /-- The option that a token names. -/
  key : τ → Option κ
  arity : κ → Option Arity
  stops : τ → Bool

/-- A token that names an option, with the values after it. -/
structure Occurrence (τ κ : Type) where
  token : τ
  key : κ
  values : List τ

variable {τ κ : Type} {stops : τ → Bool} {a : Arity} {ts vs rest rest' : List τ}

-- ---------------------------------------------------------------------------
-- The values of one option
-- ---------------------------------------------------------------------------

/-- The values that an option takes, and the tokens after them. There must be a
token that a single value can be, or that a run can begin or end with. -/
def Arity.take (stops : τ → Bool) : Arity → List τ → Option (List τ × List τ)
  | flag, ts => some ([], ts)
  | single, t :: ts => some ([t], ts)
  | run, t :: ts => some ((t :: ts).takeWhile (!stops ·), (t :: ts).dropWhile (!stops ·))
  | single, [] | run, [] => none

/-- The values have the form that the arity asks for. -/
def Arity.Fits (stops : τ → Bool) : Arity → List τ → Prop
  | flag, vs => vs = []
  | single, vs => ∃ t, vs = [t]
  | run, vs => ∀ t ∈ vs, stops t = false

/-- A run cannot go on with these tokens. -/
def Stopped (stops : τ → Bool) (ts : List τ) : Prop := ∀ t ∈ ts.head?, stops t = true

theorem stopped_nil : Stopped stops [] := nofun

theorem stopped_cons {t : τ} (h : stops t = true) : Stopped stops (t :: ts) := by
  intro t' ht'
  cases ht'
  exact h

/-- A run is all there is before the first token that stops it. -/
theorem run_iff : ts.takeWhile (!stops ·) = vs ∧ ts.dropWhile (!stops ·) = rest ↔
    ts = vs ++ rest ∧ Arity.run.Fits stops vs ∧ Stopped stops rest := by
  constructor
  · rintro ⟨rfl, rfl⟩
    refine ⟨List.takeWhile_append_dropWhile.symm, fun t ht => ?_, fun t ht => ?_⟩
    · simpa using List.mem_takeWhile_imp ht
    · have hhead := List.head?_dropWhile_not (!stops ·) ts
      rw [Option.mem_def.mp ht] at hhead
      simpa using hhead
  · rintro ⟨rfl, hvs, hrest⟩
    have hall : ∀ t ∈ vs, (!stops t) = true := fun t ht => by rw [hvs t ht]; rfl
    rw [List.takeWhile_append_of_pos hall, List.dropWhile_append_of_pos hall]
    cases rest with
    | nil => exact ⟨List.append_nil _, rfl⟩
    | cons t rest =>
      have ht : (!stops t) = false := by rw [hrest t rfl]; rfl
      simp only [List.takeWhile_cons, List.dropWhile_cons, ht]
      exact ⟨List.append_nil _, rfl⟩

theorem take_eq_some_iff : a.take stops ts = some (vs, rest) ↔
    ts = vs ++ rest ∧ a.Fits stops vs ∧ (a = .run → ts ≠ [] ∧ Stopped stops rest) := by
  cases a with
  | flag =>
    constructor
    · rintro ⟨⟩
      exact ⟨rfl, rfl, nofun⟩
    · rintro ⟨rfl, rfl, -⟩
      rfl
  | single =>
    constructor
    · intro h
      cases ts with
      | nil => cases h
      | cons t ts =>
        cases h
        exact ⟨rfl, ⟨t, rfl⟩, nofun⟩
    · rintro ⟨rfl, ⟨t, rfl⟩, -⟩
      rfl
  | run =>
    cases ts with
    | nil => exact iff_of_false nofun fun h => (h.2.2 rfl).1 rfl
    | cons t ts =>
      rw [Arity.take, Option.some.injEq, Prod.mk.injEq, run_iff]
      constructor
      · rintro ⟨heq, hfits, hrest⟩
        exact ⟨heq, hfits, fun _ => ⟨List.cons_ne_nil t ts, hrest⟩⟩
      · rintro ⟨heq, hfits, hrun⟩
        exact ⟨heq, hfits, (hrun rfl).2⟩

/-- What an option takes does not depend on the option that comes after it. -/
theorem take_congr (h : a.take stops (vs ++ rest) = some (vs, rest))
    (hrest : a = .run → Stopped stops rest') (hnil : rest = [] ↔ rest' = []) : a.take stops (vs ++ rest') = some (vs, rest') := by
  obtain ⟨-, hfits, hrun⟩ := take_eq_some_iff.mp h
  refine take_eq_some_iff.mpr ⟨rfl, hfits, fun ha => ⟨fun heq => ?_, hrest ha⟩⟩
  obtain ⟨rfl, hrest'⟩ := List.append_eq_nil_iff.mp heq
  exact (hrun ha).1 (hnil.mpr hrest')

-- ---------------------------------------------------------------------------
-- Occurrences
-- ---------------------------------------------------------------------------

variable {syn : Syntax τ κ} {os os' : List (Occurrence τ κ)} {ks : List κ}
  {as : List (κ × List τ)}

def Occurrence.tokens (o : Occurrence τ κ) : List τ := o.token :: o.values

def Occurrence.assignment (o : Occurrence τ κ) : κ × List τ := (o.key, o.values)

/-- The tokens are these occurrences, one after the other. -/
inductive Splits (syn : Syntax τ κ) : List τ → List (Occurrence τ κ) → Prop
  | nil : Splits syn [] []
  | cons {t : τ} {k : κ} {a : Arity} {ts vs rest : List τ} {os : List (Occurrence τ κ)}
    (key : syn.key t = some k) (arity : syn.arity k = some a)
    (take : a.take syn.stops ts = some (vs, rest)) (tail : Splits syn rest os) :
    Splits syn (t :: ts) (⟨t, k, vs⟩ :: os)

theorem splits_cons_iff {t : τ} : Splits syn (t :: ts) os ↔
    ∃ k a vs rest os', syn.key t = some k ∧ syn.arity k = some a ∧
      a.take syn.stops ts = some (vs, rest) ∧ Splits syn rest os' ∧ os = ⟨t, k, vs⟩ :: os' := by
  constructor
  · intro h
    cases h with
    | cons key arity take tail => exact ⟨_, _, _, _, _, key, arity, take, tail, rfl⟩
  · rintro ⟨k, a, vs, rest, os', key, arity, take, tail, rfl⟩
    exact .cons key arity take tail

theorem Splits.unique (h : Splits syn ts os) (h' : Splits syn ts os') : os = os' := by
  induction h generalizing os' with
  | nil =>
    cases h'
    rfl
  | cons key arity take _ ih =>
    cases h' with
    | cons key' arity' take' tail' =>
      obtain rfl := Option.some.inj (key.symm.trans key')
      obtain rfl := Option.some.inj (arity.symm.trans arity')
      obtain ⟨rfl, rfl⟩ := Prod.mk.inj (Option.some.inj (take.symm.trans take'))
      rw [ih tail']

theorem Splits.tokens (h : Splits syn ts os) : ts = os.flatMap Occurrence.tokens := by
  induction h with
  | nil => rfl
  | cons _ _ take _ ih =>
    obtain ⟨rfl, -⟩ := take_eq_some_iff.mp take
    rw [ih]
    rfl

/-- Positional arguments take their values without a token that names them. -/
def positional (syn : Syntax τ κ) : List κ → List τ → Option (List (κ × List τ) × List τ)
  | [], ts => some ([], ts)
  | k :: ks, ts =>
    (syn.arity k).bind fun a => (a.take syn.stops ts).bind fun r =>
      (positional syn ks r.2).map fun r' => ((k, r.1) :: r'.1, r'.2)

theorem positional_cons {k : κ} {as : List (κ × List τ)} :
    positional syn (k :: ks) ts = some (as, rest) ↔
      ∃ a vs ts' as', syn.arity k = some a ∧ a.take syn.stops ts = some (vs, ts') ∧
        positional syn ks ts' = some (as', rest) ∧ as = (k, vs) :: as' := by
  simp only [positional, Option.bind_eq_some_iff, Option.map_eq_some_iff, Prod.exists, Prod.mk.injEq]
  constructor
  · rintro ⟨a, ha, vs, ts', htake, as', rest, hpos, rfl, rfl⟩
    exact ⟨a, vs, ts', as', ha, htake, hpos, rfl⟩
  · rintro ⟨a, vs, ts', as', ha, htake, hpos, rfl⟩
    exact ⟨a, ha, vs, ts', htake, as', rest, hpos, rfl, rfl⟩

/-- There is one list of values for each positional argument. -/
theorem positional_keys (h : positional syn ks ts = some (as, rest)) : as.map Prod.fst = ks := by
  induction ks generalizing ts as with
  | nil =>
    cases h
    rfl
  | cons k ks ih =>
    obtain ⟨_, _, _, as', _, _, hpos, rfl⟩ := positional_cons.mp h
    rw [List.map_cons, ih hpos]

theorem positional_tokens (h : positional syn ks ts = some (as, rest)) :
    ts = as.flatMap Prod.snd ++ rest := by
  induction ks generalizing ts as with
  | nil =>
    cases h
    rfl
  | cons k ks ih =>
    obtain ⟨a, vs, ts', as', -, htake, hpos, rfl⟩ := positional_cons.mp h
    obtain ⟨rfl, -⟩ := take_eq_some_iff.mp htake
    rw [ih hpos, List.flatMap_cons, List.append_assoc]

/-- The positional arguments do not depend on the options after them. -/
theorem positional_congr {pos : List τ} (h : positional syn ks (pos ++ rest) = some (as, rest))
    (hrest : Stopped syn.stops rest') (hnil : rest = [] ↔ rest' = []) :
    positional syn ks (pos ++ rest') = some (as, rest') := by
  induction ks generalizing pos as with
  | nil =>
    simp only [positional, Option.some.injEq, Prod.mk.injEq, List.append_left_eq_self] at h
    obtain ⟨rfl, rfl⟩ := h
    rfl
  | cons k ks ih =>
    obtain ⟨a, vs, ts', as', ha, htake, hpos, rfl⟩ := positional_cons.mp h
    obtain ⟨htokens, hfits, hrun⟩ := take_eq_some_iff.mp htake
    -- the options are all that is left, so the values are among the tokens before them
    have hts' := positional_tokens hpos
    generalize as'.flatMap Prod.snd = pos' at hts'
    subst hts'
    rw [← List.append_assoc, List.append_left_inj] at htokens
    subst htokens
    rw [List.append_assoc] at htake ⊢
    refine positional_cons.mpr ⟨a, vs, pos' ++ rest', as', ha, ?_, ih hpos, rfl⟩
    refine take_congr htake (fun hrun' => ?_) ?_
    · cases pos' with
      | nil => exact hrest
      | cons t pos' => exact stopped_cons ((hrun hrun').2 t rfl)
    · simp only [List.append_eq_nil_iff, hnil]

-- ---------------------------------------------------------------------------
-- Which tokens are a command line
-- ---------------------------------------------------------------------------

/-- The token names the key, and the values have the form that it asks for. -/
def Occurrence.Formed (syn : Syntax τ κ) (o : Occurrence τ κ) : Prop :=
  syn.key o.token = some o.key ∧ ∃ a, syn.arity o.key = some a ∧ a.Fits syn.stops o.values

/-- The last occurrence is of an option with a run, which is empty. -/
def EndsEmpty (syn : Syntax τ κ) (os : List (Occurrence τ κ)) : Prop :=
  ∃ o ∈ os.getLast?, syn.arity o.key = some .run ∧ o.values = []

theorem endsEmpty_cons_cons {o o' : Occurrence τ κ} :
    EndsEmpty syn (o :: o' :: os) ↔ EndsEmpty syn (o' :: os) := by
  rw [EndsEmpty, List.getLast?_cons_cons]
  rfl

theorem not_endsEmpty_cons {o : Occurrence τ κ} (hvalues : o.values ≠ [])
    (hos : ¬ EndsEmpty syn os) : ¬ EndsEmpty syn (o :: os) := by
  cases os with
  | nil =>
    rintro ⟨o', ho', -, hempty⟩
    cases ho'
    exact hvalues hempty
  | cons o' os => rwa [endsEmpty_cons_cons]

/-! Names of options do not matter for what is assigned. -/

theorem endsEmpty_congr (h : os.map Occurrence.assignment = os'.map Occurrence.assignment) :
    EndsEmpty syn os ↔ EndsEmpty syn os' := by
  have hlast (os : List (Occurrence τ κ)) : EndsEmpty syn os ↔
      ∃ a ∈ (os.map Occurrence.assignment).getLast?, syn.arity a.1 = some .run ∧ a.2 = [] := by
    rw [EndsEmpty, List.getLast?_map]
    cases os.getLast? with
    | none => exact iff_of_false nofun nofun
    | some o => simp only [Option.map_some, Option.mem_some_iff, exists_eq_left']; rfl
  rw [hlast, hlast, h]

theorem length_tokens_congr (h : os.map Occurrence.assignment = os'.map Occurrence.assignment) :
    (os.flatMap Occurrence.tokens).length = (os'.flatMap Occurrence.tokens).length := by
  have hlength (os : List (Occurrence τ κ)) : (os.flatMap Occurrence.tokens).length =
      ((os.map Occurrence.assignment).map fun a => a.2.length + 1).sum := by
    rw [List.length_flatMap, List.map_map]
    rfl
  rw [hlength, hlength, h]

theorem Splits.formed (h : Splits syn ts os) : ∀ o ∈ os, o.Formed syn := by
  induction h with
  | nil => exact nofun
  | cons key arity take _ ih =>
    intro o ho
    rcases List.mem_cons.mp ho with rfl | ho
    · exact ⟨key, _, arity, (take_eq_some_iff.mp take).2.1⟩
    · exact ih o ho

theorem Splits.not_endsEmpty (h : Splits syn ts os) : ¬ EndsEmpty syn os := by
  induction h with
  | nil => exact nofun
  | cons key arity take tail ih =>
    cases tail with
    | nil =>
      rintro ⟨o, ho, harity, hvalues⟩
      cases ho
      obtain ⟨rfl, -, hrun⟩ := take_eq_some_iff.mp take
      obtain rfl := Option.some.inj (arity.symm.trans harity)
      exact (hrun rfl).1 ((List.append_nil _).trans hvalues)
    | cons => rwa [endsEmpty_cons_cons]

/-- Tokens that name an option stop a run. -/
def Syntax.Sound (syn : Syntax τ κ) : Prop := ∀ t k, syn.key t = some k → syn.stops t = true

theorem stopped_tokens (hsyn : syn.Sound) (h : ∀ o ∈ os, o.Formed syn) :
    Stopped syn.stops (os.flatMap Occurrence.tokens) := by
  cases os with
  | nil => exact stopped_nil
  | cons o os => exact stopped_cons (hsyn _ _ (h o List.mem_cons_self).1)

theorem splits_of_formed (hsyn : syn.Sound) (h : ∀ o ∈ os, o.Formed syn)
    (hlast : ¬ EndsEmpty syn os) : Splits syn (os.flatMap Occurrence.tokens) os := by
  induction os with
  | nil => exact .nil
  | cons o os ih =>
    obtain ⟨hkey, a, harity, hfits⟩ := h o List.mem_cons_self
    have hos : ∀ o ∈ os, o.Formed syn := fun o' ho' => h o' (List.mem_cons_of_mem o ho')
    refine .cons hkey harity (take_eq_some_iff.mpr ⟨rfl, hfits, fun ha => ⟨fun hnil => ?_, ?_⟩⟩)
      (ih hos fun hempty => hlast ?_)
    · -- the run is empty and nothing comes after it
      obtain ⟨hvalues, hrest⟩ := List.append_eq_nil_iff.mp hnil
      cases os with
      | nil => exact hlast ⟨o, rfl, ha ▸ harity, hvalues⟩
      | cons o' os => cases hrest
    · exact stopped_tokens hsyn hos
    · cases os with
      | nil =>
        obtain ⟨o', ho', -⟩ := hempty
        cases ho'
      | cons o' os => exact endsEmpty_cons_cons.mpr hempty

/-- The tokens of occurrences are a command line unless they end with an empty
run. -/
theorem splits_iff (hsyn : syn.Sound) : Splits syn ts os ↔
    ts = os.flatMap Occurrence.tokens ∧ (∀ o ∈ os, o.Formed syn) ∧ ¬ EndsEmpty syn os := by
  constructor
  · exact fun h => ⟨h.tokens, h.formed, h.not_endsEmpty⟩
  · rintro ⟨rfl, hformed, hlast⟩
    exact splits_of_formed hsyn hformed hlast

/-- Formed occurrences are the only reading of their tokens. -/
theorem Splits.eq_of_formed (hsyn : syn.Sound) (h : ∀ o ∈ os, o.Formed syn)
    (hsplits : Splits syn (os.flatMap Occurrence.tokens) os') : os' = os := by
  induction os generalizing os' with
  | nil =>
    cases hsplits
    rfl
  | cons o os ih =>
    obtain ⟨hkey, a, harity, hfits⟩ := h o List.mem_cons_self
    have hos : ∀ o ∈ os, o.Formed syn := fun o' ho' => h o' (List.mem_cons_of_mem o ho')
    cases hsplits with
    | cons key arity take tail =>
      obtain rfl := Option.some.inj (hkey.symm.trans key)
      obtain rfl := Option.some.inj (harity.symm.trans arity)
      have htake : a.take syn.stops (o.values ++ os.flatMap Occurrence.tokens) =
          some (o.values, os.flatMap Occurrence.tokens) :=
        take_eq_some_iff.mpr ⟨rfl, hfits, fun ha =>
          ⟨((take_eq_some_iff.mp take).2.2 ha).1, stopped_tokens hsyn hos⟩⟩
      obtain ⟨rfl, rfl⟩ := Prod.mk.inj (Option.some.inj (take.symm.trans htake))
      rw [ih hos tail]

/-! ## Runs that a reading can find between the tokens of occurrences -/

variable {o : Occurrence τ κ} {t w : τ} {k : κ} {us pre post : List τ}

theorem Splits.exists_append (h : Splits syn ts os) (ho : o ∈ os) :
    ∃ pre post, ts = pre ++ (o.tokens ++ post) := by
  induction h with
  | nil => cases ho
  | cons _ _ take _ ih =>
    obtain ⟨rfl, -⟩ := take_eq_some_iff.mp take
    rcases List.mem_cons.mp ho with rfl | ho
    · exact ⟨[], _, rfl⟩
    · obtain ⟨pre, post, rfl⟩ := ih ho
      exact ⟨_ :: (_ ++ pre), post, congrArg _ (List.append_assoc ..).symm⟩

theorem stops_of_tokens_eq_cons (hsyn : syn.Sound) (h : ∀ o ∈ os, o.Formed syn)
    (htokens : os.flatMap Occurrence.tokens = t :: post) : syn.stops t = true := by
  have hstopped := stopped_tokens hsyn h
  rw [htokens] at hstopped
  exact hstopped t rfl

/-- In the tokens of occurrences of other options, nothing that could be in a run
comes right after a token that names the option. -/
theorem key_ne_of_adjacent (hsyn : syn.Sound) (h : ∀ o ∈ os, o.Formed syn)
    (hkeys : ∀ o ∈ os, o.key ≠ k) (htokens : os.flatMap Occurrence.tokens = pre ++ t :: w :: post)
    (hw : syn.stops w = false) : syn.key t ≠ some k := by
  induction os generalizing pre with
  | nil => exact absurd htokens.symm (List.append_ne_nil_of_right_ne_nil _ (List.cons_ne_nil t _))
  | cons o os ih =>
    rw [List.forall_mem_cons] at h hkeys
    obtain ⟨⟨hkey, a, -, hfits⟩, hos⟩ := h
    cases pre with
    | nil =>
      obtain rfl := (List.cons.inj htokens).1
      rw [hkey]
      exact fun heq => hkeys.1 (Option.some.inj heq)
    | cons _ pre =>
      have hrest : o.values ++ os.flatMap Occurrence.tokens = pre ++ t :: w :: post :=
        (List.cons.inj htokens).2
      rcases List.append_eq_append_iff.mp hrest with ⟨pre', rfl, hpre'⟩ | ⟨vs, hvs, hvs'⟩
      · exact ih hos hkeys.2 hpre'
      · cases vs with
        | nil =>
          have hother : os.flatMap Occurrence.tokens = [] ++ t :: w :: post := hvs'.symm
          exact ih hos hkeys.2 hother
        | cons t' vs =>
          obtain ⟨rfl, htail⟩ := List.cons.inj hvs'
          cases vs with
          | nil =>
            -- the next occurrence begins, and its token stops a run
            have hstop := stops_of_tokens_eq_cons hsyn hos htail.symm
            cases hw.symm.trans hstop
          | cons w' vs =>
            -- only a run has two values, and neither of them names an option
            rw [hvs] at hfits
            cases a with
            | flag => exact absurd hfits (List.append_ne_nil_of_right_ne_nil pre (List.cons_ne_nil t _))
            | single =>
              obtain ⟨t', ht'⟩ := hfits
              have hlength := congrArg List.length ht'
              simp only [List.length_append, List.length_cons, List.length_nil] at hlength
              omega
            | run =>
              intro hname
              have ht := hfits t (List.mem_append_right pre List.mem_cons_self)
              cases ht.symm.trans (hsyn t k hname)

/-- An occurrence of another option that is found among tokens `us` and such
occurrences has a run that is shorter than `us`, or empty. -/
theorem run_lt_or_nil (hsyn : syn.Sound) (h : ∀ o ∈ os, o.Formed syn)
    (hkeys : ∀ o ∈ os, o.key ≠ k) (ht : syn.key t = some k) (hrun : Arity.run.Fits syn.stops vs)
    (htokens : us ++ os.flatMap Occurrence.tokens = pre ++ (t :: vs ++ post)) :
    vs.length < us.length ∨ vs = [] := by
  -- the occurrence begins among the other ones
  have hother {pre : List τ} (htokens : os.flatMap Occurrence.tokens = pre ++ (t :: vs ++ post)) :
      vs = [] := by
    cases vs with
    | nil => rfl
    | cons w vs =>
      exact absurd ht (key_ne_of_adjacent hsyn h hkeys htokens (hrun w List.mem_cons_self))
  rcases List.append_eq_append_iff.mp htokens with ⟨pre', rfl, hpre'⟩ | ⟨us', rfl, hus'⟩
  · exact .inr (hother hpre')
  cases us' with
  | nil =>
    have hbegin : os.flatMap Occurrence.tokens = [] ++ (t :: vs ++ post) := hus'.symm
    exact .inr (hother hbegin)
  | cons t' us' =>
    refine .inl ?_
    obtain ⟨rfl, htail⟩ := List.cons.inj hus'
    have hle : vs.length ≤ us'.length := by
      rcases List.append_eq_append_iff.mp htail with ⟨us'', rfl, -⟩ | ⟨vs', rfl, hvs'⟩
      · rw [List.length_append]
        exact Nat.le_add_right _ _
      · cases vs' with
        | nil => rw [List.append_nil]
        | cons w vs' =>
          -- the run ends where the first of the others begins
          have hgo := hrun w (List.mem_append_right us' List.mem_cons_self)
          cases hgo.symm.trans (stops_of_tokens_eq_cons hsyn h hvs')
    rw [List.length_append, List.length_cons]
    omega

-- ---------------------------------------------------------------------------
-- Assignments
-- ---------------------------------------------------------------------------

section Store

variable {V : Type} [DecidableEq κ] {assign : κ → V → List τ → Option V} {s s' : κ → V} {k : κ}
  {v w : V} {vss : List (List τ)} {as' : List (κ × List τ)}

/-- The assignments in order, as long as none fails. -/
def assignAll (assign : κ → V → List τ → Option V) : (κ → V) → List (κ × List τ) → Option (κ → V)
  | s, [] => some s
  | s, (k, vs) :: as => (assign k (s k) vs).bind fun v => assignAll assign (Function.update s k v) as

/-- What is assigned to one key. -/
def valuesOf (k : κ) (as : List (κ × List τ)) : List (List τ) :=
  as.filterMap fun a => if a.1 = k then some a.2 else none

omit [DecidableEq κ] in
/-- The assignments to one key in order, as long as none fails. -/
def replay (assign : κ → V → List τ → Option V) (k : κ) : V → List (List τ) → Option V
  | v, [] => some v
  | v, vs :: vss => (assign k v vs).bind fun v => replay assign k v vss

@[simp] theorem valuesOf_append (k : κ) (as as' : List (κ × List τ)) :
    valuesOf k (as ++ as') = valuesOf k as ++ valuesOf k as' :=
  List.filterMap_append

theorem valuesOf_cons_self (k : κ) (vs : List τ) (as : List (κ × List τ)) :
    valuesOf k ((k, vs) :: as) = vs :: valuesOf k as :=
  List.filterMap_cons_some (if_pos rfl)

theorem valuesOf_eq_nil (h : ∀ a ∈ as, a.1 ≠ k) : valuesOf k as = [] := by
  rw [valuesOf, List.filterMap_eq_nil_iff]
  exact fun a ha => if_neg (h a ha)

theorem mem_valuesOf {vs : List τ} : vs ∈ valuesOf k as ↔ (k, vs) ∈ as := by
  simp only [valuesOf, List.mem_filterMap]
  constructor
  · rintro ⟨⟨k', vs'⟩, ha, hvs⟩
    split at hvs
    · rename_i hk
      obtain rfl := Option.some.inj hvs
      exact hk ▸ ha
    · cases hvs
  · exact fun ha => ⟨(k, vs), ha, if_pos rfl⟩

/-- What is in a store in the end is what each key makes of its own assignments. -/
theorem assignAll_eq_some_iff :
    assignAll assign s as = some s' ↔ ∀ k, replay assign k (s k) (valuesOf k as) = some (s' k) := by
  induction as generalizing s with
  | nil => simp only [assignAll, valuesOf, List.filterMap_nil, replay, Option.some.injEq, funext_iff]
  | cons a as ih =>
    obtain ⟨k₀, vs⟩ := a
    have hself := valuesOf_cons_self k₀ vs as
    have hother {k : κ} (hk : k ≠ k₀) : valuesOf k ((k₀, vs) :: as) = valuesOf k as :=
      List.filterMap_cons_none (if_neg hk.symm)
    simp only [assignAll, Option.bind_eq_some_iff, ih]
    constructor
    · rintro ⟨v, hv, hall⟩ k
      have hk := hall k
      by_cases heq : k = k₀
      · subst heq
        rw [Function.update_self] at hk
        rw [hself, replay, hv]
        exact hk
      · rw [Function.update_of_ne heq] at hk
        rw [hother heq, hk]
    · intro hall
      have hk₀ := hall k₀
      rw [hself] at hk₀
      obtain ⟨v, hv, hrest⟩ := Option.bind_eq_some_iff.mp hk₀
      refine ⟨v, hv, fun k => ?_⟩
      by_cases heq : k = k₀
      · subst heq
        rw [Function.update_self, hrest]
      · rw [Function.update_of_ne heq, ← hall k, hother heq]

/-- Assignments to different keys can be made in any order. -/
theorem valuesOf_perm (h : as.Perm as') (hkeys : (as.map Prod.fst).Nodup) (k : κ) :
    valuesOf k as = valuesOf k as' := by
  induction h with
  | nil => rfl
  | cons a _ ih =>
    rw [List.map_cons, List.nodup_cons] at hkeys
    simp only [valuesOf, List.filterMap_cons] at ih ⊢
    rw [ih hkeys.2]
  | swap a b as =>
    have hne : b.1 ≠ a.1 := fun heq => (List.nodup_cons.mp hkeys).1 (heq ▸ List.mem_cons_self)
    simp only [valuesOf, List.filterMap_cons]
    by_cases ha : a.1 = k
    · have hb : ¬ b.1 = k := fun hb => hne (hb.trans ha.symm)
      rw [if_pos ha, if_neg hb]
    · rw [if_neg ha]
  | trans h _ ih ih' => rw [ih hkeys, ih' ((h.map Prod.fst).nodup_iff.mp hkeys)]

/-- Assignments to different keys have one result in any order. -/
theorem assignAll_perm (h : as.Perm as') (hkeys : (as.map Prod.fst).Nodup) :
    assignAll assign s as = assignAll assign s as' := by
  ext s'
  rw [assignAll_eq_some_iff, assignAll_eq_some_iff]
  exact forall_congr' fun k => by rw [valuesOf_perm h hkeys k]

theorem assignAll_append (s : κ → V) (as as' : List (κ × List τ)) :
    assignAll assign s (as ++ as') = (assignAll assign s as).bind (assignAll assign · as') := by
  induction as generalizing s with
  | nil => rfl
  | cons a as ih =>
    simp only [List.cons_append, assignAll, Option.bind_assoc]
    exact congrArg _ (funext fun v => ih _)

omit [DecidableEq κ] in
theorem replay_append (v : V) (vss vss' : List (List τ)) :
    replay assign k v (vss ++ vss') = (replay assign k v vss).bind (replay assign k · vss') := by
  induction vss generalizing v with
  | nil => rfl
  | cons vs vss ih =>
    simp only [List.cons_append, replay, Option.bind_assoc]
    exact congrArg _ (funext ih)

/-! ## Options that forget and options that toggle -/

omit [DecidableEq κ] in
/-- Where an assignment does not look at the value before it, the last one decides. -/
theorem replay_last {Q : V → Prop} (hkeep : ∀ {v vs v'}, Q v → assign k v vs = some v' → Q v')
    (hforget : ∀ {v v' vs}, Q v → Q v' → assign k v vs = assign k v' vs) (hv : Q v)
    (h : replay assign k v vss = some w) :
    vss = [] ∧ w = v ∨ ∃ vs ∈ vss.getLast?, assign k v vs = some w := by
  induction vss using List.reverseRecOn with
  | nil => exact .inl ⟨rfl, (Option.some.inj h).symm⟩
  | append_singleton vss vs =>
    rw [replay_append] at h
    obtain ⟨u, hu, hlast⟩ := Option.bind_eq_some_iff.mp h
    obtain ⟨w', hw', heq⟩ := Option.bind_eq_some_iff.mp hlast
    obtain rfl := Option.some.inj heq
    have hkeeps {vss : List (List τ)} {v u : V} (hv : Q v) (h : replay assign k v vss = some u) : Q u := by
      induction vss generalizing v with
      | nil => exact Option.some.inj h ▸ hv
      | cons vs vss ih =>
        obtain ⟨v', hv', hrest⟩ := Option.bind_eq_some_iff.mp h
        exact ih (hkeep hv hv') hrest
    exact .inr ⟨vs, List.getLast?_concat, (hforget hv (hkeeps hv hu)).trans hw'⟩

omit [DecidableEq κ] in
/-- Where an assignment only applies a function, it is applied as often as there
are assignments. -/
theorem replay_iterate {β : Type} {g : β → V} {f : β → β}
    (h : ∀ x vs, assign k (g x) vs = some (g (f x))) (x : β) (vss : List (List τ)) :
    replay assign k (g x) vss = some (g (f^[vss.length] x)) := by
  induction vss generalizing x with
  | nil => rfl
  | cons vs vss ih =>
    rw [replay, h, Option.bind_some, ih]
    rfl

/-- Where the success of an assignment does not depend on the value before it,
all of them succeed if each does from the start. -/
theorem assignAll_isSome_iff {Q : κ → V → Prop}
    (hkeep : ∀ {k v vs v'}, Q k v → assign k v vs = some v' → Q k v')
    (hsame : ∀ {k v v' vs}, Q k v → Q k v' → (assign k v vs).isSome = (assign k v' vs).isSome)
    (hs : ∀ k, Q k (s k)) :
    (assignAll assign s as).isSome ↔ ∀ a ∈ as, (assign a.1 (s a.1) a.2).isSome := by
  induction as generalizing s with
  | nil => exact iff_of_true rfl nofun
  | cons a as ih =>
    obtain ⟨k₀, vs⟩ := a
    rw [List.forall_mem_cons, assignAll]
    cases hv : assign k₀ (s k₀) vs with
    | none => exact iff_of_false nofun fun h => nomatch h.1
    | some v =>
      have hs' : ∀ k, Q k (Function.update s k₀ v k) := by
        intro k
        by_cases heq : k = k₀
        · subst heq
          rw [Function.update_self]
          exact hkeep (hs k) hv
        · rw [Function.update_of_ne heq]
          exact hs k
      rw [Option.bind_some, ih hs']
      constructor
      · exact fun h => ⟨rfl, fun a ha => hsame (hs' a.1) (hs a.1) ▸ h a ha⟩
      · exact fun h a ha => hsame (hs a.1) (hs' a.1) ▸ h.2 a ha

end Store

end Options
