-- SUMMARY: A loop paced by a Rate: its sleeps keep their periods apart, however its clock jumps and its periods change, and keep to its frequency.
import Mathlib.Algebra.Order.Ring.Int
import Mathlib.Data.Nat.Cast.Basic
import MBotTeleop.Lib.Spacing
import MBotTeleop.Util.Frequency

/-!
# Paced loops

`sleep` counts from `start_`, which it sets to a reading of the clock. If less
than the period has passed since then, or the clock has gone back, it sleeps
until the end of the period; a loop that is late starts to count from now and
does not catch up. Either way a period lies between `start_` before and after.
The period of a frequency is rounded, so that a second may hold one sleep more
than there are Hertz.
-/

namespace Rix.Util

namespace Rate

/-- What a program does with an object. A `sleep` comes with the two readings of
the clock. -/
inductive Use where
  | setPeriod (period : Duration)
  | setFrequency (frequency : BitVec 64)
  | sleep (now later : Time)
  deriving DecidableEq, Repr

/-- An object, and for each `sleep` so far the period it had and the `start_` it
left behind. -/
structure Loop where
  rate : Rate
  sleeps : List (Spaced Int)
  deriving DecidableEq, Repr

/-- `sleep_until` does not return before the clock has reached the time that it
is given. -/
def Punctual (r : Rate) (now later : Time) : Prop :=
  ∀ deadline ∈ r.start.add r.period, now.tp.slt deadline.tp → deadline.tp.toInt ≤ later.tp.toInt

instance (r : Rate) (now later : Time) : Decidable (Punctual r now later) :=
  inferInstanceAs (Decidable (∀ deadline ∈ r.start.add r.period, _))

/-- The uses of one object. -/
def loop (inverse : BitVec 64 → Duration) (r : Rate) : Machine Loop Use where
  init := { rate := r, sleeps := [] }
  step s
    | .setPeriod period => some { s with rate := s.rate.setPeriod period }
    | .setFrequency frequency => some { s with rate := s.rate.setFrequency inverse frequency }
    | .sleep now later =>
      if Punctual s.rate now later then
        (s.rate.sleep now later).map fun r =>
          let slept := ⟨s.rate.period.d.toInt, r.2.start.tp.toInt⟩
          { rate := r.2, sleeps := s.sleeps ++ [slept] }
      else
        none

section
variable {inverse : BitVec 64 → Duration} {r : Rate} {s s' : Loop}

theorem toInt_add {t deadline : Time} {d : Duration} (h : t.add d = some deadline) :
    deadline.tp.toInt = t.tp.toInt + d.d.toInt := by
  rw [Time.add] at h
  split at h
  · cases h
  · rename_i hno
    cases h
    exact BitVec.toInt_add_of_not_saddOverflow hno

/-- A `sleep` moves `start_` on by at least the period. -/
theorem sleep_forward {now later : Time} {early : Bool} {r r' : Rate}
    (h : r.sleep now later = some (early, r')) (hpunctual : Punctual r now later) :
    r.start.tp.toInt + r.period.d.toInt ≤ r'.start.tp.toInt := by
  obtain ⟨deadline, hdeadline, hr'⟩ := Option.map_eq_some_iff.mp h
  have hsum := toInt_add hdeadline
  split at hr' <;> rename_i hearly <;> cases hr'
  · have hlater := hpunctual deadline hdeadline hearly
    exact hsum ▸ hlater
  · have hnow : ¬ now.tp.toInt < deadline.tp.toInt := by
      simpa only [BitVec.slt_eq_decide, decide_eq_true_eq] using hearly
    exact hsum ▸ Int.not_lt.mp hnow

/-- The `start_` of an object as an event before which there is none. -/
def begun (r : Rate) : Spaced Int := ⟨0, r.start.tp.toInt⟩

/-- The sleeps so far follow one another, and the last of them, or else the
beginning, left the present `start_`. -/
structure Paced (r : Rate) (s : Loop) : Prop where
  chain : (r.begun :: s.sleeps).IsChain Spaced.Follows
  last : ∀ e ∈ (r.begun :: s.sleeps).getLast?, e.time = s.rate.start.tp.toInt

theorem paced_step {use : Use} (hs : Paced r s)
    (hstep : (loop inverse r).step s use = some s') : Paced r s' := by
  cases use with
  | setPeriod period =>
    cases hstep
    exact ⟨hs.chain, hs.last⟩
  | setFrequency frequency =>
    cases hstep
    exact ⟨hs.chain, hs.last⟩
  | sleep now later =>
    obtain ⟨hpunctual, hstep⟩ := Option.ite_none_right_eq_some.mp hstep
    obtain ⟨⟨early, r'⟩, hsleep, rfl⟩ := Option.map_eq_some_iff.mp hstep
    have hforward := sleep_forward hsleep hpunctual
    constructor
    · refine hs.chain.append (List.isChain_singleton _) ?_
      rintro e he _ ⟨⟩
      rw [Spaced.Follows, hs.last e he]
      exact hforward
    · intro e he
      rw [← List.cons_append, List.getLast?_concat] at he
      obtain rfl := Option.some.inj he
      rfl

theorem paced_run {uses : List Use} (hrun : (loop inverse r).run uses = some s) : Paced r s := by
  refine (loop inverse r).run_invariant (I := fun _ => Paced r) ?_ (fun _ => paced_step) hrun
  constructor
  · exact List.isChain_singleton _
  · rintro e ⟨⟩
    rfl

/-- From the end of one `sleep` to the end of a later one at least the periods
pass that the sleeps since then had. So if no period was shorter than `p`, there
are at most `k` sleeps in any time as long as `k` times `p`. -/
theorem sleeps_paced {uses : List Use} (hrun : (loop inverse r).run uses = some s) :
    (∀ e es e', (e :: es ++ [e']) <:+: (r.begun :: s.sleeps) →
      e.time + ((es ++ [e']).map Spaced.gap).sum ≤ e'.time) ∧
    ∀ p : Int, 0 ≤ p → (∀ e ∈ s.sleeps, p ≤ e.gap) → ∀ (lo : Int) (k : Nat),
      (s.sleeps.filter fun e => lo ≤ e.time ∧ e.time < lo + k * p).length ≤ k := by
  have hchain := (paced_run hrun).chain
  constructor
  · intro e es e' hinfix
    have hstretch := List.IsChain.infix hchain hinfix
    exact Spaced.add_sum_le hstretch
  · intro p hp hgap lo k
    have hsleeps : s.sleeps.IsChain Spaced.Follows := hchain.tail
    simpa only [nsmul_eq_mul] using Spaced.length_filter_le hp hsleeps hgap lo k

/-- A clock that goes back, a period that is made shorter and a loop that is late. -/
theorem sleeps_paced_clockBack :
    let r := ofPeriod ⟨100⟩ ⟨1000⟩
    let uses := [.sleep ⟨1040⟩ ⟨1105⟩, .sleep ⟨900⟩ ⟨1210⟩, .setPeriod ⟨10⟩, .sleep ⟨5000⟩ ⟨0⟩,
      .sleep ⟨5003⟩ ⟨5012⟩]
    ∃ s, (loop (fun _ => ⟨0⟩) r).run uses = some s ∧
      s.sleeps = [⟨100, 1105⟩, ⟨100, 1210⟩, ⟨10, 5000⟩, ⟨10, 5012⟩] ∧
      (1000 : Int) + [(100 : Int), 100, 10, 10].sum ≤ 5012 ∧
      ∀ lo : Int, (s.sleeps.filter fun e => lo ≤ e.time ∧ e.time < lo + 3 * 10).length ≤ 3 := by
  intro r uses
  have hrun : (loop (fun _ => ⟨0⟩) r).run uses = some
      { rate := ⟨⟨10⟩, ⟨5012⟩⟩
        sleeps := [⟨100, 1105⟩, ⟨100, 1210⟩, ⟨10, 5000⟩, ⟨10, 5012⟩] } := by decide
  obtain ⟨hsum, hwindow⟩ := sleeps_paced hrun
  refine ⟨_, hrun, rfl, ?_, fun lo => hwindow 10 (by decide) (by decide) lo 3⟩
  exact hsum ⟨0, 1000⟩ [⟨100, 1105⟩, ⟨100, 1210⟩, ⟨10, 5000⟩] ⟨10, 5012⟩ (List.infix_refl _)

end

/-! ## Loops with a frequency -/

variable {r : Rate} {s s' : Loop} {u : Duration} {f : BitVec 64}

theorem isPositive_above (h : Ieee.le leastAbove f = true) (hf : Ieee.magnitude f < Ieee.infinity) :
    Ieee.IsPositive f (Ieee.value f) := by
  obtain ⟨hsign, hrank⟩ := Ieee.magnitude_of_rank_pos (rank_pos h)
  have hvalue : Ieee.value f = Ieee.ofMagnitude (Ieee.magnitude f) := by
    rw [Ieee.value, hsign, if_neg Bool.false_ne_true]
  have hpos : 0 < Ieee.value f := lt_trans (by norm_num) (value_pos h)
  exact ⟨hsign, hf, hvalue.symm, hpos⟩

theorem value_le (hf : Ieee.le f (Ieee.ofInt 40000) = true) : Ieee.value f ≤ 40000 := by
  have hexact := (Ieee.ofInt_exact_small (n := 40000) (by decide)).2
  exact (Ieee.value_mono hf).trans_eq (mod_cast hexact)

/-- The period of a frequency, up to half of a nanosecond and two roundings. -/
theorem periodOf_ge (h : Ieee.le leastAbove f = true) (hf : Ieee.le f (Ieee.ofInt 40000) = true) :
    1000000000 / Ieee.value f * (1 - 1 / 2 ^ 50) - 1 / 2 ≤ (periodOf (inverse u) f).d.toInt := by
  have hfinite := (Ieee.ofInt_exact_small (n := 40000) (by decide)).1
  have hf' := isPositive_above h (Ieee.finite_of_between h hf (by decide) hfinite)
  have hpos := hf'.pos
  have hlow := value_pos h
  have hhigh := value_le hf
  have hinverse := isPositive_one.estimates.div hf'.estimates
    ⟨by rw [div_le_div_iff₀ (by norm_num) hpos]; linarith, by rw [div_le_iff₀ hpos]; linarith⟩
    (by decide)
  have heq : 1 / Ieee.value f * 1000000000 = 1000000000 / Ieee.value f := one_div_mul_eq_div _ _
  have hproduct := hinverse.mul isPositive_billion.estimates
    ⟨by rw [heq, div_le_div_iff₀ (by norm_num) hpos]; linarith,
      by rw [heq, div_le_iff₀ hpos]; linarith⟩ (by decide)
  rw [heq] at hproduct
  obtain ⟨n, hn, -⟩ := nanosecondsOf_inverse h
  have hclose := (abs_le.mp (hproduct.abs_llround_sub_le hn)).1
  have hslack := mul_le_mul_of_nonneg_right (slack_pow_le (show 2 ≤ 6 by decide)) hproduct.pos.le
  rw [periodOf_above h hn]
  linarith

/-- As many periods as `f`, rounded up, and one more fill a second. -/
theorem second_le (hpos : 0 < Ieee.value f) (hf : Ieee.le f (Ieee.ofInt 40000) = true) :
    1000000000 ≤ (⌈Ieee.value f⌉ + 1) * (periodOf (inverse u) f).d.toInt := by
  have hnan := Ieee.isNaN_eq_false.mpr (Ieee.le_iff.mp hf).1
  have hceil : 0 < ⌈Ieee.value f⌉ := Int.ceil_pos.mpr hpos
  by_cases hmin : Ieee.le f minFrequency = true
  · -- the longest period is a second at least
    rw [periodOf, if_pos hmin, toInt_maxPeriod]
    omega
  have habove := leastAbove_le hnan hmin
  have hnonneg : (0 : ℚ) ≤ (periodOf (inverse u) f).d.toInt := mod_cast periodOf_nonneg u hnan
  have hhigh := value_le hf
  have hge : 1000000000 * (1 - 1 / 2 ^ 50) - Ieee.value f / 2 ≤
      Ieee.value f * (periodOf (inverse u) f).d.toInt := by
    refine le_of_eq_of_le ?_ (mul_le_mul_of_nonneg_left (periodOf_ge (u := u) habove hf) hpos.le)
    field_simp
  have hsquare : Ieee.value f * (Ieee.value f + 1) ≤ 40000 * 40001 :=
    mul_le_mul hhigh (by linarith) (by linarith) (by norm_num)
  have hsecond : Ieee.value f * 1000000000 ≤
      Ieee.value f * ((Ieee.value f + 1) * (periodOf (inverse u) f).d.toInt) :=
    calc Ieee.value f * 1000000000
        ≤ (Ieee.value f + 1) * (1000000000 * (1 - 1 / 2 ^ 50) - Ieee.value f / 2) := by linarith
      _ ≤ (Ieee.value f + 1) * (Ieee.value f * (periodOf (inverse u) f).d.toInt) :=
          mul_le_mul_of_nonneg_left hge (by linarith)
      _ = Ieee.value f * ((Ieee.value f + 1) * (periodOf (inverse u) f).d.toInt) := by ring
  have hperiods : (1000000000 : ℚ) ≤ (⌈Ieee.value f⌉ + 1) * (periodOf (inverse u) f).d.toInt :=
    calc (1000000000 : ℚ) ≤ (Ieee.value f + 1) * (periodOf (inverse u) f).d.toInt :=
          le_of_mul_le_mul_left hsecond hpos
      _ ≤ (⌈Ieee.value f⌉ + 1) * (periodOf (inverse u) f).d.toInt := by
          gcongr
          exact Int.le_ceil _
  exact_mod_cast hperiods

/-- What a program does that asks for no more than a frequency. -/
def Use.AtMost (f : BitVec 64) : Use → Prop
  | setPeriod _ => False
  | setFrequency g => Ieee.le g f = true
  | sleep _ _ => True

/-- Every period so far was one at least as long. -/
structure Slow (p : Int) (s : Loop) : Prop where
  period : p ≤ s.rate.period.d.toInt
  sleeps : ∀ e ∈ s.sleeps, p ≤ e.gap

theorem sleep_period {now later : Time} {early : Bool} {r' : Rate}
    (h : r.sleep now later = some (early, r')) : r'.period = r.period := by
  obtain ⟨deadline, -, hr'⟩ := Option.map_eq_some_iff.mp h
  split at hr' <;> cases hr' <;> rfl

theorem slow_step {use : Use} (hs : Slow (periodOf (inverse u) f).d.toInt s) (huse : use.AtMost f)
    (hstep : (loop (inverse u) r).step s use = some s') :
    Slow (periodOf (inverse u) f).d.toInt s' := by
  cases use with
  | setPeriod period => exact huse.elim
  | setFrequency g =>
    cases hstep
    exact ⟨periodOf_anti u u huse, hs.sleeps⟩
  | sleep now later =>
    obtain ⟨-, hstep⟩ := Option.ite_none_right_eq_some.mp hstep
    obtain ⟨⟨early, r'⟩, hsleep, rfl⟩ := Option.map_eq_some_iff.mp hstep
    constructor
    · exact hs.period.trans_eq (congrArg (·.d.toInt) (sleep_period hsleep).symm)
    · intro e he
      rcases List.mem_append.mp he with he | he
      · exact hs.sleeps e he
      · obtain rfl := List.mem_singleton.mp he
        exact hs.period

/-- A loop that never asks for more than `f` Hertz sleeps at most `f + 1` times,
rounded up, in any second. As above, `sleep_until` is punctual, and the loop has no
step where `start_ + period_` overflows: of a frequency so low that its period
reaches past the last time, this says nothing. -/
theorem at_most_frequency (u : Duration) (now : Time) (hpos : 0 < Ieee.value f)
    (hf : Ieee.le f (Ieee.ofInt 40000) = true) {uses : List Use}
    (huses : ∀ use ∈ uses, use.AtMost f)
    (hrun : (loop (inverse u) (ofFrequency (inverse u) f now)).run uses = some s) (lo : Int) :
    (s.sleeps.filter fun e => lo ≤ e.time ∧ e.time < lo + 1000000000).length ≤
      ⌈Ieee.value f⌉ + 1 := by
  have hinit : Slow (periodOf (inverse u) f).d.toInt ⟨ofFrequency (inverse u) f now, []⟩ :=
    ⟨Int.le_refl (periodOf (inverse u) f).d.toInt, List.forall_mem_nil _⟩
  have hslow : Slow (periodOf (inverse u) f).d.toInt s :=
    (loop (inverse u) (ofFrequency (inverse u) f now)).runFrom_invariant
      (P := Use.AtMost f) slow_step huses hinit hrun
  have hnonneg := periodOf_nonneg u (Ieee.isNaN_eq_false.mpr (Ieee.le_iff.mp hf).1)
  obtain ⟨k, hk⟩ := Int.eq_ofNat_of_zero_le
    (show 0 ≤ ⌈Ieee.value f⌉ + 1 from Int.add_nonneg (Int.ceil_nonneg hpos.le) (by decide))
  have hsecond := second_le (u := u) hpos hf
  rw [hk] at hsecond ⊢
  have hwindow := Spaced.length_filter_le hnonneg (paced_run hrun).chain.tail hslow.sleeps lo k
  -- a second is no longer than `k` periods
  have hsub : (s.sleeps.filter fun e => lo ≤ e.time ∧ e.time < lo + 1000000000).length ≤
      (s.sleeps.filter fun e => lo ≤ e.time ∧
        e.time < lo + k • (periodOf (inverse u) f).d.toInt).length := by
    refine (List.monotone_filter_right _ fun e he => ?_).length_le
    obtain ⟨hle, hlt⟩ := of_decide_eq_true he
    refine decide_eq_true ⟨hle, hlt.trans_le ?_⟩
    rw [nsmul_eq_mul]
    exact Int.add_le_add_left hsecond lo
  exact_mod_cast hsub.trans hwindow

/-- 3 Hz with four sleeps in a second, since its period is rounded down; 2 Hz after that -/
theorem at_most_frequency_three :
    ∃ s, (loop (inverse ⟨0⟩) (ofFrequency (inverse ⟨0⟩) 0x4008000000000000 ⟨0⟩)).run
        [.sleep ⟨1⟩ ⟨333333333⟩, .sleep ⟨333333334⟩ ⟨666666666⟩, .sleep ⟨666666667⟩ ⟨999999999⟩,
          .sleep ⟨1000000000⟩ ⟨1333333332⟩, .setFrequency 0x4000000000000000,
          .sleep ⟨1333333333⟩ ⟨1833333332⟩] = some s ∧
      (s.sleeps.filter fun e => 333333333 ≤ e.time ∧ e.time < 333333333 + 1000000000).length = 4 ∧
      (s.sleeps.filter fun e => 333333333 ≤ e.time ∧ e.time < 333333333 + 1000000000).length ≤
        ⌈Ieee.value 0x4008000000000000⌉ + 1 := by
  have hrun : (loop (inverse ⟨0⟩) (ofFrequency (inverse ⟨0⟩) 0x4008000000000000 ⟨0⟩)).run
      [.sleep ⟨1⟩ ⟨333333333⟩, .sleep ⟨333333334⟩ ⟨666666666⟩, .sleep ⟨666666667⟩ ⟨999999999⟩,
        .sleep ⟨1000000000⟩ ⟨1333333332⟩, .setFrequency 0x4000000000000000,
        .sleep ⟨1333333333⟩ ⟨1833333332⟩] = some
      { rate := ⟨⟨500000000⟩, ⟨1833333332⟩⟩
        sleeps := [⟨333333333, 333333333⟩, ⟨333333333, 666666666⟩, ⟨333333333, 999999999⟩,
          ⟨333333333, 1333333332⟩, ⟨500000000, 1833333332⟩] } := by
    decide +kernel
  refine ⟨_, hrun, by decide, ?_⟩
  exact at_most_frequency ⟨0⟩ ⟨0⟩ (by decide +kernel) (by decide +kernel)
    (by simp [Use.AtMost]; decide) hrun 333333333

end Rate

end Rix.Util
