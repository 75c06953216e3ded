-- SUMMARY: Rate, the period of a loop: any operations on any number of objects, and when all of them stay usable.
import MBotTeleop.Lib.Ieee
import MBotTeleop.Lib.Machine
import MBotTeleop.Util.Conversion

/-!
# Rate

Five operations of `Rate` choose a period, each in its own way, and `sleep` adds
the period to a point in time. A period can be too short for `frequency`, or so
long that the sum overflows.
-/

namespace Rix.Util

-- ---------------------------------------------------------------------------
-- The class
-- ---------------------------------------------------------------------------

/-- `Time::operator+(const Duration &)`; `none` where the signed sum overflows. -/
def Time.add (t : Time) (d : Duration) : Option Time :=
  if t.tp.saddOverflow d.d then none else some ⟨t.tp + d.d⟩

/-- `Duration::safe_forever()`, which is ten years -/
def Duration.safeForever : Duration := ⟨315360000000000000⟩

/-- `Rate` -/
structure Rate where
  period : Duration
  start : Time
  deriving DecidableEq, Repr

namespace Rate

/-- `min_frequency()`. The divisor of `1e9` becomes `2^63` as a double, so that
only the exponent changes. -/
def minFrequency : BitVec 64 := 0x3dddcd6500000000

/-- `min_period()`, which is `Duration(0, 1)` -/
def minPeriod : Duration := ⟨ofParts 0 1⟩

/-- `max_period()` -/
def maxPeriod : Duration := ⟨9223372036854775807⟩

/-- `Rate()`, where `now` is what `Time::now()` returns, here and below. -/
def default (now : Time) : Rate := { period := ⟨0⟩, start := now }

/-- The period for a frequency. `inverse` is `Duration(1.0 / frequency)`. -/
def periodOf (inverse : BitVec 64 → Duration) (frequency : BitVec 64) : Duration :=
  if Ieee.le frequency minFrequency then maxPeriod else inverse frequency

/-- `Rate(double frequency)` -/
def ofFrequency (inverse : BitVec 64 → Duration) (frequency : BitVec 64) (now : Time) : Rate :=
  { period := periodOf inverse frequency, start := now }

/-- `Rate(Duration period)` -/
def ofPeriod (period : Duration) (now : Time) : Rate where
  period := if period.d.sle minPeriod.d then minPeriod else period
  start := now

/-- `Rate(const Rate &)` and `operator=`, which swaps with a copy. -/
def copy (other : Rate) : Rate := { period := other.period, start := other.start }

/-- `set_period` -/
def setPeriod (r : Rate) (period : Duration) : Rate := { r with period }

/-- `set_frequency` -/
def setFrequency (inverse : BitVec 64 → Duration) (r : Rate) (frequency : BitVec 64) : Rate :=
  { r with period := periodOf inverse frequency }

/-- `sleep`, where `Time::now()` returns `now` at first, and `later` after
`sleep_until`. -/
def sleep (r : Rate) (now later : Time) : Option (Bool × Rate) :=
  (r.start.add r.period).map fun deadline =>
    if now.tp.slt deadline.tp then (true, { r with start := later })
    else (false, { r with start := now })

/-- What `frequency()` returns: `0.0`, or `1.0 / (ns * 1e-9)`, which divides by
zero for no other `ns` than zero. -/
inductive Frequency where
  | zero
  | inverse (ns : BitVec 64)
  deriving DecidableEq, Repr

/-- `frequency()` -/
def frequency (r : Rate) : Frequency :=
  let ns := r.period.toNanoseconds
  if ns = 9223372036854775807 then .zero else .inverse ns

/-! ## Usable objects -/

/-- An object whose period and next wake-up can be computed with. -/
structure Usable (r : Rate) : Prop where
  period : minPeriod.d.toInt ≤ r.period.d.toInt
  frequency : r.frequency ≠ .inverse 0
  sum : r.start.tp.saddOverflow r.period.d = false
  /-- `sleep` returns whether less than the period has passed since `start_`. -/
  sleep : ∀ now later : Time,
    let early := decide (now.tp.toInt - r.start.tp.toInt < r.period.d.toInt)
    r.sleep now later = some (early, { r with start := if early then later else now })

/-- `n` nanoseconds after a point in time there still is a point in time. -/
def Reaches (t : Time) (n : Int) : Prop := t.tp.toInt + n ≤ 9223372036854775807

instance (t : Time) (n : Int) : Decidable (Reaches t n) := inferInstanceAs (Decidable (_ ≤ _))

variable {r : Rate}

theorem saddOverflow_eq_false (h : 1 ≤ r.period.d.toInt) :
    r.start.tp.saddOverflow r.period.d = false ↔ Reaches r.start r.period.d.toInt := by
  have hge := BitVec.le_toInt r.start.tp
  simp only [BitVec.saddOverflow, Bool.or_eq_false_iff, decide_eq_false_iff_not, Reaches]
  omega

theorem sleep_of_reaches (h : 1 ≤ r.period.d.toInt) (hreach : Reaches r.start r.period.d.toInt)
    (now later : Time) :
    let early := decide (now.tp.toInt - r.start.tp.toInt < r.period.d.toInt)
    r.sleep now later = some (early, { r with start := if early then later else now }) := by
  have hsum := (saddOverflow_eq_false h).mpr hreach
  have htoInt : (r.start.tp + r.period.d).toInt = r.start.tp.toInt + r.period.d.toInt :=
    BitVec.toInt_add_of_not_saddOverflow (by rw [hsum]; decide)
  intro early
  have hearly : now.tp.slt (r.start.tp + r.period.d) = early := by
    rw [BitVec.slt_eq_decide, htoInt]
    exact decide_eq_decide.mpr (by omega)
  rw [sleep, Time.add, hsum]
  simp only [Bool.false_eq_true, if_false, Option.map_some, hearly]
  cases early <;> rfl

/-- Two bounds make an object usable: the least period, and the last time. -/
theorem usable_iff : r.Usable ↔ 1 ≤ r.period.d.toInt ∧ Reaches r.start r.period.d.toInt := by
  constructor
  · intro h
    exact ⟨h.period, (saddOverflow_eq_false h.period).mp h.sum⟩
  · rintro ⟨hperiod, hreach⟩
    refine ⟨hperiod, ?_, (saddOverflow_eq_false hperiod).mpr hreach,
      sleep_of_reaches hperiod hreach⟩
    intro hzero
    rw [frequency] at hzero
    split at hzero
    · cases hzero
    · have hns : r.period.d = 0 := Frequency.inverse.inj hzero
      rw [hns] at hperiod
      exact absurd hperiod (by decide)

/-- The constructor from a `Duration` clamps from below. -/
theorem toInt_ofPeriod (period : Duration) (now : Time) :
    (ofPeriod period now).period.d.toInt = max 1 period.d.toInt := by
  have hmin : minPeriod.d.toInt = 1 := by decide
  simp only [ofPeriod, BitVec.sle_eq_decide, decide_eq_true_eq, hmin]
  split <;> omega

-- ---------------------------------------------------------------------------
-- Any number of objects
-- ---------------------------------------------------------------------------

/-- What the clock reads: a time from the epoch on, and before the year 2100. -/
structure Reading where
  time : Time
  from_epoch : 0 ≤ time.tp.toInt
  before_2100 : time.tp.toInt < 4102444800000000000

/-- A frequency at or below `min_frequency()` -/
structure LowFrequency where
  frequency : BitVec 64
  low : Ieee.le frequency minFrequency = true

/-- The operations on objects, which are numbered. A constructor may take the
number of an object that is gone. -/
inductive Op where
  | default (o : Nat) (now : Reading)
  | ofFrequency (o : Nat) (frequency : LowFrequency) (now : Reading)
  | ofPeriod (o : Nat) (period : Duration) (now : Reading)
  | copyConstruct (o other : Nat)
  | copyAssign (o other : Nat)
  | setPeriod (o : Nat) (period : Duration)
  | setFrequency (o : Nat) (frequency : LowFrequency)
  | sleep (o : Nat) (now later : Reading)

/-- The object that an operation makes or changes. -/
def Op.object : Op → Nat
  | default o _ | ofFrequency o _ _ | ofPeriod o _ _ | copyConstruct o _ | copyAssign o _
  | setPeriod o _ | setFrequency o _ | sleep o _ _ => o

/-- What it makes of it; `none` without the objects that it needs, or where
`sleep` overflows. -/
def Op.result (inverse : BitVec 64 → Duration) (s : Nat → Option Rate) : Op → Option Rate
  | default _ now => some (Rate.default now.time)
  | ofFrequency _ f now => some (Rate.ofFrequency inverse f.frequency now.time)
  | ofPeriod _ period now => some (Rate.ofPeriod period now.time)
  | copyConstruct _ other => (s other).map copy
  | copyAssign o other => (s o).bind fun _ => (s other).map copy
  | setPeriod o period => (s o).map fun r => r.setPeriod period
  | setFrequency o f => (s o).map fun r => r.setFrequency inverse f.frequency
  | sleep o now later => (s o).bind fun r => (r.sleep now.time later.time).map Prod.snd

/-- Programs that use objects. -/
def rates (inverse : BitVec 64 → Duration) : Machine (Nat → Option Rate) Op where
  init := fun _ => none
  step s op := (op.result inverse s).map fun r => Function.update s op.object (some r)

/-- All objects are usable. -/
def AllUsable (s : Nat → Option Rate) : Prop := ∀ o r, s o = some r → r.Usable

/-- The period that an operation gives to an object, and the point in time from
which it counts, do not reach past the last point in time. A period that is not
clamped is at least a nanosecond. -/
def Op.Safe (s : Nat → Option Rate) : Op → Prop
  | default _ _ => False
  | ofFrequency _ _ now => Reaches now.time maxPeriod.d.toInt
  | ofPeriod _ period now => Reaches now.time (max 1 period.d.toInt)
  | copyConstruct _ _ | copyAssign _ _ => True
  | setPeriod o period =>
    1 ≤ period.d.toInt ∧ ∀ r, s o = some r → Reaches r.start period.d.toInt
  | setFrequency o _ => ∀ r, s o = some r → Reaches r.start maxPeriod.d.toInt
  | sleep o now later => ∀ r, s o = some r →
    if now.time.tp.toInt - r.start.tp.toInt < r.period.d.toInt then
      Reaches later.time r.period.d.toInt
    else Reaches now.time r.period.d.toInt

section

variable {inverse : BitVec 64 → Duration} {s s' : Nat → Option Rate} {op : Op}

theorem rates_step : (rates inverse).step s op = some s' ↔
    ∃ r, op.result inverse s = some r ∧ Function.update s op.object (some r) = s' :=
  Option.map_eq_some_iff

theorem periodOf_low (f : LowFrequency) : periodOf inverse f.frequency = maxPeriod :=
  if_pos f.low

/-- An operation on usable objects leaves a usable one exactly where it is safe. -/
theorem usable_result_iff (hs : AllUsable s) {r : Rate} (h : op.result inverse s = some r) :
    r.Usable ↔ op.Safe s := by
  have hmax : 1 ≤ maxPeriod.d.toInt := by decide
  cases op with
  | default o now =>
    cases h
    have hzero : ¬ 1 ≤ (default now.time).period.d.toInt := show ¬ 1 ≤ (0#64).toInt by decide
    exact iff_of_false (fun husable => hzero (usable_iff.mp husable).1) id
  | ofFrequency o f now =>
    cases h
    rw [usable_iff, ofFrequency, periodOf_low]
    exact and_iff_right hmax
  | ofPeriod o period now =>
    cases h
    rw [usable_iff, toInt_ofPeriod]
    exact and_iff_right (Int.le_max_left ..)
  | copyConstruct o other =>
    obtain ⟨r', hr', rfl⟩ := Option.map_eq_some_iff.mp h
    exact iff_of_true (hs other r' hr') trivial
  | copyAssign o other =>
    obtain ⟨_, -, h⟩ := Option.bind_eq_some_iff.mp h
    obtain ⟨r', hr', rfl⟩ := Option.map_eq_some_iff.mp h
    exact iff_of_true (hs other r' hr') trivial
  | setPeriod o period =>
    obtain ⟨r', hr', rfl⟩ := Option.map_eq_some_iff.mp h
    simp only [usable_iff, setPeriod, Op.Safe, hr', Option.some.injEq, forall_eq']
  | setFrequency o f =>
    obtain ⟨r', hr', rfl⟩ := Option.map_eq_some_iff.mp h
    simp only [usable_iff, setFrequency, periodOf_low, Op.Safe, hr', Option.some.injEq, forall_eq']
    exact and_iff_right hmax
  | sleep o now later =>
    obtain ⟨r', hr', h⟩ := Option.bind_eq_some_iff.mp h
    obtain ⟨hperiod, hreach⟩ := usable_iff.mp (hs o r' hr')
    rw [sleep_of_reaches hperiod hreach, Option.map_some, Option.some.injEq] at h
    subst h
    simp only [usable_iff, hperiod, true_and, Op.Safe, hr', Option.some.injEq, forall_eq',
      decide_eq_true_eq]
    split <;> rfl

/-- What holds of all objects still does if it holds of the one that is new. -/
theorem forall_update_iff {P : Rate → Prop} (hs : ∀ o r, s o = some r → P r) (o : Nat) (r : Rate) :
    (∀ o' r', Function.update s o (some r) o' = some r' → P r') ↔ P r := by
  rw [Function.forall_update_iff s fun _ held => ∀ r', held = some r' → P r']
  simp only [Option.some.injEq, forall_eq']
  exact and_iff_left fun o' _ => hs o'

/-- So a step from usable objects leaves all of them usable exactly where it is safe. -/
theorem allUsable_step_iff (hs : AllUsable s) (hstep : (rates inverse).step s op = some s') :
    AllUsable s' ↔ op.Safe s := by
  obtain ⟨r, hr, rfl⟩ := rates_step.mp hstep
  exact (forall_update_iff hs op.object r).trans (usable_result_iff hs hr)

end

/-- All objects stay usable throughout exactly the runs whose operations all are
safe where they are done. -/
theorem usable_throughout_iff (inverse : BitVec 64 → Duration) (ops : List Op) :
    (rates inverse).Throughout AllUsable ops ↔
      (rates inverse).BeforeEach (fun _ s op => op.Safe s) ops := by
  apply (rates inverse).throughout_iff (J := fun _ s => AllUsable s)
  · rintro o r ⟨⟩
  · exact id
  · exact fun hs hstep => (allUsable_step_iff hs hstep).mpr
  · exact fun hs hstep => (allUsable_step_iff hs hstep).mp

/-- No frequency, no period, and a period of zero that is set later. -/
theorem not_usable_throughout :
    let now : Reading := ⟨⟨1700000000000000000⟩, by decide, by decide⟩
    let never : LowFrequency := ⟨0, by decide⟩
    let M := rates fun _ => ⟨0⟩
    ¬ M.Throughout AllUsable [.ofFrequency 0 never now] ∧
      (∀ later, (ofFrequency (fun _ => ⟨0⟩) 0 now.time).sleep now.time later = none) ∧
      ¬ M.Throughout AllUsable [.default 0 now] ∧
      ¬ M.Throughout AllUsable [.ofPeriod 0 ⟨1000000000⟩ now, .setPeriod 0 ⟨0⟩] := by
  intro now never M
  have hnone : Time.add now.time maxPeriod = none := if_pos (by decide)
  refine ⟨fun h => ?_, fun later => congrArg (Option.map _) hnone, fun h => ?_, fun h => ?_⟩
  · have hforever := usable_iff.mp (h _ _ (List.prefix_refl _) rfl 0 _ rfl)
    exact absurd hforever.2 (by decide)
  · have hzero := usable_iff.mp (h _ _ (List.prefix_refl _) rfl 0 _ rfl)
    exact absurd hzero.1 (by decide)
  · have hzero := usable_iff.mp (h _ _ (List.prefix_refl _) rfl 0 _ rfl)
    exact absurd hzero.1 (by decide)

/-! ## Periods that are always safe -/

/-- The period that stands for forever reaches past the last point in time from
every point after the epoch. -/
theorem reaches_maxPeriod_iff (now : Reading) :
    Reaches now.time maxPeriod.d.toInt ↔ now.time.tp.toInt = 0 := by
  have hmax : maxPeriod.d.toInt = 9223372036854775807 := by decide
  have hge := now.from_epoch
  rw [Reaches, hmax]
  omega

/-- The longest period, of some 162 years, that reaches no further from any point
in time before the year 2100. -/
def longest : Int := 5120927236854775808

example : Duration.safeForever.d.toInt ≤ longest := by decide

/-- Only periods from a nanosecond to the longest are chosen. -/
def Op.Moderate : Op → Prop
  | default .. | ofFrequency .. | setFrequency .. => False
  | ofPeriod _ period _ => period.d.toInt ≤ longest
  | setPeriod _ period => 1 ≤ period.d.toInt ∧ period.d.toInt ≤ longest
  | copyConstruct .. | copyAssign .. | sleep .. => True

/-- What holds of an object that had only such periods. -/
structure Moderate (r : Rate) : Prop where
  period_pos : 1 ≤ r.period.d.toInt
  period_le : r.period.d.toInt ≤ longest
  start : ∃ reading : Reading, r.start = reading.time

theorem Moderate.usable {r : Rate} (h : r.Moderate) : r.Usable := by
  obtain ⟨reading, hstart⟩ := h.start
  have hlt := reading.before_2100
  have hle := h.period_le
  rw [usable_iff, Reaches, hstart]
  exact ⟨h.period_pos, by unfold longest at hle; omega⟩

theorem moderate_result {inverse : BitVec 64 → Duration} {s : Nat → Option Rate} {op : Op} {r : Rate}
    (hs : ∀ o r, s o = some r → r.Moderate) (hop : op.Moderate)
    (h : op.result inverse s = some r) : r.Moderate := by
  cases op with
  | default | ofFrequency | setFrequency => cases hop
  | ofPeriod o period now =>
    cases h
    have hperiod := toInt_ofPeriod period now.time
    have hlongest : 1 ≤ longest := by decide
    have hle : period.d.toInt ≤ longest := hop
    exact ⟨by omega, by omega, now, rfl⟩
  | copyConstruct o other =>
    obtain ⟨r', hr', rfl⟩ := Option.map_eq_some_iff.mp h
    exact hs other r' hr'
  | copyAssign o other =>
    obtain ⟨_, -, h⟩ := Option.bind_eq_some_iff.mp h
    obtain ⟨r', hr', rfl⟩ := Option.map_eq_some_iff.mp h
    exact hs other r' hr'
  | setPeriod o period =>
    obtain ⟨r', hr', rfl⟩ := Option.map_eq_some_iff.mp h
    exact ⟨hop.1, hop.2, (hs o r' hr').start⟩
  | sleep o now later =>
    obtain ⟨r', hr', h⟩ := Option.bind_eq_some_iff.mp h
    have hr'' := hs o r' hr'
    rw [hr''.usable.sleep, Option.map_some, Option.some.injEq] at h
    subst h
    refine ⟨hr''.period_pos, hr''.period_le, ?_⟩
    simp only
    split
    · exact ⟨later, rfl⟩
    · exact ⟨now, rfl⟩

/-- With such periods all objects stay usable, whatever the clock reads. -/
theorem usable_of_moderate (inverse : BitVec 64 → Duration) {ops : List Op}
    (h : ∀ op ∈ ops, op.Moderate) : (rates inverse).Throughout AllUsable ops := by
  intro ops₁ s hpre hrun
  suffices hs : ∀ o r, s o = some r → r.Moderate from fun o r hr => (hs o r hr).usable
  refine (rates inverse).run_invariant
    (I := fun ops₁ s => ops₁ <+: ops → ∀ o r, s o = some r → r.Moderate) ?_ ?_ hrun hpre
  · rintro - o r ⟨⟩
  · intro ops₁ s op s' _ hs hstep hpre
    have hop := h op (hpre.subset (List.mem_append_right _ List.mem_cons_self))
    have hs := hs ((List.prefix_append ops₁ [op]).trans hpre)
    obtain ⟨r, hr, rfl⟩ := rates_step.mp hstep
    exact (forall_update_iff hs op.object r).mpr (moderate_result hs hop hr)

end Rate

end Rix.Util
