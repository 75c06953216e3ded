-- SUMMARY: Time::to_string: the text of a time, and which times its fraction of a second denotes.
import MBotTeleop.Lib.Numeral
import MBotTeleop.Util.Conversion

/-!
# Printed times

A time is printed as a second, by the calendar of the standard library, and a
fraction of a second. The fraction is the number of microseconds without leading
zeros, so it is too large wherever there ought to be some.
-/

namespace Rix.Util

open Numeral

-- ---------------------------------------------------------------------------
-- Text
-- ---------------------------------------------------------------------------

/-- How `std::put_time` prints what `std::gmtime` or `std::localtime` makes of a
number of seconds since the epoch. -/
structure Calendar where
  /-- `"%D %T"`, where the argument says if it is local time. -/
  dateTime : Bool → Int → List UInt8
  /-- `"%Z"` of the local time. -/
  zone : Int → List UInt8

/-- `ss << n` for an `int64_t` -/
def streamInt (n : Int) : List UInt8 :=
  if n < 0 then '-'.toUInt8 :: numeral n.natAbs else numeral n.natAbs

/-- `Clock::to_time_t(std::chrono::time_point_cast<std::chrono::seconds>(tp))`,
where the argument is converted back to nanoseconds. -/
def Time.toTimeT (t : Time) : Int :=
  let seconds := Chrono.durationCast 1000000000 t.tp.toInt
  Chrono.durationCast 1000000000 (seconds * 1000000000)

/-- `Time::to_string` -/
def Time.toString (c : Calendar) (localTime : Bool) (t : Time) : List UInt8 :=
  let time := t.toTimeT
  let us := t.toMicroseconds.toInt.tmod 1000000
  c.dateTime localTime time ++
    (if us = 0 then '.'.toUInt8 :: List.replicate 6 '0'.toUInt8 else '.'.toUInt8 :: streamInt us) ++
    (if localTime then ' '.toUInt8 :: c.zone time else [' ', 'G', 'M', 'T'].map Char.toUInt8)

-- ---------------------------------------------------------------------------
-- Meaning
-- ---------------------------------------------------------------------------

/-- The second that a time is in. -/
def Time.second (t : Time) : Int := t.tp.toInt / 1000000000

/-- The microseconds of a time within its second. -/
def Time.micros (t : Time) : Nat := (t.tp.toInt / 1000 % 1000000).toNat

/-- A time truncated to microseconds, in seconds since the epoch. -/
def Time.truncated (t : Time) : ℚ := (t.tp.toInt / 1000 : Int) / 10 ^ 6

/-- The text of a time is that of its second, a point, the digits `ds` and a zone. -/
structure Prints (c : Calendar) (localTime : Bool) (t : Time) (ds : List UInt8) : Prop where
  digits : ∀ b ∈ ds, isDigit b = true
  text : t.toString c localTime = c.dateTime localTime t.second ++ '.'.toUInt8 :: ds ++
    (if localTime then ' '.toUInt8 :: c.zone t.second else [' ', 'G', 'M', 'T'].map Char.toUInt8)

/-- As a fraction of a second the digits are the microseconds of the time, and
together with its second they are the time truncated to microseconds. -/
structure Denotes (t : Time) (ds : List UInt8) : Prop where
  micros : fraction ds = t.micros / 10 ^ 6
  truncated : t.second + fraction ds = t.truncated

variable {c : Calendar} {localTime : Bool} {t t' : Time} {ds ds' : List UInt8}

/-- The text has one fraction only. -/
theorem Prints.unique (h : Prints c localTime t ds) (h' : Prints c localTime t ds') : ds = ds' := by
  have heq := h.text.symm.trans h'.text
  rw [List.append_left_inj, List.append_right_inj] at heq
  exact (List.cons.inj heq).2

theorem Time.toTimeT_eq (h : 0 ≤ t.tp.toInt) : t.toTimeT = t.second := by
  have hseconds : Chrono.durationCast 1000000000 t.tp.toInt = t.second :=
    Int.tdiv_eq_ediv_of_nonneg h
  rw [Time.toTimeT, hseconds]
  exact Int.mul_tdiv_cancel _ (by decide)

/-- The second and the microseconds are computed apart, and belong together. -/
theorem Time.second_add_micros (t : Time) :
    (t.second : ℚ) + t.micros / 10 ^ 6 = t.truncated := by
  have hsplit : t.tp.toInt / 1000 = t.second * 10 ^ 6 + (t.micros : Int) := by
    unfold Time.second Time.micros
    omega
  rw [Time.truncated, hsplit]
  push_cast
  ring

theorem Time.micros_lt (t : Time) : t.micros < 10 ^ 6 := by
  unfold Time.micros
  omega

theorem Time.toMicroseconds_tmod (h : 0 ≤ t.tp.toInt) :
    t.toMicroseconds.toInt.tmod 1000000 = t.micros := by
  have hmicros : t.toMicroseconds.toInt = t.tp.toInt.tdiv 1000 :=
    (toInt_convert (by decide) t.tp).1
  rw [hmicros, Int.tdiv_eq_ediv_of_nonneg h, Int.tmod_eq_emod_of_nonneg (by omega)]
  unfold Time.micros
  omega

/-- The digits that are printed for a number of microseconds. -/
def fractionDigits (us : Nat) : List UInt8 :=
  if us = 0 then List.replicate 6 '0'.toUInt8 else numeral us

theorem prints_fractionDigits (h : 0 ≤ t.tp.toInt) :
    Prints c localTime t (fractionDigits t.micros) where
  digits b hb := by
    unfold fractionDigits at hb
    split at hb
    · rw [List.eq_of_mem_replicate hb]
      decide
    · exact isDigit_of_mem_numeral hb
  text := by
    have hnonneg : ¬ (t.micros : Int) < 0 := by omega
    simp only [Time.toString, Time.toTimeT_eq h, Time.toMicroseconds_tmod h, streamInt, hnonneg,
      if_false, Int.natAbs_natCast, Int.natCast_eq_zero, fractionDigits]
    split <;> rfl

/-- No digits denote what a zero does. -/
theorem fraction_fractionDigits (us : Nat) : fraction (fractionDigits us) = fraction (numeral us) := by
  unfold fractionDigits
  split
  · rename_i hzero
    subst hzero
    rw [fraction, fraction, show value (List.replicate 6 '0'.toUInt8) = 0 by decide, value_numeral]
    simp only [Nat.cast_zero, zero_div]
  · rfl

/-- The digits denote the microseconds iff there are none, or none of the six
digits is a leading zero. -/
theorem fraction_eq_micros_iff {us : Nat} (hus : us < 10 ^ 6) :
    fraction (fractionDigits us) = us / 10 ^ 6 ↔ us = 0 ∨ 100000 ≤ us := by
  have hsix := (length_numeral_le_iff (k := 6) (n := us) (by decide)).mpr hus
  have hfive := length_numeral_le_iff (k := 5) (n := us) (by decide)
  rw [fraction_fractionDigits, fraction_numeral_eq_iff]
  refine or_congr_right ?_
  omega

theorem Prints.denotes_iff (h : 0 ≤ t.tp.toInt) (hprints : Prints c localTime t ds) :
    Denotes t ds ↔ t.micros = 0 ∨ 100000 ≤ t.micros := by
  obtain rfl := hprints.unique (prints_fractionDigits h)
  have hiff := fraction_eq_micros_iff t.micros_lt
  constructor
  · intro hdenotes
    exact hiff.mp hdenotes.micros
  · intro hprintable
    have hmicros := hiff.mpr hprintable
    exact ⟨hmicros, by rw [hmicros, Time.second_add_micros]⟩

/-- A time at or after the epoch is printed with one fraction. It denotes the
microseconds, and with the second the time truncated to these, iff there are none
or at least 100000 of them. Of two times the one with more microseconds has the
larger fraction iff it has more of them than the other one filled up with zeros
on the right. -/
theorem printed_denotes_iff (c : Calendar) (localTime : Bool) (t : Time) (h : 0 ≤ t.tp.toInt) :
    (∃! ds, Prints c localTime t ds) ∧
    (∀ ds, Prints c localTime t ds → (Denotes t ds ↔ t.micros = 0 ∨ 100000 ≤ t.micros)) ∧
    ∀ t' ds ds', 0 ≤ t'.tp.toInt → t.micros < t'.micros →
      Prints c localTime t ds → Prints c localTime t' ds' →
      (fraction ds < fraction ds' ↔
        t.micros * 10 ^ ((numeral t'.micros).length - (numeral t.micros).length) < t'.micros) := by
  refine ⟨⟨_, prints_fractionDigits h, fun ds hds => hds.unique (prints_fractionDigits h)⟩,
    fun ds hds => hds.denotes_iff h, ?_⟩
  intro t' ds ds' h' hlt hds hds'
  obtain rfl := hds.unique (prints_fractionDigits h)
  obtain rfl := hds'.unique (prints_fractionDigits h')
  rw [fraction_fractionDigits, fraction_fractionDigits, fraction_numeral_lt_iff hlt.le]

/-- What the standard library prints in the first minute since the epoch. -/
def firstMinute : Calendar where
  dateTime _ time := "01/01/70 00:00:".toList.map Char.toUInt8 ++
    [digit (time.toNat / 10), digit (time.toNat % 10)]
  zone _ := "GMT".toList.map Char.toUInt8

/-- One and a quarter seconds after the epoch. -/
theorem printed_denotes_iff_example :
    ∃ ds, Prints firstMinute false ⟨1250000000⟩ ds ∧ Denotes ⟨1250000000⟩ ds := by
  obtain ⟨⟨ds, hds, -⟩, hiff, -⟩ := printed_denotes_iff firstMinute false ⟨1250000000⟩ (by decide)
  exact ⟨ds, hds, (hiff ds hds).mpr (.inr (by decide))⟩

/-- One second and five microseconds after the epoch are printed as one and a half. -/
theorem five_micros_printed_as_half :
    (⟨1000005000⟩ : Time).toString firstMinute false =
        "01/01/70 00:00:01.5 GMT".toList.map Char.toUInt8 ∧
      ¬ ∃ ds, Prints firstMinute false ⟨1000005000⟩ ds ∧ Denotes ⟨1000005000⟩ ds := by
  refine ⟨by decide, ?_⟩
  rintro ⟨ds, hds, hdenotes⟩
  exact absurd ((hds.denotes_iff (by decide)).mp hdenotes) (by decide)

end Rix.Util
