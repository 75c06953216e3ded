-- SUMMARY: Objects that hold handles of a table: what they can do with them, and who is responsible for which handle.
import MBotTeleop.Lib.Ledger
import MBotTeleop.Lib.Ownership
import Mathlib.Logic.Equiv.Basic
import Mathlib.Logic.Relation

/-!
# Custody of handles

A handle refers to an entry of a table while it is open. Objects hold handles,
or `nil`, which is never open. An object may open a handle, adopt one that is
open already, close the one it holds, or swap with another object.
-/

structure Custody (ι η φ : Type) where
  /-- What the open handles refer to. -/
  table : η → Option φ
  /-- Handles opened and closed by the objects. -/
  ledger : Ledger η
  /-- The handle of every object that exists. -/
  held : ι → Option η

namespace Custody

variable {ι η φ : Type} [DecidableEq ι]

-- ---------------------------------------------------------------------------
-- Soundness
-- ---------------------------------------------------------------------------

/-- No two objects hold one handle, and the handles they hold are open. -/
structure Sound (nil : η) (c : Custody ι η φ) : Prop where
  nil_closed : c.table nil = none
  isOpen : ∀ {a x}, c.held a = some x → x ≠ nil → c.table x ≠ none
  apart : ∀ {a b x}, c.held a = some x → c.held b = some x → x ≠ nil → a = b

variable {nil : η} {c c' : Custody ι η φ}

/-- An object is left with nothing. -/
theorem Sound.empty (h : Sound nil c) (a : ι) {o : Option η} (ho : o = none ∨ o = some nil) :
    Sound nil { c with held := Function.update c.held a o } := by
  have hold {b : ι} {x : η} (hb : Function.update c.held a o b = some x) (hx : x ≠ nil) :
      c.held b = some x := by
    rcases Owns.update_cases hb with ⟨-, heq⟩ | ⟨-, hb⟩
    · rcases ho with rfl | rfl
      · cases heq
      · exact (hx (Option.some.inj heq).symm).elim
    · exact hb
  refine ⟨h.nil_closed, fun hb hx => h.isOpen (hold hb hx) hx, fun hb hc hx => ?_⟩
  exact h.apart (hold hb hx) (hold hc hx) hx

/-- An object is given an open handle that nobody holds. -/
theorem Sound.give (h : Sound nil c) (a : ι) {x : η} (hopen : c.table x ≠ none)
    (hunheld : ∀ b, c.held b ≠ some x) :
    Sound nil { c with held := Function.update c.held a (some x) } where
  nil_closed := h.nil_closed
  isOpen := by
    intro b y hb hy
    rcases Owns.update_cases hb with ⟨-, heq⟩ | ⟨-, hb⟩
    · obtain rfl := Option.some.inj heq
      exact hopen
    · exact h.isOpen hb hy
  apart := by
    intro b d y hb hd hy
    rcases Owns.update_cases hb with ⟨rfl, heq⟩ | ⟨-, hold⟩ <;>
      rcases Owns.update_cases hd with ⟨rfl, heq'⟩ | ⟨-, hold'⟩
    · rfl
    · exact (hunheld d (hold'.trans heq.symm)).elim
    · exact (hunheld b (hold.trans heq'.symm)).elim
    · exact h.apart hold hold' hy

-- ---------------------------------------------------------------------------
-- Steps
-- ---------------------------------------------------------------------------

variable [DecidableEq η] {kept : η → Prop} {adopting : Prop}

/-- The handles in `kept` may be given up without closing them. -/
inductive Step (nil : η) (kept : η → Prop) (adopting : Prop) (c : Custody ι η φ) :
    Custody ι η φ → Prop
  | make (a : ι) (new : c.held a = none) :
    Step nil kept adopting c { c with held := Function.update c.held a (some nil) }
  | drop (a : ι) (empty : c.held a = some nil) :
    Step nil kept adopting c { c with held := Function.update c.held a none }
  | acquire (a : ι) (x : η) (f : φ) (empty : c.held a = some nil) (closed : c.table x = none)
    (valid : x ≠ nil) :
    Step nil kept adopting c
      { table := Function.update c.table x (some f)
        ledger := c.ledger.issue x
        held := Function.update c.held a (some x) }
  | adopt (a : ι) (x : η) (allowed : adopting) (empty : c.held a = some nil)
    (opened : c.table x ≠ none) (unheld : ∀ b, c.held b ≠ some x) :
    Step nil kept adopting c { c with held := Function.update c.held a (some x) }
  | close (a : ι) (x : η) (held : c.held a = some x) (valid : x ≠ nil) :
    Step nil kept adopting c
      { table := Function.update c.table x none
        ledger := c.ledger.release x
        held := Function.update c.held a (some nil) }
  | forget (a : ι) (x : η) (keep : kept x) (held : c.held a = some x) :
    Step nil kept adopting c { c with held := Function.update c.held a (some nil) }
  | swap (a b : ι) (left : c.held a ≠ none) (right : c.held b ≠ none) :
    Step nil kept adopting c { c with held := c.held ∘ Equiv.swap a b }

/-- Any number of steps. -/
abbrev Steps (nil : η) (kept : η → Prop) (adopting : Prop) :
    Custody ι η φ → Custody ι η φ → Prop :=
  Relation.ReflTransGen (Step nil kept adopting)

theorem Sound.step (h : Sound nil c) (hstep : Step nil kept adopting c c') : Sound nil c' := by
  cases hstep with
  | make a new => exact h.empty _ (.inr rfl)
  | drop a empty => exact h.empty _ (.inl rfl)
  | acquire a x f empty closed valid =>
    have hunheld (b : ι) : c.held b ≠ some x := fun hb => h.isOpen hb valid closed
    have hsound : Sound nil { c with table := Function.update c.table x (some f) } := by
      refine ⟨(Function.update_of_ne valid.symm ..).trans h.nil_closed, ?_, h.apart⟩
      intro b y hb hy
      have hyx : y ≠ x := fun heq => hunheld b (heq ▸ hb)
      exact fun hnone => h.isOpen hb hy ((Function.update_of_ne hyx ..).symm.trans hnone)
    have hopen : Function.update c.table x (some f) x ≠ none := by
      rw [Function.update_self]
      nofun
    obtain ⟨hnil, hisOpen, hapart⟩ := hsound.give a hopen hunheld
    exact ⟨hnil, hisOpen, hapart⟩
  | adopt a x allowed empty opened unheld => exact h.give _ opened unheld
  | close a x held valid =>
    obtain ⟨hnil, hisOpen, hapart⟩ := h.empty a (.inr rfl)
    refine ⟨(Function.update_of_ne valid.symm ..).trans h.nil_closed, ?_, hapart⟩
    intro b y hb hy
    -- nobody else holds the closed handle
    have hyx : y ≠ x := by
      rintro rfl
      rcases Owns.update_cases hb with ⟨-, heq⟩ | ⟨hba, hb⟩
      · exact hy (Option.some.inj heq).symm
      · exact hba (h.apart hb held hy)
    exact fun hnone => hisOpen hb hy ((Function.update_of_ne hyx ..).symm.trans hnone)
  | forget a x keep held => exact h.empty _ (.inr rfl)
  | swap a b left right =>
    refine ⟨h.nil_closed, fun hd hx => h.isOpen hd hx, fun hd he hx => ?_⟩
    exact (Equiv.swap a b).injective (h.apart hd he hx)

theorem Sound.steps (h : Sound nil c) (hsteps : Steps nil kept adopting c c') : Sound nil c' := by
  induction hsteps with
  | refl => exact h
  | tail _ hstep ih => exact ih.step hstep

-- ---------------------------------------------------------------------------
-- Accounting
-- ---------------------------------------------------------------------------

/-- The handle that an object is responsible for. -/
def holds (nil : η) (c : Custody ι η φ) (a : ι) : Option η := (c.held a).filter (· ≠ nil)

omit [DecidableEq ι] in
theorem holds_eq_some {a : ι} {x : η} : c.holds nil a = some x ↔ c.held a = some x ∧ x ≠ nil := by
  simp [holds, Option.filter_eq_some_iff]

theorem holds_update (table : η → Option φ) (ledger : Ledger η) (a : ι) (o : Option η) :
    holds nil ⟨table, ledger, Function.update c.held a o⟩ =
      Function.update (c.holds nil) a (o.filter (· ≠ nil)) :=
  Function.comp_update (Option.filter (· ≠ nil)) c.held a o

/-- The objects hold the handles that are outstanding in the ledger, and what
must be kept is open without having been issued. -/
structure Accounted (nil : η) (kept : η → Prop) (c : Custody ι η φ) : Prop where
  sound : Sound nil c
  owns : Owns (c.holds nil) fun x => (c.ledger.current x).isSome = true
  balanced : c.ledger.Balanced
  kept : ∀ {x}, kept x → c.table x ≠ none ∧ c.ledger.current x = none

omit [DecidableEq ι] in
/-- Nothing that must be kept is held. -/
theorem Accounted.not_held (h : Accounted nil kept c) {x : η} (hx : kept x) (a : ι) :
    c.held a ≠ some x := by
  intro ha
  obtain ⟨hopen, hnone⟩ := h.kept hx
  have hnil : x ≠ nil := fun heq => hopen (heq ▸ h.sound.nil_closed)
  have hsome := (h.owns.used_iff x).mpr ⟨a, holds_eq_some.mpr ⟨ha, hnil⟩⟩
  rw [hnone] at hsome
  cases hsome

omit [DecidableEq ι] in
/-- A closed handle is not outstanding. -/
theorem Accounted.current_eq_none (h : Accounted nil kept c) {x : η} (hx : c.table x = none) :
    c.ledger.current x = none := by
  by_contra hcurrent
  obtain ⟨a, ha⟩ := (h.owns.used_iff x).mp (Option.isSome_iff_ne_none.mpr hcurrent)
  obtain ⟨ha, hnil⟩ := holds_eq_some.mp ha
  exact h.sound.isOpen ha hnil hx

/-- An object that is responsible for nothing is left with nothing. -/
theorem Accounted.owns_empty (h : Accounted nil kept c) {a : ι} (ha : ∀ x, c.held a = some x → x = nil)
    {o : Option η} (ho : o.filter (· ≠ nil) = none) :
    Owns (holds nil { c with held := Function.update c.held a o })
      fun x => (c.ledger.current x).isSome = true := by
  have hnone : c.holds nil a = none := by
    apply Option.eq_none_iff_forall_ne_some.mpr
    intro x hx
    obtain ⟨hx, hnil⟩ := holds_eq_some.mp hx
    exact hnil (ha x hx)
  have hsame : Function.update (c.holds nil) a none = c.holds nil := by
    rw [← hnone, Function.update_eq_self]
  rw [holds_update, ho, hsame]
  exact h.owns

/-- Without adoption, every handle that is closed was opened by the objects, and
nothing that must be kept is ever held. -/
theorem Accounted.step (h : Accounted nil kept c) (hstep : Step nil kept False c c') :
    Accounted nil kept c' := by
  have hsound := h.sound.step hstep
  have hnil {x : η} (hx : some nil = some x) : x = nil := (Option.some.inj hx).symm
  cases hstep with
  | make a new =>
    have howns := h.owns_empty (fun x hx => nomatch new.symm.trans hx) (o := some nil) (by simp)
    exact ⟨hsound, howns, h.balanced, h.kept⟩
  | drop a empty =>
    have howns := h.owns_empty (fun x hx => hnil (empty.symm.trans hx)) (o := none) rfl
    exact ⟨hsound, howns, h.balanced, h.kept⟩
  | acquire a x f empty closed valid =>
    have hcurrent := h.current_eq_none closed
    refine ⟨hsound, ?_, h.balanced.issue hcurrent, ?_⟩
    · have hnone : c.holds nil a = none := by simp [holds, empty]
      have hfree : ¬ (c.ledger.current x).isSome = true := by simp [hcurrent]
      rw [holds_update, Option.filter_some_pos (by simpa using valid)]
      apply (h.owns.take hnone hfree).congr
      intro y
      by_cases hyx : y = x
      · simp [hyx]
      · simp [hyx, Ledger.issue_current_of_ne hyx]
    · intro y hy
      obtain ⟨hopen, hnone⟩ := h.kept hy
      have hyx : y ≠ x := fun heq => hopen (heq ▸ closed)
      exact ⟨(Function.update_of_ne hyx ..).trans_ne hopen,
        (Ledger.issue_current_of_ne hyx).trans hnone⟩
  | adopt a x allowed empty opened unheld => exact allowed.elim
  | close a x held valid =>
    have hheld := holds_eq_some.mpr ⟨held, valid⟩
    obtain ⟨i, hi⟩ := Option.isSome_iff_exists.mp ((h.owns.used_iff x).mpr ⟨a, hheld⟩)
    refine ⟨hsound, ?_, h.balanced.release hi, ?_⟩
    · rw [holds_update, Option.filter_some_neg (by simp)]
      apply (h.owns.drop a).congr
      intro y
      rw [Ledger.release_current hi, hheld]
      by_cases hyx : y = x
      · simp [hyx]
      · simp [hyx, Ne.symm hyx]
    · intro y hy
      obtain ⟨hopen, hnone⟩ := h.kept hy
      have hyx : y ≠ x := fun heq => h.not_held hy a (heq ▸ held)
      refine ⟨(Function.update_of_ne hyx ..).trans_ne hopen, ?_⟩
      rw [Ledger.release_current hi, Function.update_of_ne hyx, hnone]
  | forget a x keep held => exact (h.not_held keep a held).elim
  | swap a b left right => exact ⟨hsound, h.owns.perm (Equiv.swap a b), h.balanced, h.kept⟩

theorem Accounted.steps (h : Accounted nil kept c) (hsteps : Steps nil kept False c c') :
    Accounted nil kept c' := by
  induction hsteps with
  | refl => exact h
  | tail _ hstep ih => exact ih.step hstep

-- ---------------------------------------------------------------------------
-- Entries that objects opened
-- ---------------------------------------------------------------------------

/-- Whatever is open and refers to an entry with `P` was opened by the objects. -/
def Backed (P : φ → Prop) (c : Custody ι η φ) : Prop :=
  ∀ x f, c.table x = some f → P f → (c.ledger.current x).isSome = true

variable {P : φ → Prop}

theorem Backed.step (h : Backed P c) (haccounted : Accounted nil kept c)
    (hstep : Step nil kept adopting c c') : Backed P c' := by
  cases hstep with
  | make | drop | adopt | forget | swap => exact h
  | acquire a x f empty closed valid =>
    intro y g hy hg
    by_cases hyx : y = x
    · rw [hyx, Ledger.issue_current_self]
      rfl
    · rw [Ledger.issue_current_of_ne hyx]
      exact h y g ((Function.update_of_ne hyx ..).symm.trans hy) hg
  | close a x held valid =>
    intro y g hy hg
    have hyx : y ≠ x := by
      rintro rfl
      simp at hy
    have hheld := holds_eq_some.mpr ⟨held, valid⟩
    obtain ⟨i, hi⟩ := Option.isSome_iff_exists.mp ((haccounted.owns.used_iff x).mpr ⟨a, hheld⟩)
    rw [Ledger.release_current hi, Function.update_of_ne hyx]
    exact h y g ((Function.update_of_ne hyx ..).symm.trans hy) hg

theorem Backed.steps (h : Backed P c) (haccounted : Accounted nil kept c)
    (hsteps : Steps nil kept False c c') : Backed P c' := by
  induction hsteps with
  | refl => exact h
  | tail hsteps hstep ih => exact ih.step (haccounted.steps hsteps) hstep

omit [DecidableEq ι] in
/-- So an object holds it. -/
theorem Accounted.holder (haccounted : Accounted nil kept c) (h : Backed P c) {x : η} {f : φ}
    (hx : c.table x = some f) (hf : P f) : ∃ a, c.held a = some x := by
  obtain ⟨a, ha⟩ := (haccounted.owns.used_iff x).mp (h x f hx hf)
  exact ⟨a, (holds_eq_some.mp ha).1⟩

end Custody
