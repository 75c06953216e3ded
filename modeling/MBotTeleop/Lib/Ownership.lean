-- SUMMARY: Resources that are each held by exactly one holder while they are used.
import Mathlib.Logic.Equiv.Defs
import Mathlib.Logic.Function.Basic
import Mathlib.Tactic.Common

/-!
# Ownership

Holders that hold at most one resource each. A resource is used as long as
somebody holds it, and never held twice.
-/

structure Owns {ι ρ : Type} (holds : ι → Option ρ) (used : ρ → Prop) : Prop where
  used_iff : ∀ r, used r ↔ ∃ a, holds a = some r
  inj : ∀ {a b r}, holds a = some r → holds b = some r → a = b

namespace Owns

variable {ι ρ : Type} {holds : ι → Option ρ} {used used' : ρ → Prop}

theorem congr (h : Owns holds used) (hsame : ∀ r, used' r ↔ used r) : Owns holds used' where
  used_iff r := (hsame r).trans (h.used_iff r)
  inj := h.inj

/-- A used resource has exactly one holder. -/
theorem existsUnique (h : Owns holds used) (r : ρ) : used r ↔ ∃! a, holds a = some r := by
  rw [h.used_iff]
  exact ⟨fun ⟨a, ha⟩ => ⟨a, ha, fun b hb => h.inj hb ha⟩, fun ⟨a, ha, _⟩ => ⟨a, ha⟩⟩

/-- Nobody holds anything. -/
theorem empty : Owns (fun _ : ι => (none : Option ρ)) fun _ => False where
  used_iff _ := ⟨False.elim, fun ⟨_, h⟩ => nomatch h⟩
  inj h := nomatch h

/-- The holders change places. -/
theorem perm (h : Owns holds used) (σ : Equiv.Perm ι) : Owns (holds ∘ σ) used where
  used_iff r := (h.used_iff r).trans
    ⟨fun ⟨a, ha⟩ => ⟨σ.symm a, by rw [Function.comp_apply, Equiv.apply_symm_apply, ha]⟩,
      fun ⟨a, ha⟩ => ⟨σ a, ha⟩⟩
  inj ha hb := σ.injective (h.inj ha hb)

variable [DecidableEq ι]

/-- What a holder holds after one of them was given something else. -/
theorem update_cases {a b : ι} {o : Option ρ} {r : ρ} (h : Function.update holds a o b = some r) :
    (b = a ∧ o = some r) ∨ (b ≠ a ∧ holds b = some r) := by
  by_cases hba : b = a
  · rw [hba, Function.update_self] at h
    exact .inl ⟨hba, h⟩
  · rw [Function.update_of_ne hba] at h
    exact .inr ⟨hba, h⟩

/-- A free resource is taken by a holder that has none. -/
theorem take (h : Owns holds used) {a : ι} {r : ρ} (ha : holds a = none) (hr : ¬ used r) :
    Owns (Function.update holds a (some r)) fun x => x = r ∨ used x where
  used_iff x := by
    constructor
    · rintro (rfl | hx)
      · exact ⟨a, Function.update_self ..⟩
      · obtain ⟨b, hb⟩ := (h.used_iff x).mp hx
        have hne : b ≠ a := fun heq => by rw [heq, ha] at hb; cases hb
        exact ⟨b, by rw [Function.update_of_ne hne, hb]⟩
    · rintro ⟨b, hb⟩
      rcases update_cases hb with ⟨-, heq⟩ | ⟨-, hb⟩
      · exact .inl (Option.some.inj heq).symm
      · exact .inr ((h.used_iff x).mpr ⟨b, hb⟩)
  inj := by
    intro b c x hb hc
    have hfree {d : ι} (hd : holds d = some r) : False := hr ((h.used_iff r).mpr ⟨d, hd⟩)
    rcases update_cases hb with ⟨hba, heq⟩ | ⟨-, hb⟩ <;>
      rcases update_cases hc with ⟨hca, heq'⟩ | ⟨-, hc⟩
    · rw [hba, hca]
    · rw [← heq] at hc
      exact (hfree hc).elim
    · rw [← heq'] at hb
      exact (hfree hb).elim
    · exact h.inj hb hc

/-- A holder gives up what it holds. -/
theorem drop (h : Owns holds used) (a : ι) :
    Owns (Function.update holds a none) fun x => used x ∧ holds a ≠ some x where
  used_iff x := by
    constructor
    · rintro ⟨hx, hax⟩
      obtain ⟨b, hb⟩ := (h.used_iff x).mp hx
      have hne : b ≠ a := fun heq => hax (heq ▸ hb)
      exact ⟨b, by rw [Function.update_of_ne hne, hb]⟩
    · rintro ⟨b, hb⟩
      rcases update_cases hb with ⟨-, ⟨⟩⟩ | ⟨hba, hb⟩
      exact ⟨(h.used_iff x).mpr ⟨b, hb⟩, fun hax => hba (h.inj hb hax)⟩
  inj := by
    intro b c x hb hc
    rcases update_cases hb with ⟨-, ⟨⟩⟩ | ⟨-, hb⟩
    rcases update_cases hc with ⟨-, ⟨⟩⟩ | ⟨-, hc⟩
    exact h.inj hb hc

/-- A holder that has nothing takes over what another holds. -/
theorem move (h : Owns holds used) {a : ι} (ha : holds a = none) (b : ι) :
    Owns (Function.update (Function.update holds a (holds b)) b none) used := by
  cases hb : holds b with
  | none =>
    have hsame : Function.update (Function.update holds a none) b none = holds := by
      conv_lhs => rw [← ha, Function.update_eq_self, ha, ← hb, Function.update_eq_self]
    rwa [hsame]
  | some r =>
    have hne : a ≠ b := fun heq => by rw [heq, hb] at ha; cases ha
    rw [Function.update_comm hne]
    -- `b` gives up the resource, and `a` takes it
    have hnone : Function.update holds b none a = none := by rw [Function.update_of_ne hne, ha]
    apply ((h.drop b).take hnone (r := r) (fun hr => hr.2 hb)).congr
    intro x
    constructor
    · intro hx
      by_cases hxr : x = r
      · exact .inl hxr
      · exact .inr ⟨hx, fun heq => hxr (Option.some.inj (heq.symm.trans hb))⟩
    · rintro (rfl | ⟨hx, -⟩)
      · exact (h.used_iff x).mpr ⟨b, hb⟩
      · exact hx

end Owns
