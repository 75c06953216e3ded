-- SUMMARY: A ledger of handles that are issued, released and issued again.
import Mathlib.Logic.Function.Basic
import Mathlib.Tactic.Common

/-!
# Ledgers

A handle may be issued again once it is released. The ledger numbers the issues,
and counts how often each of them was released. It balances if nothing was
released twice and nothing that was not there.
-/

structure Ledger (η : Type) where
  /-- The handles that were issued, in order. -/
  issued : List η := []
  /-- The issue that a handle stands for now. -/
  current : η → Option Nat := fun _ => none
  /-- How often an issue was released. -/
  releases : Nat → Nat := fun _ => 0
  /-- How often a handle was released that stood for nothing. -/
  stray : Nat := 0

namespace Ledger

variable {η : Type} [DecidableEq η]

def issue (l : Ledger η) (x : η) : Ledger η :=
  { l with
    issued := l.issued ++ [x]
    current := Function.update l.current x (some l.issued.length) }

def release (l : Ledger η) (x : η) : Ledger η :=
  match l.current x with
  | some i =>
    { l with
      current := Function.update l.current x none
      releases := Function.update l.releases i (l.releases i + 1) }
  | none => { l with stray := l.stray + 1 }

/-- Every issue is outstanding, or was released exactly once. -/
structure Balanced (l : Ledger η) : Prop where
  current_get : ∀ {x i}, l.current x = some i → l.issued[i]? = some x
  outstanding : ∀ {x i}, l.current x = some i → l.releases i = 0
  released : ∀ {x i}, l.issued[i]? = some x → l.current x ≠ some i → l.releases i = 1
  unissued : ∀ {i}, l.issued.length ≤ i → l.releases i = 0
  stray : l.stray = 0

omit [DecidableEq η] in
theorem balanced_empty : Balanced ({} : Ledger η) where
  current_get h := nomatch h
  outstanding h := nomatch h
  released h := by simp at h
  unissued _ := rfl
  stray := rfl

variable {l : Ledger η}

@[simp] theorem issue_current_self (x : η) : (l.issue x).current x = some l.issued.length :=
  Function.update_self ..

theorem issue_current_of_ne {x y : η} (h : y ≠ x) : (l.issue x).current y = l.current y :=
  Function.update_of_ne h ..

/-- What a handle stands for after an issue. -/
theorem issue_current_cases {x y : η} {i : Nat} (h : (l.issue x).current y = some i) :
    (y = x ∧ i = l.issued.length) ∨ (y ≠ x ∧ l.current y = some i) := by
  by_cases hyx : y = x
  · rw [hyx, issue_current_self] at h
    exact .inl ⟨hyx, (Option.some.inj h).symm⟩
  · exact .inr ⟨hyx, by rwa [issue_current_of_ne hyx] at h⟩

theorem release_current {x : η} {i : Nat} (h : l.current x = some i) :
    (l.release x).current = Function.update l.current x none := by
  unfold release
  rw [h]

theorem release_releases {x : η} {i : Nat} (h : l.current x = some i) :
    (l.release x).releases = Function.update l.releases i (l.releases i + 1) := by
  unfold release
  rw [h]

@[simp] theorem release_issued (x : η) : (l.release x).issued = l.issued := by
  unfold release
  split <;> rfl

/-- What a handle stands for after a release, it stood for before. -/
theorem release_current_cases {x y : η} {i j : Nat} (hx : l.current x = some i)
    (h : (l.release x).current y = some j) : y ≠ x ∧ l.current y = some j := by
  rw [release_current hx] at h
  by_cases hyx : y = x
  · rw [hyx, Function.update_self] at h
    cases h
  · exact ⟨hyx, by rwa [Function.update_of_ne hyx] at h⟩

/-- A handle is issued that stands for nothing. -/
theorem Balanced.issue (h : l.Balanced) {x : η} (hx : l.current x = none) : (l.issue x).Balanced where
  current_get hy := by
    rcases issue_current_cases hy with ⟨rfl, rfl⟩ | ⟨-, hold⟩
    · exact List.getElem?_concat_length
    · have hget := h.current_get hold
      obtain ⟨hlt, -⟩ := List.getElem?_eq_some_iff.mp hget
      exact (List.getElem?_append_left hlt).trans hget
  outstanding hy := by
    rcases issue_current_cases hy with ⟨rfl, rfl⟩ | ⟨-, hold⟩
    · exact h.unissued (Nat.le_refl _)
    · exact h.outstanding hold
  released := by
    intro y i hget hy
    rcases Nat.lt_or_ge i l.issued.length with hlt | hge
    · have hget : l.issued[i]? = some y := (List.getElem?_append_left hlt).symm.trans hget
      refine h.released hget fun hold => hy ?_
      have hne : y ≠ x := fun heq => by rw [heq, hx] at hold; cases hold
      rw [issue_current_of_ne hne, hold]
    · obtain ⟨hlt, heq⟩ := List.getElem?_eq_some_iff.mp hget
      simp only [Ledger.issue, List.length_append, List.length_singleton] at hlt
      obtain rfl : i = l.issued.length := by omega
      obtain rfl : x = y := by simpa [Ledger.issue] using heq
      exact (hy (issue_current_self x)).elim
  unissued hi := by
    simp only [Ledger.issue, List.length_append, List.length_singleton] at hi
    exact h.unissued (by omega)
  stray := h.stray

/-- A handle is released that stands for an issue. -/
theorem Balanced.release (h : l.Balanced) {x : η} {i : Nat} (hx : l.current x = some i) :
    (l.release x).Balanced where
  current_get hy := by
    rw [release_issued]
    exact h.current_get (release_current_cases hx hy).2
  outstanding := by
    intro y j hy
    obtain ⟨hyx, hold⟩ := release_current_cases hx hy
    have hji : j ≠ i := by
      rintro rfl
      exact hyx (Option.some.inj ((h.current_get hold).symm.trans (h.current_get hx)))
    rw [release_releases hx, Function.update_of_ne hji]
    exact h.outstanding hold
  released := by
    intro y j hget hy
    rw [release_issued] at hget
    rw [release_releases hx]
    by_cases hji : j = i
    · rw [hji, Function.update_self, h.outstanding hx]
    · rw [Function.update_of_ne hji]
      refine h.released hget fun hold => hy ?_
      have hyx : y ≠ x := fun heq => hji (Option.some.inj ((heq ▸ hold).symm.trans hx))
      rw [release_current hx, Function.update_of_ne hyx, hold]
  unissued := by
    intro j hj
    rw [release_issued] at hj
    obtain ⟨hlt, -⟩ := List.getElem?_eq_some_iff.mp (h.current_get hx)
    have hji : j ≠ i := by omega
    rw [release_releases hx, Function.update_of_ne hji]
    exact h.unissued hj
  stray := by
    unfold Ledger.release
    rw [hx]
    exact h.stray

end Ledger
