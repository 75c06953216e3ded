-- SUMMARY: Events that keep their distance: what lies between two of them, and how many fit in a window of time.
import Mathlib.Algebra.BigOperators.Group.List.Basic
import Mathlib.Algebra.Order.Group.Defs
import Mathlib.Algebra.Order.Monoid.NatCast
import Mathlib.Data.List.Chain

/-!
# Spacing

Each of a sequence of events names the gap that it has to leave after the event
before it. The gaps add up over any stretch of the sequence, and a window of `k`
of the least gaps has room for `k` events.
-/

/-- An event: when it is, and how long after the one before it it has to be. -/
structure Spaced (α : Type) where
  gap : α
  time : α
  deriving DecidableEq, Repr

namespace Spaced

variable {α : Type} [AddCommGroup α] [LinearOrder α] [IsOrderedAddMonoid α]

/-- Two events one after the other. -/
def Follows (e e' : Spaced α) : Prop := e.time + e'.gap ≤ e'.time

/-- From one event to a later one at least the gaps of all events since then pass. -/
theorem add_sum_le {e e' : Spaced α} {es : List (Spaced α)}
    (h : (e :: es ++ [e']).IsChain Follows) :
    e.time + ((es ++ [e']).map gap).sum ≤ e'.time := by
  induction es generalizing e with
  | nil => simpa [Follows] using h
  | cons d es ih =>
    obtain ⟨hd, htail⟩ := List.isChain_cons_cons.mp h
    calc e.time + ((d :: es ++ [e']).map gap).sum
        = (e.time + d.gap) + ((es ++ [e']).map gap).sum := by
          rw [List.cons_append, List.map_cons, List.sum_cons, add_assoc]
      _ ≤ d.time + ((es ++ [e']).map gap).sum := by gcongr; exact hd
      _ ≤ e'.time := ih htail

/-- With a least gap every two events are at least that far apart. -/
theorem pairwise_of_gap {p : α} (hp : 0 ≤ p) {es : List (Spaced α)} (h : es.IsChain Follows)
    (hgap : ∀ e ∈ es, p ≤ e.gap) : (es.map time).Pairwise fun t t' => t + p ≤ t' := by
  have htrans : ∀ a b c : α, a + p ≤ b → b + p ≤ c → a + p ≤ c := fun a b c hab hbc =>
    hab.trans ((le_add_of_nonneg_right hp).trans hbc)
  have : Trans (fun t t' : α => t + p ≤ t') (fun t t' => t + p ≤ t') (fun t t' => t + p ≤ t') :=
    ⟨htrans _ _ _⟩
  rw [← List.isChain_iff_pairwise, List.isChain_map]
  exact h.imp_of_mem_imp fun e e' _ he' hfollows =>
    (add_le_add_right (hgap e' he') e.time).trans hfollows

/-- Times that lie `p` apart and in a window of `k` times `p` are no more than `k`. -/
theorem length_le_of_window {p lo : α} (k : ℕ) {ts : List α}
    (h : ts.Pairwise fun t t' => t + p ≤ t') (hlo : ∀ t ∈ ts, lo ≤ t)
    (hhi : ∀ t ∈ ts, t < lo + k • p) : ts.length ≤ k := by
  induction ts generalizing lo k with
  | nil => exact Nat.zero_le k
  | cons t ts ih =>
    obtain ⟨hhead, htail⟩ := List.pairwise_cons.mp h
    have hle := hlo t List.mem_cons_self
    have hlt := hhi t List.mem_cons_self
    cases k with
    | zero =>
      rw [zero_nsmul, add_zero] at hlt
      exact absurd hlt (not_lt.mpr hle)
    | succ k =>
      -- the rest of the times lies in the window that begins one gap later
      refine Nat.succ_le_succ (@ih (lo + p) k htail (fun t' ht' => ?_) fun t' ht' => ?_)
      · exact (add_le_add_left hle p).trans (hhead t' ht')
      · have hlt' := hhi t' (List.mem_cons_of_mem _ ht')
        rwa [succ_nsmul', ← add_assoc] at hlt'

/-- A window of `k` of the least gaps holds at most `k` events. -/
theorem length_filter_le {p : α} (hp : 0 ≤ p) {es : List (Spaced α)} (h : es.IsChain Follows)
    (hgap : ∀ e ∈ es, p ≤ e.gap) (lo : α) (k : ℕ) :
    (es.filter fun e => lo ≤ e.time ∧ e.time < lo + k • p).length ≤ k := by
  have hpairwise := List.pairwise_map.mp (pairwise_of_gap hp h hgap)
  have hwindow : ∀ t ∈ (es.filter fun e => lo ≤ e.time ∧ e.time < lo + k • p).map time,
      lo ≤ t ∧ t < lo + k • p := by
    intro t ht
    obtain ⟨e, he, rfl⟩ := List.mem_map.mp ht
    exact of_decide_eq_true (List.mem_filter.mp he).2
  rw [← List.length_map time]
  exact length_le_of_window k (List.pairwise_map.mpr (hpairwise.filter _))
    (fun t ht => (hwindow t ht).1) fun t ht => (hwindow t ht).2

end Spaced
