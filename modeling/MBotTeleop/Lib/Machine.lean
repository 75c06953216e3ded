-- SUMMARY: Programs as machines stepped by the events of their environment, with runs and invariants over the history of a run.
import Mathlib.Data.List.Induction
import Mathlib.Tactic.Common

/-!
# Machines

A machine is a program that waits for the outcome of its next interaction with
its environment. `step s e = some s'` means that in state `s` the program was
waiting for an event like `e`, and went to `s'` on it; it is `none` where the
program waits for something else, or has returned. A run is the list of the
events so far, so every unfinished run is a run.
-/

structure Machine (σ ε : Type) where
  init : σ
  step : σ → ε → Option σ

namespace Machine

variable {σ ε : Type} (M : Machine σ ε)

def runFrom (s : σ) : List ε → Option σ
  | [] => some s
  | e :: es => (M.step s e).bind (runFrom · es)

/-- The state after the events `es`, if these can occur. -/
def run (es : List ε) : Option σ := M.runFrom M.init es

theorem runFrom_append (s : σ) (es es' : List ε) :
    M.runFrom s (es ++ es') = (M.runFrom s es).bind (M.runFrom · es') := by
  induction es generalizing s with
  | nil => rfl
  | cons e es ih =>
    simp only [List.cons_append, runFrom, Option.bind_assoc]
    exact congrArg _ (funext ih)

/-- A run of two parts passes through a state between them. -/
theorem run_append {es es' : List ε} {s : σ} :
    M.run (es ++ es') = some s ↔ ∃ t, M.run es = some t ∧ M.runFrom t es' = some s := by
  rw [run, runFrom_append, Option.bind_eq_some_iff]
  rfl

/-- A run passes through the states before and after each of its events. -/
theorem run_middle {es es' : List ε} {e : ε} {s : σ} :
    M.run (es ++ e :: es') = some s ↔
      ∃ t t', M.run es = some t ∧ M.step t e = some t' ∧ M.runFrom t' es' = some s := by
  rw [run_append]
  simp only [runFrom, Option.bind_eq_some_iff, ← exists_and_left]

theorem run_concat {es : List ε} {e : ε} {s : σ} :
    M.run (es ++ [e]) = some s ↔ ∃ t, M.run es = some t ∧ M.step t e = some s := by
  rw [run_append]
  simp only [runFrom]
  exact exists_congr fun t => and_congr_right fun _ => by cases M.step t e <;> rfl

/-- What holds at the start, and is preserved by every step of a run, holds
after every run. The invariant may speak about the events so far. -/
theorem run_invariant {I : List ε → σ → Prop} (hinit : I [] M.init)
    (hstep : ∀ {es s e s'}, M.run es = some s → I es s → M.step s e = some s' → I (es ++ [e]) s') :
    ∀ {es s}, M.run es = some s → I es s := by
  intro es
  induction es using List.reverseRecOn with
  | nil =>
    rintro s ⟨⟩
    exact hinit
  | append_singleton es e ih =>
    intro s' hrun
    obtain ⟨s, hs, he⟩ := (M.run_concat).mp hrun
    exact hstep hs (ih hs) he

/-- `P` holds of every step of a run. -/
def EveryStep (P : σ → ε → σ → Prop) (es : List ε) : Prop :=
  ∀ es₁ e es₂ t t', es = es₁ ++ e :: es₂ → M.run es₁ = some t → M.step t e = some t' → P t e t'

theorem EveryStep.of_append {P : σ → ε → σ → Prop} {es es' : List ε} (h : M.EveryStep P (es ++ es')) :
    M.EveryStep P es := by
  rintro es₁ e es₂ t t' rfl ht hstep
  exact h es₁ e (es₂ ++ es') t t' (List.append_assoc ..) ht hstep

theorem everyStep_congr {P Q : σ → ε → σ → Prop}
    (h : ∀ {s e s'}, M.step s e = some s' → (P s e s' ↔ Q s e s')) (es : List ε) :
    M.EveryStep P es ↔ M.EveryStep Q es :=
  ⟨fun hevery es₁ e es₂ t t' heq ht hstep => (h hstep).mp (hevery es₁ e es₂ t t' heq ht hstep),
    fun hevery es₁ e es₂ t t' heq ht hstep => (h hstep).mpr (hevery es₁ e es₂ t t' heq ht hstep)⟩

/-- What every step with `P` preserves holds after a run whose steps all have `P`. -/
theorem run_invariant_of_every {P : σ → ε → σ → Prop} {I : σ → Prop} (hinit : I M.init)
    (hstep : ∀ {s e s'}, I s → P s e s' → M.step s e = some s' → I s') {es : List ε} {s : σ}
    (hevery : M.EveryStep P es) (hrun : M.run es = some s) : I s := by
  revert hevery
  refine M.run_invariant (I := fun es s => M.EveryStep P es → I s) (fun _ => hinit) ?_ hrun
  intro es s e s' hs h he hevery
  exact hstep (h hevery.of_append) (hevery es e [] s s' rfl hs he) he

/-- What every step with `P` preserves holds to the end of a run once it holds. -/
theorem runFrom_invariant_of_every {P : σ → ε → σ → Prop} {I : σ → Prop}
    (hstep : ∀ {s e s'}, I s → P s e s' → M.step s e = some s' → I s') {es es' : List ε} {s s' : σ}
    (hevery : M.EveryStep P (es ++ es')) (hrun : M.run es = some s) (hI : I s)
    (hfrom : M.runFrom s es' = some s') : I s' := by
  induction es' generalizing es s with
  | nil => exact Option.some.inj hfrom ▸ hI
  | cons e es' ih =>
    obtain ⟨t, ht, hfrom⟩ := Option.bind_eq_some_iff.mp hfrom
    have hI' := hstep hI (hevery es e es' s t rfl hrun ht) ht
    rw [List.append_cons] at hevery
    exact ih hevery (M.run_concat.mpr ⟨s, hrun, ht⟩) hI' hfrom

/-- `I` holds after every part of a run, from its start on. -/
def Throughout (I : σ → Prop) (es : List ε) : Prop :=
  ∀ es₁ s, es₁ <+: es → M.run es₁ = some s → I s

/-- `P` holds of every event of a run, of the events before it and of the state
that it finds. -/
def BeforeEach (P : List ε → σ → ε → Prop) (es : List ε) : Prop :=
  ∀ es₁ e es₂ s, es = es₁ ++ e :: es₂ → M.run es₁ = some s → (M.step s e).isSome → P es₁ s e

/-- Where a step keeps `J` if it has `P`, and `I` only if it does, `I` holds
throughout exactly the runs whose steps all have `P`. -/
theorem throughout_iff {I : σ → Prop} {J : List ε → σ → Prop} {P : List ε → σ → ε → Prop}
    (hinit : J [] M.init) (hI : ∀ {es s}, J es s → I s)
    (hkeep : ∀ {es s e s'}, J es s → M.step s e = some s' → P es s e → J (es ++ [e]) s')
    (hlose : ∀ {es s e s'}, J es s → M.step s e = some s' → I s' → P es s e) (es : List ε) :
    M.Throughout I es ↔ M.BeforeEach P es := by
  constructor
  · intro h
    have hJ {es₁ s} (hrun : M.run es₁ = some s) : es₁ <+: es → J es₁ s := by
      refine M.run_invariant (I := fun es₁ s => es₁ <+: es → J es₁ s) (fun _ => hinit) ?_ hrun
      intro es₁ s e s' hs hJ hstep hpre
      have hJs := hJ ((List.prefix_append es₁ [e]).trans hpre)
      have hIs := h _ s' hpre (M.run_concat.mpr ⟨s, hs, hstep⟩)
      exact hkeep hJs hstep (hlose hJs hstep hIs)
    rintro es₁ e es₂ s rfl hs hsome
    obtain ⟨s', hstep⟩ := Option.isSome_iff_exists.mp hsome
    have hpre : es₁ ++ [e] <+: es₁ ++ e :: es₂ := ⟨es₂, List.append_cons .. |>.symm⟩
    exact hlose (hJ hs (List.prefix_append es₁ _)) hstep
      (h _ s' hpre (M.run_concat.mpr ⟨s, hs, hstep⟩))
  · intro h es₁ s hpre hrun
    apply hI
    refine M.run_invariant (I := fun es₁ s => es₁ <+: es → J es₁ s) (fun _ => hinit) ?_ hrun hpre
    rintro es₁ s e s' hs hJ hstep ⟨es₂, heq⟩
    have hP := h es₁ e es₂ s (by rw [← heq, ← List.append_cons]) hs (hstep ▸ rfl)
    exact hkeep (hJ ⟨e :: es₂, by rw [← heq, ← List.append_cons]⟩) hstep hP

/-- A machine `N` that follows `M` in all but its `hidden` events, which leave
related states related, has every run of `M` without these. -/
theorem run_filter_of_simulation {τ : Type} {M : Machine σ ε} {N : Machine τ ε} {R : σ → τ → Prop}
    {hidden : ε → Bool} (hinit : R M.init N.init)
    (hhidden : ∀ {s t e s'}, R s t → M.step s e = some s' → hidden e = true → R s' t)
    (hvisible : ∀ {s t e s'}, R s t → M.step s e = some s' → hidden e = false →
      ∃ t', N.step t e = some t' ∧ R s' t') {es : List ε} {s : σ} (hrun : M.run es = some s) :
    ∃ t, N.run (es.filter (!hidden ·)) = some t ∧ R s t := by
  refine M.run_invariant (I := fun es s => ∃ t, N.run (es.filter (!hidden ·)) = some t ∧ R s t)
    ⟨N.init, rfl, hinit⟩ ?_ hrun
  rintro es s e s' - ⟨t, ht, hR⟩ hstep
  rw [List.filter_append]
  cases he : hidden e with
  | true =>
    refine ⟨t, ?_, hhidden hR hstep he⟩
    rw [List.filter_cons_of_neg (by simp [he]), List.filter_nil, List.append_nil, ht]
  | false =>
    obtain ⟨t', ht', hR'⟩ := hvisible hR hstep he
    refine ⟨t', ?_, hR'⟩
    rw [List.filter_cons_of_pos (by simp [he]), List.filter_nil]
    exact N.run_concat.mpr ⟨t, ht, ht'⟩

/-- A component `N` of `M`, seen through `V`, goes through a run of its own: the
events of the run that are its events too. -/
theorem run_of_view {τ δ : Type} {M : Machine σ ε} {N : Machine τ δ} {V : σ → τ} {L : ε → Option δ}
    (hother : ∀ {s e s'}, M.step s e = some s' → L e = none → V s' = V s)
    (hown : ∀ {s e s' d}, M.step s e = some s' → L e = some d →
      N.step (V s) d = some (V s')) {es : List ε} {s : σ} (hrun : M.run es = some s) :
    N.runFrom (V M.init) (es.filterMap L) = some (V s) := by
  refine M.run_invariant
    (I := fun es s => N.runFrom (V M.init) (es.filterMap L) = some (V s)) rfl ?_ hrun
  intro es s e s' _ ih hstep
  rw [List.filterMap_append, runFrom_append, ih, Option.bind_some]
  cases he : L e with
  | none => rw [List.filterMap_cons_none he, List.filterMap_nil, hother hstep he, runFrom]
  | some d =>
    rw [List.filterMap_cons_some he, List.filterMap_nil, runFrom, hown hstep he, Option.bind_some,
      runFrom]

/-- What every step on an event with `P` preserves of the events since `s` and of
the state, such events preserve. -/
theorem runFrom_history {P : ε → Prop} {I : List ε → σ → Prop}
    (hstep : ∀ {es s e s'}, I es s → P e → M.step s e = some s' → I (es ++ [e]) s') {es : List ε}
    {s s' : σ} (hevents : ∀ e ∈ es, P e) (hI : I [] s) (hfrom : M.runFrom s es = some s') :
    I es s' := by
  induction es using List.reverseRecOn generalizing s' with
  | nil => exact Option.some.inj hfrom ▸ hI
  | append_singleton es e ih =>
    rw [runFrom_append] at hfrom
    obtain ⟨t, ht, hlast⟩ := Option.bind_eq_some_iff.mp hfrom
    obtain ⟨t', ht', hnil⟩ := Option.bind_eq_some_iff.mp hlast
    cases hnil
    exact hstep (ih (fun e' he' => hevents e' (List.mem_append_left _ he')) ht)
      (hevents e (List.mem_append_right _ List.mem_cons_self)) ht'

theorem runFrom_invariant {P : ε → Prop} {I : σ → Prop}
    (hstep : ∀ {s e s'}, I s → P e → M.step s e = some s' → I s') {es : List ε} {s s' : σ}
    (hevents : ∀ e ∈ es, P e) (hI : I s) (hfrom : M.runFrom s es = some s') : I s' :=
  M.runFrom_history (I := fun _ => I) hstep hevents hI hfrom

/-- No event is possible after a state that the program does not leave. -/
theorem runFrom_of_stuck {s s' : σ} (hstuck : ∀ e, M.step s e = none) {es : List ε}
    (h : M.runFrom s es = some s') : es = [] ∧ s' = s := by
  cases es with
  | nil => exact ⟨rfl, (Option.some.inj h).symm⟩
  | cons e es =>
    simp only [runFrom, hstuck, Option.bind_none] at h
    cases h

/-- If in every state with `I` some step leads to one of a lower rank, or else the
state is a goal, then a goal is no more steps away than the rank says. -/
theorem exists_runFrom_of_rank (I Goal : σ → Prop) (rank : σ → Nat)
    (hstep : ∀ {s}, I s → ¬ Goal s → ∃ e s', M.step s e = some s' ∧ I s' ∧ rank s' < rank s)
    {s : σ} (hI : I s) : ∃ es s', es.length ≤ rank s ∧ M.runFrom s es = some s' ∧ Goal s' := by
  induction hrank : rank s using Nat.strongRecOn generalizing s with
  | ind n ih =>
    by_cases hgoal : Goal s
    · exact ⟨[], s, Nat.zero_le _, rfl, hgoal⟩
    · obtain ⟨e, t, ht, hIt, hlt⟩ := hstep hI hgoal
      obtain ⟨es, s', hle, hfrom, hgoal'⟩ := ih _ (hrank ▸ hlt) hIt rfl
      refine ⟨e :: es, s', ?_, ?_, hgoal'⟩
      · rw [List.length_cons]
        omega
      · rw [runFrom, ht, Option.bind_some]
        exact hfrom

end Machine

-- ---------------------------------------------------------------------------
-- Histories
-- ---------------------------------------------------------------------------

/-- An event with `P` occurred, and none with `Q` after it. -/
def Since {ε : Type} (P Q : ε → Prop) (es : List ε) : Prop :=
  ∃ es₁ e es₂, es = es₁ ++ e :: es₂ ∧ P e ∧ ∀ x ∈ es₂, ¬ Q x

section Since

variable {ε : Type} {P Q : ε → Prop}

theorem not_since_nil : ¬ Since P Q [] := by
  rintro ⟨es₁, e, es₂, heq, -⟩
  exact List.append_ne_nil_of_right_ne_nil es₁ (List.cons_ne_nil e es₂) heq.symm

theorem since_concat {es : List ε} {e : ε} : Since P Q (es ++ [e]) ↔ P e ∨ Since P Q es ∧ ¬ Q e := by
  constructor
  · rintro ⟨es₁, e', es₂, heq, hP, hno⟩
    induction es₂ using List.reverseRecOn with
    | nil =>
      obtain ⟨-, hlast⟩ := List.append_inj' heq rfl
      obtain rfl := (List.cons.inj hlast).1
      exact .inl hP
    | append_singleton es₂ x =>
      rw [← List.cons_append, ← List.append_assoc] at heq
      obtain ⟨rfl, hlast⟩ := List.append_inj' heq rfl
      obtain rfl := (List.cons.inj hlast).1
      refine .inr ⟨⟨es₁, e', es₂, rfl, hP, fun x hx => hno x (List.mem_append_left _ hx)⟩, hno e ?_⟩
      exact List.mem_append_right _ List.mem_cons_self
  · rintro (hP | ⟨⟨es₁, e', es₂, rfl, hP, hno⟩, hQ⟩)
    · exact ⟨es, e, [], rfl, hP, nofun⟩
    · refine ⟨es₁, e', es₂ ++ [e], by simp, hP, fun x hx => ?_⟩
      rcases List.mem_append.mp hx with hx | hx
      · exact hno x hx
      · rwa [List.mem_singleton.mp hx]

/-- Later events with neither `P` nor `Q` count for nothing. -/
theorem since_append {es es' : List ε} (hno : ∀ e ∈ es', ¬ P e ∧ ¬ Q e) :
    Since P Q (es ++ es') ↔ Since P Q es := by
  induction es' using List.reverseRecOn with
  | nil => rw [List.append_nil]
  | append_singleton es' e ih =>
    have he := hno e (List.mem_append_right _ List.mem_cons_self)
    rw [← List.append_assoc, since_concat, ih fun x hx => hno x (List.mem_append_left _ hx)]
    simp only [he.1, he.2, false_or, not_false_eq_true, and_true]

/-- Neither do they where they are left out. -/
theorem since_filter {keep : ε → Bool} (hno : ∀ e, keep e = false → ¬ P e ∧ ¬ Q e) (es : List ε) :
    Since P Q (es.filter keep) ↔ Since P Q es := by
  induction es using List.reverseRecOn with
  | nil => rfl
  | append_singleton es e ih =>
    rw [List.filter_append, since_concat, ← ih]
    cases he : keep e with
    | true => rw [List.filter_cons_of_pos he, List.filter_nil, since_concat]
    | false =>
      rw [List.filter_cons_of_neg (by simp [he]), List.filter_nil, List.append_nil]
      simp only [hno e he, false_or, not_false_eq_true, and_true]

end Since
