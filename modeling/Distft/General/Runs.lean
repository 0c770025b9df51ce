import Mathlib.Data.List.Infix

/-!
# Runs of a state machine

A deterministic machine is a function `step` from a state and an input to the next state, and a run
folds it over a list of inputs. There are four ways from one step to a whole run:

* what every step keeps holds at the end (`run_invariant`);
* where every step of one machine is matched by a step of another, on what the first one lets an
  observer see of the step, the ends of the runs are related as the beginnings are
  (`run_simulation`);
* what the steps that meet a condition keep holds in every state of a run of such steps
  (`allStates_of_allSteps`), and where a property survives a step exactly when the step meets a
  condition, it holds in every state of a run exactly when all the steps of the run meet the
  condition (`allStates_iff_allSteps`);
* where a step relates the states before and after it exactly when it meets a condition, every state
  is related to all later ones exactly when all the steps meet it (`allRelated_iff_allSteps`).
-/

namespace Distft.Runs

variable {σ τ ι ο : Type*} (step : σ → ι → σ)

/-- The state after a list of inputs. -/
def run (s : σ) (inputs : List ι) : σ := inputs.foldl step s

@[simp]
theorem run_nil (s : σ) : run step s [] = s := rfl

@[simp]
theorem run_cons (s : σ) (i : ι) (inputs : List ι) :
    run step s (i :: inputs) = run step (step s i) inputs := rfl

@[simp]
theorem run_append (s : σ) (l l' : List ι) : run step s (l ++ l') = run step (run step s l) l' :=
  List.foldl_append

/-- What a run shows of its steps, where `observe` is what the step on an input shows in a state. -/
def observed (observe : σ → ι → ο) : σ → List ι → List ο
  | _, [] => []
  | s, i :: inputs => observe s i :: observed observe (step s i) inputs

/-- A run with one more step shows one more observation. -/
theorem observed_append_singleton (observe : σ → ι → ο) (s : σ) (inputs : List ι) (i : ι) :
    observed step observe s (inputs ++ [i]) =
      observed step observe s inputs ++ [observe (run step s inputs) i] := by
  induction inputs generalizing s with
  | nil => rfl
  | cons j inputs ih => simp only [List.cons_append, observed, run_cons, ih]

/-- The property holds after every beginning of the run. -/
def AllStates (P : σ → Prop) (s : σ) (inputs : List ι) : Prop :=
  ∀ l, l <+: inputs → P (run step s l)

/-- Every step of the run meets the condition, on the state before it and its input. -/
def AllSteps (C : σ → ι → Prop) (s : σ) (inputs : List ι) : Prop :=
  ∀ l i, l ++ [i] <+: inputs → C (run step s l) i

variable {step}

@[simp]
theorem allSteps_nil (C : σ → ι → Prop) (s : σ) : AllSteps step C s [] :=
  fun l i hl => absurd (List.prefix_nil.1 hl) (by simp)

@[simp]
theorem allSteps_cons (C : σ → ι → Prop) (s : σ) (i : ι) (inputs : List ι) :
    AllSteps step C s (i :: inputs) ↔ C s i ∧ AllSteps step C (step s i) inputs := by
  constructor
  · intro hall
    refine ⟨hall [] i ⟨inputs, rfl⟩, fun l j hl => ?_⟩
    exact hall (i :: l) j (List.cons_prefix_cons.2 ⟨rfl, hl⟩)
  · rintro ⟨hfirst, hrest⟩ l j hl
    cases l with
    | nil =>
      obtain ⟨rfl, -⟩ := List.cons_prefix_cons.1 hl
      exact hfirst
    | cons k l =>
      obtain ⟨hk, hl'⟩ := List.cons_prefix_cons.1 hl
      subst hk
      exact hrest l j hl'

@[simp]
theorem allSteps_append (C : σ → ι → Prop) (s : σ) (l l' : List ι) :
    AllSteps step C s (l ++ l') ↔ AllSteps step C s l ∧ AllSteps step C (run step s l) l' := by
  induction l generalizing s with
  | nil => simp
  | cons i l ih => rw [List.cons_append, allSteps_cons, allSteps_cons, ih, run_cons, and_assoc]

/-- A beginning of a run has steps of the run only. -/
theorem AllSteps.of_prefix {C : σ → ι → Prop} {s : σ} {inputs inputs' : List ι}
    (h : AllSteps step C s inputs) (hinitial : inputs' <+: inputs) : AllSteps step C s inputs' :=
  fun l i hl => h l i (hl.trans hinitial)

instance decidableAllSteps (step : σ → ι → σ) (C : σ → ι → Prop) [∀ s i, Decidable (C s i)] :
    ∀ s inputs, Decidable (AllSteps step C s inputs)
  | s, [] => isTrue (allSteps_nil C s)
  | s, i :: inputs =>
    have := decidableAllSteps step C (step s i) inputs
    decidable_of_iff _ (allSteps_cons C s i inputs).symm

/-- What every step keeps, a run keeps. -/
theorem run_invariant {I : σ → Prop} (hstep : ∀ s i, I s → I (step s i)) {s : σ} (h : I s)
    (inputs : List ι) : I (run step s inputs) := by
  induction inputs generalizing s with
  | nil => exact h
  | cons i inputs ih => exact ih (hstep s i h)

/-- A run is matched, observation by observation, by a run of another machine that matches its
steps. -/
theorem run_simulation {observe : σ → ι → ο} {step' : τ → ο → τ} {R : σ → τ → Prop}
    (hstep : ∀ s t i, R s t → R (step s i) (step' t (observe s i))) {s : σ} {t : τ} (h : R s t)
    (inputs : List ι) :
    R (run step s inputs) (run step' t (observed step observe s inputs)) := by
  induction inputs generalizing s t with
  | nil => exact h
  | cons i inputs ih => exact ih (hstep s t i h)

/-- What the steps that meet a condition keep, holds in all the states of a run whose steps meet it.
-/
theorem allStates_of_allSteps {I : σ → Prop} {A : σ → ι → Prop}
    (hI : ∀ s i, A s i → I s → I (step s i)) {s : σ} (h0 : I s) {inputs : List ι}
    (hA : AllSteps step A s inputs) : AllStates step I s inputs := by
  intro l
  induction l using List.reverseRecOn with
  | nil => exact fun _ => h0
  | append_singleton l i ih =>
    intro hl
    rw [run_append]
    exact hI _ i (hA l i hl) (ih ((List.prefix_append l [i]).trans hl))

/-- Among runs whose steps meet `A`: a property that survives a step exactly when the step meets a
condition holds in all the states of a run exactly when all its steps meet the condition. -/
theorem allStates_iff_allSteps_of {I P : σ → Prop} {A C : σ → ι → Prop}
    (hI : ∀ s i, A s i → I s → I (step s i))
    (hP : ∀ s i, A s i → I s → P s → (P (step s i) ↔ C s i)) {s : σ} (h0 : I s) (hp : P s)
    {inputs : List ι} (hA : AllSteps step A s inputs) :
    AllStates step P s inputs ↔ AllSteps step C s inputs := by
  have hlast : ∀ l i, run step s (l ++ [i]) = step (run step s l) i := fun l i => by simp
  have hinv := allStates_of_allSteps hI h0 hA
  constructor
  · intro hall l i hl
    have hshorter := (List.prefix_append l [i]).trans hl
    have hafter := hall (l ++ [i]) hl
    rw [hlast] at hafter
    exact (hP _ i (hA l i hl) (hinv l hshorter) (hall l hshorter)).1 hafter
  · intro hall l
    induction l using List.reverseRecOn with
    | nil => exact fun _ => hp
    | append_singleton l i ih =>
      intro hl
      have hshorter := (List.prefix_append l [i]).trans hl
      rw [hlast]
      exact (hP _ i (hA l i hl) (hinv l hshorter) (ih hshorter)).2 (hall l i hl)

/-- A property that survives a step exactly when the step meets a condition holds in all the states
of a run exactly when all its steps meet the condition. -/
theorem allStates_iff_allSteps {I P : σ → Prop} {C : σ → ι → Prop}
    (hI : ∀ s i, I s → I (step s i)) (hP : ∀ s i, I s → P s → (P (step s i) ↔ C s i)) {s : σ}
    (h0 : I s) (hp : P s) (inputs : List ι) :
    AllStates step P s inputs ↔ AllSteps step C s inputs :=
  allStates_iff_allSteps_of (A := fun _ _ => True) (fun s i _ => hI s i) (fun s i _ => hP s i) h0 hp
    fun _ _ _ => trivial

/-- Where a step relates the states before and after exactly when it meets a condition, every state of
a run is related to all later ones exactly when all the steps of the run meet the condition. -/
theorem allRelated_iff_allSteps {R : σ → σ → Prop} {C : σ → ι → Prop} (hrefl : ∀ s, R s s)
    (htrans : ∀ s s' s'', R s s' → R s' s'' → R s s'') (hR : ∀ s i, R s (step s i) ↔ C s i) (s : σ)
    (inputs : List ι) :
    (∀ l l', l <+: l' → l' <+: inputs → R (run step s l) (run step s l')) ↔
      AllSteps step C s inputs := by
  have hlast : ∀ l i, run step s (l ++ [i]) = step (run step s l) i := fun l i => by simp
  constructor
  · intro hall l i hl
    have hnext := hall l (l ++ [i]) (List.prefix_append l [i]) hl
    rw [hlast] at hnext
    exact (hR _ i).1 hnext
  · intro hall l l' hl
    induction l' using List.reverseRecOn with
    | nil =>
      rw [List.prefix_nil.1 hl]
      exact fun _ => hrefl _
    | append_singleton l' i ih =>
      intro hl'
      rcases List.prefix_concat_iff.1 hl with rfl | hl
      · exact hrefl _
      · have hbefore := ih hl ((List.prefix_append l' [i]).trans hl')
        rw [hlast]
        exact htrans _ _ _ hbefore ((hR _ i).2 (hall l' i hl'))

end Distft.Runs
