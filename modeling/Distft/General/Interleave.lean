import Mathlib.Logic.Function.Basic
import Distft.General.Runs

/-!
# Interleaved threads

Threads that share a state take atomic steps one at a time, in the order of a schedule. `step` is a
step of one thread: the shared state and what is left of the thread's program, before and after. A
thread that is finished stands still, so the steps that a schedule gives it do nothing
(`next_of_finished`), and where all threads but one are finished, that one runs alone
(`run_alone`).
-/

namespace Distft.Interleave

variable {ι σ π : Type*} [DecidableEq ι]

/-- The shared state, and what is left of each thread's program. -/
structure State (ι σ π : Type*) where
  /-- The shared state. -/
  shared : σ
  /-- The threads. -/
  threads : ι → π

variable (step : σ → π → σ × π)

/-- A step of the thread `i`. -/
def next (s : State ι σ π) (i : ι) : State ι σ π :=
  ⟨(step s.shared (s.threads i)).1, Function.update s.threads i (step s.shared (s.threads i)).2⟩

/-- The program is at its end. -/
def Finished (p : π) : Prop := ∀ v, step v p = (v, p)

/-- Steps of one thread with no other step between them. -/
def alone : ℕ → σ → π → σ × π
  | 0, v, p => (v, p)
  | n + 1, v, p => alone n (step v p).1 (step v p).2

variable {step} {s : State ι σ π} {i : ι}

@[simp]
theorem next_shared : (next step s i).shared = (step s.shared (s.threads i)).1 := rfl

@[simp]
theorem next_threads_self :
    (next step s i).threads i = (step s.shared (s.threads i)).2 := Function.update_self ..

/-- A step of one thread leaves the others where they are. -/
theorem next_threads_of_ne {j : ι} (hj : j ≠ i) : (next step s i).threads j = s.threads j :=
  Function.update_of_ne hj ..

/-- A step of one thread, from what it does. -/
theorem next_of_step {v v' : σ} {p p' : π} (hshared : s.shared = v) (hthread : s.threads i = p)
    (h : step v p = (v', p')) :
    (next step s i).shared = v' ∧ (next step s i).threads i = p' := by
  rw [next_shared, next_threads_self, hshared, hthread, h]
  exact ⟨rfl, rfl⟩

/-- A finished thread stands still. -/
theorem next_of_finished (h : Finished step (s.threads i)) : next step s i = s := by
  unfold next
  rw [h s.shared, Function.update_eq_self]

/-- What a finished thread has come to stays. -/
theorem run_of_finished (h : Finished step (s.threads i)) (schedule : List ι) :
    (Runs.run (next step) s schedule).threads i = s.threads i := by
  have hkeep : ∀ (s' : State ι σ π) j, s'.threads i = s.threads i →
      (next step s' j).threads i = s.threads i := by
    intro s' j hsame
    by_cases hj : j = i
    · subst hj
      rw [next_of_finished (by rwa [hsame]), hsame]
    · rw [next_threads_of_ne (Ne.symm hj), hsame]
  exact Runs.run_invariant hkeep rfl schedule

/-- A finished thread alone stays where it is. -/
theorem alone_of_finished {p : π} (h : Finished step p) (n : ℕ) (v : σ) :
    alone step n v p = (v, p) := by
  induction n with
  | zero => rfl
  | succ n ih => rw [alone, h v, ih]

/-- Where all other threads are finished, a thread runs alone, for as many steps as the schedule gives
it. -/
theorem run_alone (h : ∀ j, j ≠ i → Finished step (s.threads j)) (schedule : List ι) :
    (Runs.run (next step) s schedule).shared =
        (alone step (schedule.count i) s.shared (s.threads i)).1 ∧
      (Runs.run (next step) s schedule).threads i =
        (alone step (schedule.count i) s.shared (s.threads i)).2 := by
  induction schedule generalizing s with
  | nil => exact ⟨rfl, rfl⟩
  | cons j schedule ih =>
    rw [Runs.run_cons]
    by_cases hj : j = i
    · subst hj
      have hothers : ∀ k, k ≠ j → Finished step ((next step s j).threads k) := by
        intro k hk
        rw [next_threads_of_ne hk]
        exact h k hk
      rw [List.count_cons_self, alone, ← next_shared, ← next_threads_self]
      exact ih hothers
    · rw [next_of_finished (h j hj), List.count_cons_of_ne hj]
      exact ih h

end Distft.Interleave
