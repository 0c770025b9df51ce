import Distft.General.Exec

/-!
# Simulation

A computation simulates another one on related states, if all the events of its run meet a
condition: both come to the same result, or to the same fault, and their states are related again.
Simulation goes through the operations that build computations, so a program over an interface runs
the same over two of them if their operations do; and what the simulated program succeeds with, the
other one succeeds with (`Simulates.succeeds`).
-/

namespace Distft.Exec

universe u

variable {ε ε' φ σ τ α β : Type u} {D : ε → Prop} {R : σ → τ → Prop}

/-- On related states, `m` runs as `m'` does, if all the events of its run meet `D`. -/
def Simulates (D : ε → Prop) (R : σ → τ → Prop) (m : Exec ε φ σ α) (m' : Exec ε' φ τ α) : Prop :=
  ∀ s t, R s t → (∀ e ∈ (m s).events, D e) →
    (m s).result = (m' t).result ∧ R (m s).state (m' t).state

theorem simulates_pure (a : α) :
    Simulates D R (pure a : Exec ε φ σ α) (pure a : Exec ε' φ τ α) := fun _ _ h _ => ⟨rfl, h⟩

/-- The second computations run in the states that the first ones leave, where these return. -/
theorem Simulates.bind {m : Exec ε φ σ α} {m' : Exec ε' φ τ α} {f : α → Exec ε φ σ β}
    {f' : α → Exec ε' φ τ β} (hm : Simulates D R m m') (hf : ∀ a, Simulates D R (f a) (f' a)) :
    Simulates D R (m >>= f) (m' >>= f') := by
  intro s t h hD
  cases hr : (m s).result with
  | error e =>
    rw [bind_of_error hr] at hD ⊢
    obtain ⟨hresult, hstate⟩ := hm s t h hD
    rw [bind_of_error (hresult.symm.trans hr)]
    exact ⟨rfl, hstate⟩
  | ok a =>
    rw [bind_of_ok hr] at hD ⊢
    obtain ⟨hresult, hstate⟩ := hm s t h fun e he => hD e (List.mem_append_left _ he)
    rw [bind_of_ok (hresult.symm.trans hr)]
    exact hf a _ _ hstate fun e he => hD e (List.mem_append_right _ he)

/-- What follows a value that is returned runs alike. -/
theorem simulates_ofExcept {x : Except φ α} {f : α → Exec ε φ σ β} {f' : α → Exec ε' φ τ β}
    (hf : ∀ a, x = .ok a → Simulates D R (f a) (f' a)) :
    Simulates D R (ofExcept x >>= f) (ofExcept x >>= f') := by
  cases x with
  | ok a => exact hf a rfl
  | error e => exact fun s t h _ => ⟨rfl, h⟩

/-- Loops whose turns run alike run alike. -/
theorem simulates_forM {ι : Type u} (l : List ι) {f : ι → Exec ε φ σ PUnit}
    {f' : ι → Exec ε' φ τ PUnit}
    (hf : ∀ i ∈ l, Simulates D R (f i) (f' i)) : Simulates D R (forM l f) (forM l f') := by
  induction l with
  | nil => exact simulates_pure _
  | cons i l ih =>
    rw [List.forM_cons, List.forM_cons]
    exact (hf i List.mem_cons_self).bind fun _ => ih fun j hj => hf j (List.mem_cons_of_mem _ hj)

/-- What the simulated computation succeeds with, the other one does. -/
theorem Simulates.succeeds {m : Exec ε φ σ α} {m' : Exec ε' φ τ α} (h : Simulates D R m m')
    {s : σ} {t : τ} (hR : R s t) {Q : τ → α → Prop} (hm' : Succeeds (fun _ => True) m' t Q) :
    Succeeds D m s fun s' a => ∃ t', R s' t' ∧ Q t' a := by
  intro hD
  obtain ⟨a, ha, hq⟩ := hm' fun _ _ => trivial
  obtain ⟨hresult, hstate⟩ := h s t hR hD
  exact ⟨a, hresult.trans ha, _, hstate, hq⟩

/-- A computation that succeeds with the value and in the state of another one simulates it. -/
theorem simulates_of_succeeds {m : Exec ε φ σ α} {m' : Exec ε' φ τ α}
    (h : ∀ s t, R s t → ∃ a, (m' t).result = .ok a ∧
      Succeeds D m s fun s' a' => a' = a ∧ R s' (m' t).state) : Simulates D R m m' := by
  intro s t hR hD
  obtain ⟨a, ha, hm⟩ := h s t hR
  obtain ⟨_, hresult, rfl, hstate⟩ := hm hD
  exact ⟨hresult.trans ha.symm, hstate⟩

/-- What a computation that simulates itself succeeds with, it does in a state that is related to
itself. -/
theorem Simulates.self {R : σ → σ → Prop} {m : Exec ε φ σ α} (h : Simulates D R m m) {s : σ}
    (hR : R s s) {Q : σ → α → Prop} (hm : Succeeds D m s Q) :
    Succeeds D m s fun s' a => Q s' a ∧ R s' s' := by
  intro hD
  obtain ⟨a, ha, hq⟩ := hm hD
  exact ⟨a, ha, hq, (h s s hR hD).2⟩

end Distft.Exec
