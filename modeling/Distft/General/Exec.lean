import Mathlib.Data.Nat.Notation
import Mathlib.Logic.Basic

/-!
# Computations with a state, events, and faults

`Exec ε φ σ α` is a deterministic computation over a state `σ` that emits events `ε` as it goes and
returns an `α` or stops at a fault `φ`. The state and the events up to a fault stay: a `Run` always
has both.

Six judgments cover what is proved about such computations. `Yields I m Q F` says that every run of
`m` from a state with `I` ends in a state with `I`, with `Q` of its events and its value if it
returns, and with `F` of its fault if it does not. `Succeeds D m s Q` says that the run from `s`
returns, with `Q` of the final state and the value, if all its events meet `D`; there `Q` may say
anything, as what a computation does when an event goes wrong is left open. `Leads m s Q R` says
what the final state of the run from `s` meets, `Q` with the value if it returns and `R` if it
faults. `Steady I P F m` says of every run of `m` from a state with `I`, however it ends, that it
ends in one, that all its events have `P`, and that its fault has `F` if it stops. `Moves T x m Y`
says that the events of every run of `m` take an observer from `x` to somewhere with `Y` of the
value, or to anywhere if it stops. `Settles f m s` says of a loop that is given turns that with
enough of them it runs from `s` as `m` does. Each has one rule for `pure`, one for `bind`, and where
it is needed one for weakening.
-/

namespace Distft

universe u

variable {ε φ σ : Type u}

/-- A run of a computation. -/
structure Run (ε φ σ α : Type u) where
  /-- The events, in order. -/
  events : List ε
  /-- The state at the end. -/
  state : σ
  /-- The value, or the fault that stopped the run. -/
  result : Except φ α

/-- A computation: its run from each state. -/
def Exec (ε φ σ α : Type u) : Type u := σ → Run ε φ σ α

namespace Exec

instance : Monad (Exec ε φ σ) where
  pure a := fun s => ⟨[], s, .ok a⟩
  bind m f := fun s =>
    let r := m s
    match r.result with
    | .ok a =>
      let r' := f a r.state
      ⟨r.events ++ r'.events, r'.state, r'.result⟩
    | .error e => ⟨r.events, r.state, .error e⟩

/-- Emit an event. -/
def emit (e : ε) : Exec ε φ σ PUnit := fun s => ⟨[e], s, .ok ⟨⟩⟩

/-- Stop at a fault. -/
def fault {α : Type u} (e : φ) : Exec ε φ σ α := fun s => ⟨[], s, .error e⟩

/-- Read from the state. -/
def read {α : Type u} (f : σ → α) : Exec ε φ σ α := fun s => ⟨[], s, .ok (f s)⟩

/-- Change the state, and return a value. -/
def act {α : Type u} (f : σ → α × σ) : Exec ε φ σ α := fun s => ⟨[], (f s).2, .ok (f s).1⟩

/-- Return a value, or stop at a fault. -/
def ofExcept {α : Type u} : Except φ α → Exec ε φ σ α
  | .ok a => pure a
  | .error e => fault e

variable {α β : Type u}

/-- The run of a value. -/
theorem pure_run (a : α) (s : σ) : (pure a : Exec ε φ σ α) s = ⟨[], s, .ok a⟩ := rfl

/-- A run of two computations: the second goes on where the first returns. -/
theorem bind_of_ok {m : Exec ε φ σ α} {f : α → Exec ε φ σ β} {s : σ} {a : α}
    (h : (m s).result = .ok a) :
    (m >>= f) s = ⟨(m s).events ++ (f a (m s).state).events, (f a (m s).state).state,
      (f a (m s).state).result⟩ := by
  simp only [Bind.bind, h]

/-- A run of two computations, from the run of the first. -/
theorem bind_run {m : Exec ε φ σ α} {f : α → Exec ε φ σ β} {s s' : σ} {events : List ε} {a : α}
    (h : m s = ⟨events, s', .ok a⟩) :
    (m >>= f) s = ⟨events ++ (f a s').events, (f a s').state, (f a s').result⟩ := by
  rw [bind_of_ok (by rw [h]), h]

/-- A run of two computations begins with what the first one shows. -/
theorem events_prefix_bind (m : Exec ε φ σ α) (f : α → Exec ε φ σ β) (s : σ) :
    (m s).events <+: ((m >>= f) s).events := by
  cases h : (m s).result with
  | ok a =>
    rw [bind_of_ok h]
    exact List.prefix_append _ _
  | error e => simp only [Bind.bind, h, List.prefix_rfl]

/-- A run of two computations of which the second shows nothing. -/
theorem events_bind_of_silent {m : Exec ε φ σ α} {f : α → Exec ε φ σ β}
    (hf : ∀ a s, (f a s).events = []) (s : σ) : ((m >>= f) s).events = (m s).events := by
  cases h : (m s).result with
  | ok a => rw [bind_of_ok h, hf, List.append_nil]
  | error e => simp only [Bind.bind, h]

/-- A run of two computations of which the first stops. -/
theorem bind_of_error {m : Exec ε φ σ α} {f : α → Exec ε φ σ β} {s : σ} {e : φ}
    (h : (m s).result = .error e) : (m >>= f) s = ⟨(m s).events, (m s).state, .error e⟩ := by
  simp only [Bind.bind, h]

/-- A run of two computations of which the first stops, from its run. -/
theorem bind_run_error {m : Exec ε φ σ α} {f : α → Exec ε φ σ β} {s s' : σ} {events : List ε} {e : φ}
    (h : m s = ⟨events, s', .error e⟩) : (m >>= f) s = ⟨events, s', .error e⟩ := by
  rw [bind_of_error (by rw [h]), h]

/-- Returning a value first does nothing. -/
theorem pure_bind (a : α) (f : α → Exec ε φ σ β) : pure a >>= f = f a := rfl

/-- Returning what was returned does nothing. -/
theorem bind_pure (m : Exec ε φ σ α) : m >>= pure = m := by
  funext s
  cases h : (m s).result with
  | ok a => rw [bind_of_ok h, pure_run, List.append_nil, ← h]
  | error e => rw [bind_of_error h, ← h]

/-- It does not matter which two of three computations are taken together. -/
theorem bind_assoc {γ : Type u} (m : Exec ε φ σ α) (f : α → Exec ε φ σ β) (g : β → Exec ε φ σ γ) :
    m >>= f >>= g = m >>= fun a => f a >>= g := by
  funext s
  cases h : (m s).result with
  | error e => rw [bind_of_error h, bind_of_error (by rw [bind_of_error h]), bind_of_error h]
  | ok a =>
    cases h' : (f a (m s).state).result with
    | error e =>
      rw [bind_of_ok h, bind_of_error (by rw [bind_of_ok h, h']), bind_of_error h', bind_of_ok h]
    | ok b =>
      rw [bind_of_ok h, bind_of_ok (by rw [bind_of_ok h, h']), bind_of_ok h', bind_of_ok h]
      simp only [List.append_assoc]

/-- A property of computations that those have which return a value or stop at once, and two one
after the other if both have it. -/
structure Composes (C : {α : Type u} → Exec ε φ σ α → Prop) : Prop where
  /-- Returning. -/
  pure : ∀ {α : Type u} (a : α), C (pure a)
  /-- Stopping. -/
  fault : ∀ {α : Type u} (e : φ), C (fault e : Exec ε φ σ α)
  /-- One after the other. -/
  bind : ∀ {α β : Type u} {m : Exec ε φ σ α} {f : α → Exec ε φ σ β}, C m → (∀ a, C (f a)) → C (m >>= f)

/-! ## Other events -/

/-- The computation with each of its events told as others, or left out. -/
def retell {ε' : Type u} (f : ε → List ε') (m : Exec ε φ σ α) : Exec ε' φ σ α :=
  fun s => ⟨(m s).events.flatMap f, (m s).state, (m s).result⟩

section Retell

variable {ε' : Type u} (f : ε → List ε')

/-- An event that is left out. -/
theorem retell_emit {e : ε} (he : f e = []) : (emit e : Exec ε φ σ PUnit).retell f = pure ⟨⟩ := by
  funext s
  simp only [retell, emit, List.flatMap_cons, he, List.flatMap_nil, List.append_nil, pure_run]

/-- Retelling goes through both computations. -/
theorem retell_bind (m : Exec ε φ σ α) (g : α → Exec ε φ σ β) :
    (m >>= g).retell f = m.retell f >>= fun a => (g a).retell f := by
  funext s
  have hret : ∀ (n : Exec ε φ σ β) (t : σ), n.retell f t =
      ⟨(n t).events.flatMap f, (n t).state, (n t).result⟩ := fun _ _ => rfl
  cases h : (m s).result with
  | ok a =>
    rw [bind_of_ok (m := m.retell f) h, hret, hret, bind_of_ok h]
    simp only [List.flatMap_append, retell]
  | error e => rw [bind_of_error (m := m.retell f) h, hret, bind_of_error h, retell]

/-- Each event told as itself. -/
theorem retell_self (m : Exec ε φ σ α) : (m.retell fun e => [e]) = m := by
  funext s
  simp only [retell, List.flatMap_singleton']

/-- Retelling twice is retelling once. -/
theorem retell_retell {ε'' : Type u} (g : ε' → List ε'') (m : Exec ε φ σ α) :
    (m.retell f).retell g = m.retell fun e => (f e).flatMap g := by
  funext s
  simp only [retell, List.flatMap_assoc]

end Retell

/-! ## Computations that are given turns -/

/-- Given enough turns, the run from `s` is the one of `m`. -/
def Settles (f : ℕ → Exec ε φ σ α) (m : Exec ε φ σ α) (s : σ) : Prop :=
  ∃ enough, ∀ turns, enough ≤ turns → f turns s = m s

section Settles

variable {s : σ}

theorem settles_const (m : Exec ε φ σ α) : Settles (fun _ => m) m s := ⟨0, fun _ _ => rfl⟩

/-- One turn is spent. -/
theorem settles_succ {f : ℕ → Exec ε φ σ α} {m : Exec ε φ σ α}
    (h : Settles (fun turns => f (turns + 1)) m s) : Settles f m s := by
  obtain ⟨enough, h⟩ := h
  refine ⟨enough + 1, fun turns hturns => ?_⟩
  obtain ⟨turns, rfl⟩ : ∃ t, turns = t + 1 := ⟨turns - 1, by omega⟩
  exact h turns (by omega)

/-- The first computation and the second are given the same turns. -/
theorem Settles.bind {f : ℕ → Exec ε φ σ α} {m : Exec ε φ σ α} {g : ℕ → α → Exec ε φ σ β}
    {n : α → Exec ε φ σ β} (hf : Settles f m s)
    (hg : ∀ a, (m s).result = .ok a → Settles (fun turns => g turns a) (n a) (m s).state) :
    Settles (fun turns => f turns >>= g turns) (m >>= n) s := by
  obtain ⟨enough, hf⟩ := hf
  cases h : (m s).result with
  | ok a =>
    obtain ⟨more, hg⟩ := hg a h
    refine ⟨max enough more, fun turns hturns => ?_⟩
    have hfirst := hf turns (by omega)
    have hsecond := hg turns (by omega)
    simp only at hsecond ⊢
    rw [bind_of_ok h, bind_of_ok (by rw [hfirst, h]), hfirst, hsecond]
  | error e =>
    refine ⟨enough, fun turns hturns => ?_⟩
    have hfirst := hf turns hturns
    simp only
    rw [bind_of_error h, bind_of_error (by rw [hfirst, h]), hfirst]

end Settles

/-! ## What every run yields -/

/-- From a state with `I` the computation ends in a state with `I`; its events and its value have
`Q`, or its fault has `F`. -/
structure Yields (I : σ → Prop) (m : Exec ε φ σ α) (Q : List ε → α → Prop) (F : φ → Prop) :
    Prop where
  /-- The invariant is kept. -/
  keeps : ∀ s, I s → I (m s).state
  /-- What is returned. -/
  returns : ∀ s a, I s → (m s).result = .ok a → Q (m s).events a
  /-- What the computation stops at. -/
  faults : ∀ s e, I s → (m s).result = .error e → F e

variable {I : σ → Prop} {F : φ → Prop}

theorem yields_pure {a : α} {Q : List ε → α → Prop} (h : Q [] a) :
    Yields I (pure a : Exec ε φ σ α) Q F where
  keeps _ hs := hs
  returns s b _ hb := by
    obtain rfl : a = b := Except.ok.inj hb
    exact h
  faults _ _ _ he := nomatch he

theorem yields_emit {e : ε} {Q : List ε → PUnit → Prop} (h : Q [e] ⟨⟩) :
    Yields I (emit e : Exec ε φ σ PUnit) Q F where
  keeps _ hs := hs
  returns _ _ _ _ := h
  faults _ _ _ he := nomatch he

theorem yields_fault {e : φ} {Q : List ε → α → Prop} (h : F e) :
    Yields I (fault e : Exec ε φ σ α) Q F where
  keeps _ hs := hs
  returns _ _ _ hb := nomatch hb
  faults s e' _ he := by
    obtain rfl : e = e' := Except.error.inj he
    exact h

theorem yields_read {f : σ → α} {Q : List ε → α → Prop} (h : ∀ s, I s → Q [] (f s)) :
    Yields I (read f : Exec ε φ σ α) Q F where
  keeps _ hs := hs
  returns s b hs hb := by
    obtain rfl : f s = b := Except.ok.inj hb
    exact h s hs
  faults _ _ _ he := nomatch he

theorem yields_act {f : σ → α × σ} {Q : List ε → α → Prop} (hI : ∀ s, I s → I (f s).2)
    (h : ∀ s, I s → Q [] (f s).1) : Yields I (act f : Exec ε φ σ α) Q F where
  keeps s hs := hI s hs
  returns s b hs hb := by
    obtain rfl : (f s).1 = b := Except.ok.inj hb
    exact h s hs
  faults _ _ _ he := nomatch he

theorem yields_ofExcept {x : Except φ α} {Q : List ε → α → Prop} (h : ∀ a, x = .ok a → Q [] a)
    (hF : ∀ e, x = .error e → F e) : Yields I (ofExcept x : Exec ε φ σ α) Q F := by
  cases x with
  | ok a => exact yields_pure (h a rfl)
  | error e => exact yields_fault (hF e rfl)

/-- The second computation runs after the events of the first, on its value. -/
theorem Yields.bind {m : Exec ε φ σ α} {f : α → Exec ε φ σ β} {Q : List ε → α → Prop}
    {R : List ε → β → Prop} (hm : Yields I m Q F)
    (hf : ∀ events a, Q events a → Yields I (f a) (fun events' b => R (events ++ events') b) F) :
    Yields I (m >>= f) R F := by
  constructor
  · intro s hs
    cases hr : (m s).result with
    | ok a =>
      rw [bind_of_ok hr]
      exact (hf _ a (hm.returns s a hs hr)).keeps _ (hm.keeps s hs)
    | error e =>
      rw [bind_of_error hr]
      exact hm.keeps s hs
  · intro s b hs hb
    cases hr : (m s).result with
    | ok a =>
      rw [bind_of_ok hr] at hb ⊢
      exact (hf _ a (hm.returns s a hs hr)).returns _ b (hm.keeps s hs) hb
    | error e =>
      rw [bind_of_error hr] at hb
      exact nomatch hb
  · intro s e hs he
    cases hr : (m s).result with
    | ok a =>
      rw [bind_of_ok hr] at he
      exact (hf _ a (hm.returns s a hs hr)).faults _ e (hm.keeps s hs) he
    | error e' =>
      rw [bind_of_error hr] at he
      obtain rfl : e' = e := Except.error.inj he
      exact hm.faults s e' hs hr

theorem Yields.mono {m : Exec ε φ σ α} {Q R : List ε → α → Prop} (hm : Yields I m Q F)
    (h : ∀ events a, Q events a → R events a) : Yields I m R F :=
  ⟨hm.keeps, fun s a hs ha => h _ a (hm.returns s a hs ha), hm.faults⟩

theorem Yields.weaken {m : Exec ε φ σ α} {Q : List ε → α → Prop} {G : φ → Prop}
    (hm : Yields I m Q F) (h : ∀ e, F e → G e) : Yields I m Q G :=
  ⟨hm.keeps, hm.returns, fun s e hs he => h e (hm.faults s e hs he)⟩

/-! ## Runs in which nothing goes wrong -/

/-- If all the events of the run from `s` meet `D`, it returns, and its final state and its value
have `Q`. -/
def Succeeds (D : ε → Prop) (m : Exec ε φ σ α) (s : σ) (Q : σ → α → Prop) : Prop :=
  (∀ e ∈ (m s).events, D e) → ∃ a, (m s).result = .ok a ∧ Q (m s).state a

variable {D : ε → Prop} {s : σ}

theorem succeeds_pure {a : α} {Q : σ → α → Prop} (h : Q s a) :
    Succeeds D (pure a : Exec ε φ σ α) s Q := fun _ => ⟨a, rfl, h⟩

theorem succeeds_emit {e : ε} {Q : σ → PUnit → Prop} (h : Q s ⟨⟩) :
    Succeeds D (emit e : Exec ε φ σ PUnit) s Q := fun _ => ⟨⟨⟩, rfl, h⟩

theorem succeeds_read {f : σ → α} {Q : σ → α → Prop} (h : Q s (f s)) :
    Succeeds D (read f : Exec ε φ σ α) s Q := fun _ => ⟨f s, rfl, h⟩

theorem succeeds_act {f : σ → α × σ} {Q : σ → α → Prop} (h : Q (f s).2 (f s).1) :
    Succeeds D (act f : Exec ε φ σ α) s Q := fun _ => ⟨(f s).1, rfl, h⟩

theorem succeeds_ofExcept {x : Except φ α} {a : α} {Q : σ → α → Prop} (hx : x = .ok a) (h : Q s a) :
    Succeeds D (ofExcept x : Exec ε φ σ α) s Q := by
  subst hx
  exact succeeds_pure h

/-- The second computation runs in the state that the first one leaves. -/
theorem Succeeds.bind {m : Exec ε φ σ α} {f : α → Exec ε φ σ β} {Q : σ → β → Prop}
    (h : Succeeds D m s fun s' a => Succeeds D (f a) s' Q) : Succeeds D (m >>= f) s Q := by
  intro hD
  have hfirst : ∀ e ∈ (m s).events, D e := by
    cases hr : (m s).result with
    | ok a =>
      rw [bind_of_ok hr] at hD
      exact fun e he => hD e (List.mem_append_left _ he)
    | error e =>
      rw [bind_of_error hr] at hD
      exact hD
  obtain ⟨a, ha, hf⟩ := h hfirst
  rw [bind_of_ok ha] at hD ⊢
  exact hf fun e he => hD e (List.mem_append_right _ he)

theorem Succeeds.mono {m : Exec ε φ σ α} {Q R : σ → α → Prop} (h : Succeeds D m s Q)
    (hQR : ∀ s' a, Q s' a → R s' a) : Succeeds D m s R := by
  intro hD
  obtain ⟨a, ha, hq⟩ := h hD
  exact ⟨a, ha, hQR _ a hq⟩

/-- Of one computation two things hold at once. -/
theorem Succeeds.and {m : Exec ε φ σ α} {Q R : σ → α → Prop} (h : Succeeds D m s Q)
    (h' : Succeeds D m s R) : Succeeds D m s fun s a => Q s a ∧ R s a := by
  intro hD
  obtain ⟨a, ha, hq⟩ := h hD
  obtain ⟨a', ha', hr⟩ := h' hD
  obtain rfl := Except.ok.inj (ha.symm.trans ha')
  exact ⟨a, ha, hq, hr⟩

/-! ## However a run ends -/

/-- If the run from `s` returns, its final state and its value have `Q`, and if it stops at a fault,
its final state has `R`. -/
def Leads (m : Exec ε φ σ α) (s : σ) (Q : σ → α → Prop) (R : σ → Prop) : Prop :=
  (∀ a, (m s).result = .ok a → Q (m s).state a) ∧ (∀ e, (m s).result = .error e → R (m s).state)

theorem leads_pure {a : α} {Q : σ → α → Prop} {R : σ → Prop} (h : Q s a) :
    Leads (pure a : Exec ε φ σ α) s Q R := by
  refine ⟨fun b hb => ?_, fun _ he => nomatch he⟩
  obtain rfl : a = b := Except.ok.inj hb
  exact h

theorem leads_fault {e : φ} {Q : σ → α → Prop} {R : σ → Prop} (h : R s) :
    Leads (fault e : Exec ε φ σ α) s Q R := ⟨fun _ hb => (nomatch hb), fun _ _ => h⟩

theorem leads_emit {e : ε} {Q : σ → PUnit → Prop} {R : σ → Prop} (h : Q s ⟨⟩) :
    Leads (emit e : Exec ε φ σ PUnit) s Q R := ⟨fun _ _ => h, fun _ he => nomatch he⟩

theorem leads_read {f : σ → α} {Q : σ → α → Prop} {R : σ → Prop} (h : Q s (f s)) :
    Leads (read f : Exec ε φ σ α) s Q R := by
  refine ⟨fun b hb => ?_, fun _ he => nomatch he⟩
  obtain rfl : f s = b := Except.ok.inj hb
  exact h

theorem leads_act {f : σ → α × σ} {Q : σ → α → Prop} {R : σ → Prop} (h : Q (f s).2 (f s).1) :
    Leads (act f : Exec ε φ σ α) s Q R := by
  refine ⟨fun b hb => ?_, fun _ he => nomatch he⟩
  obtain rfl : (f s).1 = b := Except.ok.inj hb
  exact h

/-- A computation that keeps an invariant has it however it ends. -/
theorem Yields.leads {m : Exec ε φ σ α} {P : List ε → α → Prop} {G : φ → Prop}
    (h : Yields I m P G) (hs : I s) : Leads m s (fun s' _ => I s') I :=
  ⟨fun _ _ => h.keeps s hs, fun _ _ => h.keeps s hs⟩

/-- The second computation runs in the state that the first one leaves. -/
theorem Leads.bind {m : Exec ε φ σ α} {f : α → Exec ε φ σ β} {Q : σ → β → Prop} {R : σ → Prop}
    (h : Leads m s (fun s' a => Leads (f a) s' Q R) R) : Leads (m >>= f) s Q R := by
  cases hr : (m s).result with
  | ok a =>
    have hf := h.1 a hr
    unfold Leads
    rw [bind_of_ok hr]
    exact hf
  | error e =>
    have he := h.2 e hr
    unfold Leads
    rw [bind_of_error hr]
    exact ⟨fun _ hb => (nomatch hb), fun _ _ => he⟩

theorem Leads.mono {m : Exec ε φ σ α} {Q Q' : σ → α → Prop} {R : σ → Prop} (h : Leads m s Q R)
    (hQ : ∀ s' a, Q s' a → Q' s' a) : Leads m s Q' R :=
  ⟨fun a ha => hQ _ a (h.1 a ha), h.2⟩

theorem Leads.weaken {m : Exec ε φ σ α} {Q : σ → α → Prop} {R R' : σ → Prop} (h : Leads m s Q R)
    (hR : ∀ s', R s' → R' s') : Leads m s Q R' :=
  ⟨h.1, fun e he => hR _ (h.2 e he)⟩

/-! ## All along a run -/

/-- Every run from a state with `I` ends in a state with `I`, all its events have `P`, and if it
stops at a fault, that has `F`. -/
structure Steady (I : σ → Prop) (P : ε → Prop) (F : φ → Prop) (m : Exec ε φ σ α) : Prop where
  /-- The invariant is kept. -/
  keeps : ∀ s, I s → I (m s).state
  /-- The events. -/
  shows : ∀ s, I s → ∀ e ∈ (m s).events, P e
  /-- What the computation stops at. -/
  faults : ∀ s e, I s → (m s).result = .error e → F e

variable {P : ε → Prop}

theorem steady_pure (a : α) : Steady I P F (pure a : Exec ε φ σ α) :=
  ⟨fun _ hs => hs, fun _ _ _ he => (nomatch he), fun _ _ _ he => (nomatch he)⟩

theorem steady_fault {e : φ} (h : F e) : Steady I P F (fault e : Exec ε φ σ α) :=
  ⟨fun _ hs => hs, fun _ _ _ he => (nomatch he), fun _ _ _ he => Except.error.inj he ▸ h⟩

theorem steady_read (f : σ → α) : Steady I P F (read f : Exec ε φ σ α) :=
  ⟨fun _ hs => hs, fun _ _ _ he => (nomatch he), fun _ _ _ he => (nomatch he)⟩

theorem steady_act {f : σ → α × σ} (h : ∀ s, I s → I (f s).2) :
    Steady I P F (act f : Exec ε φ σ α) :=
  ⟨h, fun _ _ _ he => (nomatch he), fun _ _ _ he => (nomatch he)⟩

theorem steady_emit {e : ε} (h : P e) : Steady I P F (emit e : Exec ε φ σ PUnit) :=
  ⟨fun _ hs => hs, fun _ _ _ he => List.eq_of_mem_singleton he ▸ h, fun _ _ _ he => (nomatch he)⟩

/-- The second computation runs where the first returns. -/
theorem Steady.bind {m : Exec ε φ σ α} {f : α → Exec ε φ σ β} (hm : Steady I P F m)
    (hf : ∀ a, Steady I P F (f a)) : Steady I P F (m >>= f) := by
  constructor
  · intro s hs
    cases hr : (m s).result with
    | ok a =>
      rw [bind_of_ok hr]
      exact (hf a).keeps _ (hm.keeps s hs)
    | error e =>
      rw [bind_of_error hr]
      exact hm.keeps s hs
  · intro s hs e he
    cases hr : (m s).result with
    | ok a =>
      rw [bind_of_ok hr] at he
      rcases List.mem_append.1 he with he | he
      · exact hm.shows s hs e he
      · exact (hf a).shows _ (hm.keeps s hs) e he
    | error e' =>
      rw [bind_of_error hr] at he
      exact hm.shows s hs e he
  · intro s e hs he
    cases hr : (m s).result with
    | ok a =>
      rw [bind_of_ok hr] at he
      exact (hf a).faults _ e (hm.keeps s hs) he
    | error e' =>
      rw [bind_of_error hr] at he
      obtain rfl : e' = e := Except.error.inj he
      exact hm.faults s e' hs hr

/-- What is read has the value that it has in the state. -/
theorem steady_read_bind {g : σ → α} {f : α → Exec ε φ σ β} (h : ∀ s, I s → Steady I P F (f (g s))) :
    Steady I P F (read g >>= f) :=
  ⟨fun s hs => (h s hs).keeps s hs, fun s hs => (h s hs).shows s hs, fun s e hs => (h s hs).faults s e hs⟩

theorem Steady.yields {m : Exec ε φ σ α} (h : Steady I P F m) :
    Yields I m (fun events _ => ∀ e ∈ events, P e) F :=
  ⟨h.keeps, fun s _ hs _ => h.shows s hs, h.faults⟩

/-! ## What an observer sees -/

section Moves

variable {τ : Type*} {T : τ → List ε → τ → Prop} {x y : τ}

/-- Where events take an observer: nowhere if there are none, and from one to the next. -/
structure Observes (T : τ → List ε → τ → Prop) : Prop where
  /-- No events. -/
  nil : ∀ x, T x [] x
  /-- Later events. -/
  append : ∀ {x y z l l'}, T x l y → T y l' z → T x (l ++ l') z

/-- The events of every run take the observer from `x` to somewhere with `Y` of the value that is
returned, or to anywhere if it stops at a fault. -/
def Moves (T : τ → List ε → τ → Prop) (x : τ) (m : Exec ε φ σ α) (Y : α → τ → Prop) : Prop :=
  ∀ s, (∀ a, (m s).result = .ok a → ∃ y, Y a y ∧ T x (m s).events y) ∧
    (∀ e, (m s).result = .error e → ∃ y, T x (m s).events y)

/-- A computation whose events leave the observer in place does so. -/
theorem moves_of_unmoved (hT : Observes T) {m : Exec ε φ σ α} (h : ∀ s, ∀ e ∈ (m s).events, T x [e] x) :
    Moves T x m fun _ y => y = x := by
  have hevents : ∀ events : List ε, (∀ e ∈ events, T x [e] x) → T x events x := by
    intro events
    induction events with
    | nil => exact fun _ => hT.nil x
    | cons e rest ih =>
      exact fun hevents => hT.append (hevents e List.mem_cons_self)
        (ih fun e' he' => hevents e' (List.mem_cons_of_mem _ he'))
  exact fun s => ⟨fun _ _ => ⟨x, rfl, hevents _ (h s)⟩, fun _ _ => ⟨x, hevents _ (h s)⟩⟩

/-- A computation that shows nothing does not move the observer. -/
theorem moves_of_silent (hT : Observes T) {m : Exec ε φ σ α} (h : ∀ s, (m s).events = []) :
    Moves T x m fun _ y => y = x :=
  moves_of_unmoved hT fun s e he => by simp [h s] at he

theorem moves_pure (hT : Observes T) {a : α} {Y : α → τ → Prop} (h : Y a x) :
    Moves T x (pure a : Exec ε φ σ α) Y := by
  refine fun s => ⟨fun b hb => ⟨x, ?_, hT.nil x⟩, fun _ he => nomatch he⟩
  obtain rfl : a = b := Except.ok.inj hb
  exact h

theorem moves_fault (hT : Observes T) (e : φ) {Y : α → τ → Prop} :
    Moves T x (fault e : Exec ε φ σ α) Y :=
  fun _ => ⟨fun _ ha => (nomatch ha), fun _ _ => ⟨x, hT.nil x⟩⟩

theorem moves_emit {e : ε} (h : T x [e] y) : Moves T x (emit e : Exec ε φ σ PUnit) fun _ z => z = y :=
  fun _ => ⟨fun _ _ => ⟨y, rfl, h⟩, fun _ he => (nomatch he)⟩

/-- The second computation is seen after the first. -/
theorem Moves.bind (hT : Observes T) {m : Exec ε φ σ α} {f : α → Exec ε φ σ β} {Y : α → τ → Prop}
    {Z : β → τ → Prop} (hm : Moves T x m Y) (hf : ∀ a y, Y a y → Moves T y (f a) Z) :
    Moves T x (m >>= f) Z := by
  intro s
  cases hr : (m s).result with
  | ok a =>
    obtain ⟨y, hy, hfirst⟩ := (hm s).1 a hr
    obtain ⟨hok, herror⟩ := hf a y hy (m s).state
    rw [bind_of_ok hr]
    constructor
    · intro b hb
      obtain ⟨z, hz, hsecond⟩ := hok b hb
      exact ⟨z, hz, hT.append hfirst hsecond⟩
    · intro e he
      obtain ⟨z, hsecond⟩ := herror e he
      exact ⟨z, hT.append hfirst hsecond⟩
  | error e =>
    rw [bind_of_error hr]
    exact ⟨fun _ hb => (nomatch hb), fun _ _ => (hm s).2 e hr⟩

/-- The events of a run take the observer somewhere. -/
theorem Moves.seen {m : Exec ε φ σ α} {Y : α → τ → Prop} (h : Moves T x m Y) (s : σ) :
    ∃ y, T x (m s).events y := by
  cases hr : (m s).result with
  | ok a =>
    obtain ⟨y, -, hy⟩ := (h s).1 a hr
    exact ⟨y, hy⟩
  | error e => exact (h s).2 e hr

/-- What leaves the observer in place composes. -/
theorem composes_moves (hT : Observes T) :
    Composes fun {_} (m : Exec ε φ σ _) => Moves T x m fun _ y => y = x where
  pure _ := moves_pure hT rfl
  fault e := moves_fault hT e
  bind hm hf := hm.bind hT fun a _ hy => hy ▸ hf a

end Moves

end Exec

end Distft
