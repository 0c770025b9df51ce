import Distft.General.Runs

/-!
# The strain reliever

The thread `strain_checker` of `start_background_strain_reliever_cmd` (`src/client/cmd.cpp`), with
what the others do to its data: the sessions count dead peers under `meta_lock`, and `exit_cmd` sets
`dying` without it. A wait on the condition variable may return at any time.

The thread should wait until enough peers are dead. Its loop does the opposite: it waits as long as
the counter has reached the threshold, and goes on where it has not. So the thread acts only under
strain in the runs in which each test of the loop finds the threshold reached, or the client dying
(`actsUnderStrain_iff`), and in these it never acts.
-/

namespace Distft

/-- `dead_peers_thresh`. -/
def deadPeersThresh : UInt32 := 15

/-- `max_dummy_chunks`. -/
def maxDummyChunks : ℕ := 10

/-- Where the thread is. What it remembers of the wait loop is the counter when it left it. -/
inductive StrainPhase where
  /-- It is about to lock `meta_lock`. -/
  | locking
  /-- It has the lock, and is about to test the condition of the wait loop. -/
  | testing
  /-- It is in `wait`, without the lock. -/
  | waiting
  /-- It has the lock, and has left the wait loop. -/
  | left (deadPeers : UInt32)
  /-- It has reset the counter and given the lock back. -/
  | unlocked (deadPeers : UInt32)
  /-- It is in the loop that sets dummy chunks, of which there are some already. -/
  | burst (deadPeers : UInt32) (dummies : ℕ)
  /-- It has returned. -/
  | ended
  deriving DecidableEq

/-- The thread has `meta_lock`. -/
def StrainPhase.holdsLock : StrainPhase → Bool
  | .testing => true
  | .left _ => true
  | _ => false

/-- The thread is in the wait loop. -/
def StrainPhase.Waits : StrainPhase → Prop
  | .testing => True
  | .waiting => True
  | _ => False

/-- The thread is in a burst of dummy chunks that was started when the wait loop had been left with
the counter. -/
def StrainPhase.Bursts (deadPeers : UInt32) : StrainPhase → Prop
  | .burst d _ => d = deadPeers
  | _ => False

/-- The data of the client, and its thread. -/
structure Strain where
  /-- `meta->dead_peers`. -/
  deadPeers : UInt32
  /-- `dying`. -/
  dying : Bool
  /-- The thread. -/
  phase : StrainPhase

/-- A step of the thread, or of others. -/
inductive StrainStep where
  /-- A session counts a dead peer, in `update_peer`. -/
  | countDeadPeer
  /-- `exit_cmd`. -/
  | exit
  /-- The thread goes on; `rand()` returns the number. -/
  | thread (rand : ℕ)

namespace Strain

/-- The thread begins. -/
def start (deadPeers : UInt32) (dying : Bool) : Strain := ⟨deadPeers, dying, .locking⟩

/-- One step. -/
def step (s : Strain) : StrainStep → Strain
  | .countDeadPeer =>
    -- The counter is changed under the lock, so not while the thread has it.
    if s.phase.holdsLock then s else { s with deadPeers := s.deadPeers + 1 }
  | .exit => { s with dying := true }
  | .thread rand =>
    match s.phase with
    | .locking => { s with phase := .testing }
    | .testing =>
      if !s.dying && decide (deadPeersThresh ≤ s.deadPeers) then { s with phase := .waiting }
      else { s with phase := .left s.deadPeers }
    -- `wait` returns with the lock, and the condition is tested again.
    | .waiting => { s with phase := .testing }
    | .left deadPeers => { s with deadPeers := 0, phase := .unlocked deadPeers }
    | .unlocked deadPeers =>
      if s.dying then { s with phase := .ended } else { s with phase := .burst deadPeers 0 }
    | .burst deadPeers dummies =>
      -- `rand()` is called again for each turn.
      if dummies < rand % maxDummyChunks then { s with phase := .burst deadPeers (dummies + 1) }
      else { s with phase := .locking }
    | .ended => s

/-- A burst that begins with the step was started because the threshold had been reached when the
wait loop was left, and if it is not reached and the client is not dying, the thread stays in the
wait loop. -/
structure ActsUnderStrain (s : Strain) (i : StrainStep) : Prop where
  /-- The start of a burst. -/
  bursts : ∀ deadPeers, (s.step i).phase.Bursts deadPeers → ¬s.phase.Bursts deadPeers →
    deadPeersThresh ≤ deadPeers
  /-- The wait. -/
  waits : s.phase.Waits → s.deadPeers < deadPeersThresh → s.dying = false → (s.step i).phase.Waits

/-- If the step tests the condition of the wait loop, the threshold is reached, or the client is
dying. -/
def TestsUnderStrain (s : Strain) : StrainStep → Prop
  | .thread _ => s.phase = .testing → s.dying = true ∨ deadPeersThresh ≤ s.deadPeers
  | _ => True

/-- Where the thread has left the wait loop, the client is dying. -/
def LeftOnlyDying (s : Strain) : Prop :=
  match s.phase with
  | .left _ => s.dying = true
  | .unlocked _ => s.dying = true
  | .burst _ _ => False
  | _ => True

/-- Tests under strain are left only by a client that dies. -/
theorem leftOnlyDying_step {s : Strain} {i : StrainStep} (htest : s.TestsUnderStrain i)
    (h : s.LeftOnlyDying) : (s.step i).LeftOnlyDying := by
  obtain ⟨deadPeers, dying, phase⟩ := s
  cases i with
  | countDeadPeer =>
    unfold step
    split_ifs <;> exact h
  | exit => cases phase <;> simp_all [step, LeftOnlyDying]
  | thread rand =>
    cases phase with
    | testing =>
      unfold step
      dsimp only
      split_ifs with hwait
      · trivial
      · show dying = true
        rcases htest rfl with hdying | hthresh
        · exact hdying
        · simpa [hthresh] using hwait
    | unlocked d =>
      obtain rfl : dying = true := h
      trivial
    | burst d dummies => exact h.elim
    | left d => exact h
    | locking | waiting | ended => trivial

/-- A step acts under strain if it tests under strain, as long as the wait loop was left only by a
client that dies. -/
theorem actsUnderStrain_of_tests {s : Strain} {i : StrainStep} (htest : s.TestsUnderStrain i)
    (h : s.LeftOnlyDying) : s.ActsUnderStrain i := by
  have hafter := leftOnlyDying_step htest h
  constructor
  · intro deadPeers hbursts _
    -- No burst begins in such runs.
    unfold LeftOnlyDying at hafter
    cases hphase : (s.step i).phase <;> simp_all [StrainPhase.Bursts]
  · intro hwaits hfew hdying
    obtain ⟨deadPeers, dying, phase⟩ := s
    cases i with
    | countDeadPeer =>
      unfold step
      split_ifs <;> exact hwaits
    | exit => exact hwaits
    | thread rand =>
      cases phase with
      | testing =>
        -- The test is under strain, and the threshold is not reached: the client would be dying.
        rcases htest rfl with hdying' | hthresh
        · simp_all
        · exact absurd hfew (UInt32.not_lt.2 hthresh)
      | waiting => trivial
      | locking | left | unlocked | burst | ended => exact hwaits.elim

/-- A step that acts under strain tests under strain. -/
theorem ActsUnderStrain.tests {s : Strain} {i : StrainStep} (h : s.ActsUnderStrain i) :
    s.TestsUnderStrain i := by
  cases i with
  | countDeadPeer | exit => trivial
  | thread rand =>
    intro htesting
    -- Without strain the thread should stay in the wait loop, but the test lets it go.
    by_contra hnot
    obtain ⟨hdying, hfew⟩ := not_or.1 hnot
    have hstays := h.waits (by simp [htesting, StrainPhase.Waits]) (UInt32.not_le.1 hfew)
      (Bool.not_eq_true _ ▸ hdying)
    simp [step, htesting, hfew, StrainPhase.Waits] at hstays

/-- The thread acts only under strain in exactly the runs in which all tests of the wait loop find the
threshold reached, or the client dying. -/
theorem actsUnderStrain_iff (deadPeers : UInt32) (dying : Bool) (steps : List StrainStep) :
    Runs.AllSteps step ActsUnderStrain (start deadPeers dying) steps ↔
      Runs.AllSteps step TestsUnderStrain (start deadPeers dying) steps := by
  constructor
  · exact fun hacts l i hl => (hacts l i hl).tests
  · intro htests l i hl
    have hdying := Runs.allStates_of_allSteps (fun _ _ => leftOnlyDying_step)
      (show (start deadPeers dying).LeftOnlyDying from trivial) htests
    exact actsUnderStrain_of_tests (htests l i hl) (hdying l ((List.prefix_append l [i]).trans hl))

/-- With no dead peers the thread leaves the wait loop at once. -/
theorem not_actsUnderStrain :
    ¬∀ (deadPeers : UInt32) (dying : Bool) (steps : List StrainStep),
      Runs.AllSteps step ActsUnderStrain (start deadPeers dying) steps := by
  intro h
  have hacts := h 0 false [.thread 0, .thread 0] [.thread 0] (.thread 0) List.prefix_rfl
  exact hacts.waits trivial (by decide) rfl

end Strain

end Distft
