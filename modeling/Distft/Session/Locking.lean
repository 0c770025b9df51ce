import Distft.Session.Publish

/-!
# Who holds a mutex

The operations on mutexes are events of a run, so what a thread does to a mutex can be read from its
events (`lockHeld`). The mutexes are `std::mutex`, which a thread must not lock twice. The callers and
the lookups leave the lock of the chunks alone (`Net.OffChunks`), so a thread that holds it may call
them; `publish` is not among them.
-/

namespace Distft

/-- Whether a thread holds a mutex that is not recursive after some events, if it held it before or
not. `none` is a try to lock it while it is held. -/
def lockHeld (mutex : Mutex) : Bool → List Event → Option Bool
  | held, [] => some held
  | held, .lock locked :: rest =>
    if locked = mutex then (if held then none else lockHeld mutex true rest)
    else lockHeld mutex held rest
  | held, .unlock unlocked :: rest =>
    if unlocked = mutex then lockHeld mutex false rest else lockHeld mutex held rest
  | held, .attemptInsertPeer _ _ :: rest => lockHeld mutex held rest
  | held, .evictPeer _ :: rest => lockHeld mutex held rest
  | held, .rpc _ _ _ _ :: rest => lockHeld mutex held rest

/-- Events about other things do not change who holds a mutex. -/
theorem lockHeld_of_off {mutex : Mutex} {held : Bool} {events : List Event}
    (h : ∀ e ∈ events, OffMutex mutex e) : lockHeld mutex held events = some held := by
  induction events with
  | nil => rfl
  | cons e rest ih =>
    have ih := ih fun e' he' => h e' (List.mem_cons_of_mem _ he')
    obtain ⟨hlock, hunlock⟩ := h e List.mem_cons_self
    cases e with
    | lock locked =>
      have hne : locked ≠ mutex := fun heq => hlock (heq ▸ rfl)
      rw [lockHeld, if_neg hne, ih]
    | unlock unlocked =>
      have hne : unlocked ≠ mutex := fun heq => hunlock (heq ▸ rfl)
      rw [lockHeld, if_neg hne, ih]
    | attemptInsertPeer key endpoint => exact ih
    | evictPeer key => exact ih
    | rpc m peer request response => exact ih

/-- Events go on from who holds a mutex after the earlier ones. -/
theorem lockHeld_append (mutex : Mutex) (held : Bool) (events events' : List Event) :
    lockHeld mutex held (events ++ events') =
      (lockHeld mutex held events).bind fun held => lockHeld mutex held events' := by
  induction events generalizing held with
  | nil => rfl
  | cons e rest ih =>
    cases e with
    | lock locked =>
      rw [List.cons_append, lockHeld, lockHeld]
      split_ifs
      · rfl
      · exact ih true
      · exact ih held
    | unlock unlocked =>
      rw [List.cons_append, lockHeld, lockHeld]
      split_ifs
      · exact ih false
      · exact ih held
    | attemptInsertPeer key endpoint => exact ih held
    | evictPeer key => exact ih held
    | rpc m peer request response => exact ih held

namespace Net

variable {W α β : Type} {net : Net W}

/-- No run of the computation locks or unlocks the chunks. -/
abbrev OffChunks (m : Op W α) : Prop := Keeps (fun _ => True) (OffMutex .chunks) m

/-- So it is where the events of the computation are about other things. -/
theorem covers_offChunks : Covers (OffMutex .chunks) := fun _ he => he

/-- From a state in which the thread holds the lock of the chunks, the run tries to lock it again,
or stops while it still holds it. -/
def Jams (m : Op W α) (w : W) : Prop :=
  lockHeld .chunks true (m w).events = none ∨
    lockHeld .chunks true (m w).events = some true ∧ ∃ e, (m w).result = .error e

theorem jams_fault (e : Fault) (w : W) : Jams (Exec.fault e : Op W α) w := .inr ⟨rfl, e, rfl⟩

theorem jams_lock (f : Unit → Op W α) (w : W) : Jams (lock .chunks >>= f) w := .inl rfl

/-- What comes after does not matter. -/
theorem Jams.bind {m : Op W α} {w : W} (h : Jams m w) (f : α → Op W β) : Jams (m >>= f) w := by
  rcases h with h | ⟨h, e, he⟩
  · obtain ⟨later, hevents⟩ := Exec.events_prefix_bind m f w
    refine .inl ?_
    rw [← hevents, lockHeld_append, h]
    rfl
  · refine .inr ?_
    rw [Exec.bind_of_error he]
    exact ⟨h, e, rfl⟩

/-- What comes before does not matter, if it leaves the lock alone. -/
theorem OffChunks.jams {m : Op W α} (hm : OffChunks m) {w : W} {f : α → Op W β}
    (hf : ∀ a, (m w).result = .ok a → Jams (f a) (m w).state) : Jams (m >>= f) w := by
  have hheld : lockHeld .chunks true (m w).events = some true :=
    lockHeld_of_off (hm.shows w trivial)
  cases hr : (m w).result with
  | ok a =>
    have hjams := hf a hr
    unfold Jams
    rw [Exec.bind_of_ok hr, lockHeld_append, hheld]
    exact hjams
  | error e =>
    unfold Jams
    rw [Exec.bind_of_error hr]
    exact .inr ⟨hheld, e, rfl⟩

/-- `publish` locks the chunks at the end, if it comes to it. -/
theorem jams_publish (chunk : Chunk) (force : Bool) (w : W) : Jams (net.publish chunk force) w := by
  refine OffChunks.jams (keeps_nodeLookup net.frame_true covers_offChunks _) fun buffer hbuffer => ?_
  have hlen := (nodeLookup_length_le net.frame_true chunk.key).returns w buffer trivial hbuffer
  refine OffChunks.jams (keeps_storeAll net.frame_true covers_offChunks _ _ _ _) fun maxDist _ =>
    OffChunks.jams (keeps_get _) fun selfKey _ => ?_
  rw [if_pos (by simp [hlen])]
  exact jams_lock _ _

end Net

end Distft
