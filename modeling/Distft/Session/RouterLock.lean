import Distft.Session.Lifecycle

/-!
# The lock of the router

The events of a run show when a thread holds the lock of the router, and when it changes the
router's peers. An observer who follows both (`LockTrace`) sees the lock taken only where it is
free, in every run of every operation, and sees a change without it exactly where one of the callers
evicts a peer whose RPC failed (`Operation.locksFree`). So the router is changed under its lock in
the runs in which no such RPC fails (`underLock_iff`).
-/

namespace Distft

open Exec

/-! ## Events and the lock -/

/-- The event changes the router's peers. -/
def Event.Mutates : Event → Prop
  | .attemptInsertPeer _ _ => True
  | .evictPeer _ => True
  | _ => False

/-- The event is an RPC that failed, and whose caller evicts the peer then. -/
def Event.FailsEvicting : Event → Prop
  | .rpc m _ _ response => m ≠ .store ∧ response = none
  | _ => False

/-- From whether the thread holds the lock of the router before the events, it holds it at each of
them that changes the router's peers. -/
def GuardedFrom (held : Bool) (events : List Event) : Prop :=
  ∀ before e after, events = before ++ e :: after → e.Mutates →
    lockHeld .router held before = some true

/-- A run takes the lock of the router only where it does not hold it, has given it back when it
returns, and holds it whenever it changes the router's peers. -/
structure UnderLock {W α : Type} (run : Run Event Fault W α) : Prop where
  /-- The lock is not taken twice. -/
  once : lockHeld .router false run.events ≠ none
  /-- The lock is given back. -/
  released : ∀ a, run.result = .ok a → lockHeld .router false run.events = some false
  /-- The changes. -/
  guarded : GuardedFrom false run.events

/-- What is guarded from a point on is what is guarded in both of its parts. -/
theorem guardedFrom_append {held held' : Bool} {events events' : List Event}
    (hheld : lockHeld .router held events = some held') :
    GuardedFrom held (events ++ events') ↔ GuardedFrom held events ∧ GuardedFrom held' events' := by
  have hafter : ∀ before, lockHeld .router held (events ++ before) = lockHeld .router held' before := by
    intro before
    rw [lockHeld_append, hheld]
    rfl
  constructor
  · intro h
    refine ⟨fun before e after heq he => h before e (after ++ events') ?_ he,
      fun before e after heq he => ?_⟩
    · rw [heq, List.append_assoc, List.cons_append]
    · rw [← hafter]
      exact h (events ++ before) e after (by rw [heq, List.append_assoc]) he
  · rintro ⟨hfirst, hsecond⟩ before e after heq he
    -- The change is in the second part, or in the first; where these meet, it is the first event of the
    -- second.
    rcases List.append_eq_append_iff.1 heq with ⟨rest, rfl, hrest⟩ | ⟨rest, rfl, hrest⟩
    · rw [hafter]
      exact hsecond rest e after hrest he
    · cases rest with
      | nil =>
        rw [List.append_nil] at hheld
        rw [hheld]
        exact hsecond [] e after hrest.symm he
      | cons e' rest =>
        obtain ⟨rfl, -⟩ := List.cons.inj hrest
        exact hfirst before e rest rfl he

/-- From whether the thread holds the lock, it does not take it twice, and changes the router
without it exactly if an RPC fails whose caller evicts the peer then. -/
structure LockTrace (held : Bool) (events : List Event) (held' : Bool) : Prop where
  /-- Whether it holds the lock afterwards. -/
  lock : lockHeld .router held events = some held'
  /-- The changes. -/
  guarded : GuardedFrom held events ↔ ∀ e ∈ events, ¬e.FailsEvicting

/-- Traces are composed. -/
theorem observes_lockTrace : Observes LockTrace where
  nil held := ⟨rfl, iff_of_true (fun _ _ _ heq => absurd heq (by simp)) (by simp)⟩
  append {held held' held'' events events'} h h' := by
    refine ⟨?_, ?_⟩
    · rw [lockHeld_append, h.lock]
      exact h'.lock
    · rw [guardedFrom_append h.lock, h.guarded, h'.guarded, List.forall_mem_append]

/-- A change is guarded where the lock is held. -/
theorem guardedFrom_singleton (held : Bool) (e : Event) :
    GuardedFrom held [e] ↔ (e.Mutates → held = true) := by
  constructor
  · exact fun h he => Option.some.inj (h [] e [] rfl he)
  · intro h before e' after heq he
    cases before with
    | nil =>
      obtain ⟨rfl, -⟩ := List.cons.inj heq
      exact congrArg some (h he)
    | cons _ before => simp at heq

/-- An event by itself. -/
theorem lockTrace_singleton {held held' : Bool} {e : Event}
    (hlock : lockHeld .router held [e] = some held') (hfails : ¬e.FailsEvicting)
    (hmutates : e.Mutates → held = true) : LockTrace held [e] held' where
  lock := hlock
  guarded := iff_of_true ((guardedFrom_singleton held e).2 hmutates)
    fun _ he => List.eq_of_mem_singleton he ▸ hfails

/-- A failed RPC and the eviction of its peer, without the lock. -/
theorem lockTrace_evict {m : Method} (hm : m ≠ .store) (peer : Peer) (request : m.Request) (key : Key) :
    LockTrace false [.rpc m peer request none, .evictPeer key] false where
  lock := rfl
  guarded := by
    refine iff_of_false (fun h => ?_) fun h => h _ List.mem_cons_self ⟨hm, rfl⟩
    exact absurd (h [.rpc m peer request none] (.evictPeer key) [] rfl trivial) (by simp [lockHeld])

namespace Net

variable {W : Type} {net : Net W} {α β : Type}

/-- From and to whether the thread holds the lock, as the observer sees it. -/
abbrev Locks (held : Bool) (x : Op W α) (held' : Bool) : Prop :=
  Moves LockTrace held x fun _ y => y = held'

/-- The observer sees nothing new in a computation that leaves the lock free. -/
abbrev LocksFree (x : Op W α) : Prop := Locks false x false

theorem locks_pure {held : Bool} (a : α) : Locks held (pure a : Op W α) held :=
  moves_pure observes_lockTrace rfl

theorem locks_get {held : Bool} (f : Session → α) : Locks held (net.get f) held :=
  moves_of_silent observes_lockTrace fun _ => rfl

theorem locks_modify {held : Bool} (f : Session → α × Session) : Locks held (net.modify f) held :=
  moves_of_silent observes_lockTrace fun _ => rfl

theorem locks_clock {held : Bool} : Locks held net.clock held :=
  moves_of_silent observes_lockTrace fun _ => rfl

theorem locks_fault {held held' : Bool} (e : Fault) : Locks held (Exec.fault e : Op W α) held' :=
  moves_fault observes_lockTrace e

theorem Locks.bind {held held' held'' : Bool} {x : Op W α} {f : α → Op W β} (hx : Locks held x held')
    (hf : ∀ a, Locks held' (f a) held'') : Locks held (x >>= f) held'' :=
  Moves.bind observes_lockTrace hx fun a _ hy => hy ▸ hf a

theorem locks_lock : Locks false (lock .router : Op W Unit) true :=
  moves_emit (lockTrace_singleton rfl id nofun)

theorem locks_unlock : Locks true (unlock .router : Op W Unit) false :=
  moves_emit (lockTrace_singleton rfl id nofun)

/-- The other locks do not matter. -/
theorem locks_lock_of_ne {held : Bool} {mutex : Mutex} (h : mutex ≠ .router) :
    Locks held (lock mutex : Op W Unit) held :=
  moves_emit (lockTrace_singleton (by simp [lockHeld, h]) id nofun)

theorem locks_unlock_of_ne {held : Bool} {mutex : Mutex} (h : mutex ≠ .router) :
    Locks held (unlock mutex : Op W Unit) held :=
  moves_emit (lockTrace_singleton (by simp [lockHeld, h]) id nofun)

theorem locks_attemptInsertPeer (key : Key) (endpoint : Bytes) :
    Locks true (net.attemptInsertPeer key endpoint) true :=
  Locks.bind (moves_emit (lockTrace_singleton rfl id fun _ => rfl)) fun _ =>
    locks_clock.bind fun _ => locks_modify _

theorem locks_evictPeer (key : Key) : Locks true (net.evictPeer key) true :=
  Locks.bind (moves_emit (lockTrace_singleton rfl id fun _ => rfl)) fun _ => locks_modify _

/-- The computations that leave the lock free compose. -/
theorem composes_locksFree : Composes fun {_} (x : Op W _) => LocksFree x :=
  composes_moves observes_lockTrace

/-- What shows nothing leaves the lock free. -/
theorem locksFree_of_silent {x : Op W α} (h : ∀ w, (x w).events = []) : LocksFree x :=
  moves_of_silent observes_lockTrace h

theorem locksFree_toLocal (peer : RpcPeer) : LocksFree (toLocal peer : Op W Peer) :=
  locksFree_of_silent fun _ => by
    unfold toLocal
    cases rpcPeerToLocal peer <;> rfl

theorem locksFree_toKey (str : Bytes) : LocksFree (toKey str : Op W Key) :=
  locksFree_of_silent fun _ => by
    unfold toKey
    cases Key.ofBytes str <;> rfl

theorem locksFree_copyData (data : Bytes) (size : Int32) : LocksFree (copyData data size : Op W Bytes) :=
  locksFree_of_silent fun _ => by
    unfold copyData
    split_ifs <;> rfl

theorem locksFree_ofSeconds (seconds : Int64) : LocksFree (ofSeconds seconds : Op W Time) :=
  locksFree_of_silent fun _ => by
    unfold ofSeconds
    split_ifs <;> rfl

/-- `closest_peers` is called under the lock. -/
theorem locksFree_closestPeers (searchKey : Key) (n : UInt32) :
    LocksFree (net.closestPeers searchKey n) :=
  locks_lock.bind fun _ => locks_clock.bind fun _ => (locks_modify _).bind fun _ =>
    locks_unlock.bind fun _ => locks_pure _

/-! ## Callers -/

/-- A call whose peer is evicted if it fails. -/
theorem locksFree_call_evict {m : Method} (hm : m ≠ .store) {peer : Peer} {request : m.Request}
    {f : Option m.Response → Op W α} {a : α}
    (hnone : f none = (net.evictPeer peer.key >>= fun _ => pure a))
    (hsome : ∀ response, LocksFree (f (some response))) :
    LocksFree (net.call m peer request >>= f) := by
  intro w
  rcases hrpc : net.rpc m peer.endpoint request w with ⟨response, w'⟩
  cases response with
  | none =>
    -- The failure and the eviction are seen together: both sides of the observer's statement are false.
    rw [call_evict_run hrpc hnone]
    exact ⟨fun _ _ => ⟨false, rfl, lockTrace_evict hm peer request peer.key⟩, fun _ he => nomatch he⟩
  | some response =>
    have hcall : LockTrace false [.rpc m peer request (some response)] false :=
      lockTrace_singleton rfl (fun h => nomatch h.2) nofun
    obtain ⟨hok, herror⟩ := hsome response w'
    rw [bind_run (call_run hrpc)]
    constructor
    · intro b hb
      obtain ⟨held, hheld, htrace⟩ := hok b hb
      exact ⟨held, hheld, observes_lockTrace.append hcall htrace⟩
    · intro e he
      obtain ⟨held, htrace⟩ := herror e he
      exact ⟨held, observes_lockTrace.append hcall htrace⟩

theorem locksFree_prelims : LocksFree net.rpcCallerPrelims := locks_get _

theorem locksFree_ping (peer : Peer) : LocksFree (net.ping peer) :=
  locksFree_prelims.bind fun _ => locksFree_call_evict (by decide) rfl fun _ =>
    (locksFree_toLocal _).bind fun _ => locks_pure _

/-- `update_peer` changes the router under the lock, and pings without it. -/
theorem locksFree_updatePeer (key : Key) (endpoint : Bytes) : LocksFree (net.updatePeer key endpoint) := by
  unfold updatePeer
  generalize net.turns = turns
  generalize (none : Option Peer) = lruPeer
  induction turns generalizing lruPeer with
  | zero => exact locks_fault _
  | succ turns ih =>
    unfold updateLoop
    refine locks_lock.bind fun _ => (locks_attemptInsertPeer _ _).bind fun found =>
      locks_unlock.bind fun _ => ?_
    obtain ⟨inserted, lru⟩ := found
    cases inserted with
    | true => exact locks_pure _
    | false =>
      cases lru.or lruPeer with
      | none => exact locks_fault _
      | some lruPeer =>
        refine (locksFree_ping lruPeer).bind fun other => ?_
        split_ifs
        · exact locks_pure _
        -- The eviction here is the one that takes the lock.
        · exact locks_lock.bind fun _ => (locks_evictPeer _).bind fun _ => locks_unlock.bind fun _ =>
            (locks_lock_of_ne (by decide)).bind fun _ => (locks_modify _).bind fun _ =>
            (locks_unlock_of_ne (by decide)).bind fun _ => ih _

theorem locksFree_epilogue (receiver : RpcPeer) : LocksFree (net.rpcCallerEpilogue receiver) :=
  (locksFree_toLocal _).bind fun _ => locksFree_updatePeer _ _

theorem locksFree_learnPeers (rpcPeers : List RpcPeer) : LocksFree (net.learnPeers rpcPeers) := by
  induction rpcPeers with
  | nil => exact locks_pure _
  | cons rpcPeer rest ih =>
    unfold learnPeers
    refine (locksFree_toLocal rpcPeer).bind fun peer => (locks_get _).bind fun selfKey =>
      (locks_get _).bind fun selfEndpoint => ?_
    split_ifs
    · exact ih
    · exact (locksFree_updatePeer _ _).bind fun _ => ih.bind fun _ => locks_pure _

theorem locksFree_findNode (peer : Peer) (searchKey : Key) : LocksFree (net.findNode peer searchKey) :=
  locksFree_prelims.bind fun _ => locksFree_call_evict (by decide) rfl fun _ =>
    (locksFree_epilogue _).bind fun _ => (locksFree_learnPeers _).bind fun _ => locks_pure _

theorem locksFree_findValue (peer : Peer) (searchKey : Key) :
    LocksFree (net.findValue peer searchKey) := by
  refine locksFree_prelims.bind fun _ => locksFree_call_evict (by decide) rfl fun response =>
    (locksFree_epilogue _).bind fun _ => ?_
  split_ifs
  · exact (locksFree_copyData _ _).bind fun _ => locks_pure _
  · exact (locksFree_learnPeers _).bind fun _ => locks_pure _

/-- `store` evicts nobody if its second RPC fails. -/
theorem locksFree_store (peer : Peer) (chunk : Chunk) (force : Bool) :
    LocksFree (net.store peer chunk force) := by
  have hcall : ∀ request, LocksFree (net.call .store peer request) := by
    intro request w
    rcases hrpc : net.rpc .store peer.endpoint request w with ⟨response, w'⟩
    rw [call_run hrpc]
    exact ⟨fun _ _ => ⟨false, rfl, lockTrace_singleton rfl (fun h => h.1 rfl) nofun⟩,
      fun _ he => nomatch he⟩
  refine locksFree_prelims.bind fun _ => locksFree_call_evict (by decide) rfl fun initResponse => ?_
  simp only
  split_ifs
  · exact locks_pure _
  · refine (locksFree_epilogue _).bind fun _ => locksFree_prelims.bind fun _ =>
      (hcall _).bind fun response => ?_
    cases response with
    | none => exact locks_pure _
    | some response => exact (locksFree_epilogue _).bind fun _ => locks_pure _

/-! ## Lookups -/

theorem locksFree_nodeLookup (nodeKey : Key) : LocksFree (net.nodeLookup nodeKey) :=
  nodeLookup_of_composes composes_locksFree (locksFree_closestPeers _ _) fun peer =>
    locksFree_findNode peer nodeKey

theorem locksFree_valueLookup (chunkKey : Key) : LocksFree (net.valueLookup chunkKey) :=
  valueLookup_of_composes composes_locksFree (locksFree_closestPeers _ _) fun peer =>
    locksFree_findValue peer chunkKey

/-- The random peers are picked under the lock. -/
theorem locksFree_refreshPeers (unaccessedTime : ℤ) (readings : Readings) :
    LocksFree (net.refreshPeers unaccessedTime readings) := by
  refine locks_lock.bind fun _ => (locks_modify _).bind fun picked => ?_
  cases picked with
  | none => exact locks_fault _
  | some peers =>
    exact locks_unlock.bind fun _ =>
      lookupEach_of_composes composes_locksFree locksFree_nodeLookup peers

theorem locksFree_selfLookup (selfKey : Key) (readings : Readings) :
    LocksFree (net.selfLookup selfKey readings) :=
  (lookupHelper_of_composes composes_locksFree (locksFree_closestPeers _ _) [] fun peer =>
    nodeQueryFn_of_composes composes_locksFree (locksFree_findNode peer selfKey)).bind fun _ =>
    locksFree_refreshPeers 0 readings

/-! ## Operations -/

/-- `startup` sets up the router, and replaces the temporary key in it, under the lock. -/
theorem locksFree_startup (selfKey tempKey : Key) (selfEndpoint initEndpoint : Bytes)
    (readings : Readings) :
    LocksFree (net.startup selfKey tempKey selfEndpoint initEndpoint readings) := by
  have hnew : ∀ selfPeer otherPeer, Locks true (net.newRouter selfPeer otherPeer) true :=
    fun _ _ => Locks.bind (moves_emit (lockTrace_singleton rfl id fun _ => rfl)) fun _ =>
      locks_clock.bind fun _ => locks_modify _
  have hping : ∀ turns otherPeer, LocksFree (net.pingLoop turns otherPeer) := by
    intro turns otherPeer
    induction turns with
    | zero => exact locks_fault _
    | succ turns ih =>
      refine (locksFree_ping otherPeer).bind fun receiver => ?_
      cases receiver with
      | none => exact ih
      | some receiver => exact locks_pure _
  exact locks_lock.bind fun _ => (hnew _ _).bind fun _ => locks_unlock.bind fun _ =>
    (hping _ _).bind fun _ => locks_lock.bind fun _ => (locks_attemptInsertPeer _ _).bind fun _ =>
    (locks_evictPeer _).bind fun _ => locks_unlock.bind fun _ => locksFree_selfLookup _ _

theorem locksFree_reassign (chunkKey : Key) (chunk : Chunk) : LocksFree (net.reassign chunkKey chunk) :=
  reassign_of_composes composes_locksFree (locksFree_closestPeers _ _) fun peer =>
    locksFree_store peer chunk false

theorem locksFree_teardown (republish : Bool) : LocksFree (net.teardown republish) := by
  have hall : ∀ entries, LocksFree (net.reassignAll entries) := by
    intro entries
    induction entries with
    | nil => exact locks_pure _
    | cons entry rest ih =>
      exact (locksFree_reassign _ _).bind fun _ => ih.bind fun _ => locks_pure _
  have hunlock : LocksFree (unlock .chunks : Op W Unit) := locks_unlock_of_ne (by decide)
  refine (locks_lock_of_ne (by decide)).bind fun _ => (locks_get _).bind fun entries => ?_
  dsimp only
  split_ifs
  · exact (hall entries).bind fun _ => hunlock.bind fun _ => locks_pure _
  · exact (locks_pure _).bind fun _ => hunlock.bind fun _ => locks_pure _

theorem locksFree_publish (chunk : Chunk) (force : Bool) : LocksFree (net.publish chunk force) := by
  have hstore : ∀ maxDist peers, LocksFree (net.storeAll chunk force maxDist peers) :=
    storeAll_of_composes composes_locksFree fun peer => locksFree_store peer chunk force
  refine (locksFree_nodeLookup _).bind fun buffer => (hstore _ _).bind fun maxDist =>
    (locks_get _).bind fun selfKey => ?_
  split_ifs
  · exact (locks_lock_of_ne (by decide)).bind fun _ => (locks_modify _).bind fun _ =>
      locks_unlock_of_ne (by decide)
  · exact locks_pure _

theorem locksFree_getValue (searchKey : Key) : LocksFree (net.getValue searchKey) := by
  refine (locks_lock_of_ne (by decide)).bind fun _ => (locks_get _).bind fun found => ?_
  cases found with
  | some chunk => exact (locks_unlock_of_ne (by decide)).bind fun _ => locks_pure _
  | none => exact (locks_unlock_of_ne (by decide)).bind fun _ => locksFree_valueLookup _

/-- The handlers begin with an update of the sender. -/
theorem locksFree_handle (m : Method) (request : m.Request) : LocksFree (net.handle m request) := by
  have hprelims : ∀ sender, LocksFree (net.rpcHandlerPrelims sender) := fun _ =>
    (locksFree_toLocal _).bind fun _ => (locksFree_updatePeer _ _).bind fun _ => locks_get _
  have hlock : LocksFree (lock .chunks : Op W Unit) := locks_lock_of_ne (by decide)
  have hunlock : LocksFree (unlock .chunks : Op W Unit) := locks_unlock_of_ne (by decide)
  cases m with
  | findNode =>
    exact (hprelims _).bind fun _ => (locksFree_toKey _).bind fun _ =>
      (locksFree_closestPeers _ _).bind fun _ => locks_pure _
  | findValue =>
    refine (hprelims _).bind fun _ => (locksFree_toKey _).bind fun _ => hlock.bind fun _ =>
      (locks_get _).bind fun found => ?_
    cases found with
    | some chunk => exact hunlock.bind fun _ => locks_pure _
    | none =>
      exact hunlock.bind fun _ => (locksFree_closestPeers _ _).bind fun _ => locks_pure _
  | storeInit =>
    exact (hprelims _).bind fun _ => (locksFree_toKey _).bind fun _ => hlock.bind fun _ =>
      (locks_get _).bind fun _ => hunlock.bind fun _ => locks_pure _
  | store =>
    exact (hprelims _).bind fun _ => (locksFree_toKey _).bind fun _ =>
      (locksFree_ofSeconds _).bind fun _ => (locksFree_copyData _ _).bind fun _ =>
      locks_clock.bind fun _ => hlock.bind fun _ => (locks_modify _).bind fun _ =>
      hunlock.bind fun _ => locks_pure _
  | ping => exact (hprelims _).bind fun _ => locks_pure _

/-- A pass over the chunks does not touch the lock, if its work does not. -/
theorem locksFree_chunksPass {test : Time → Chunk → Except Fault Bool} {work : List Key → Op W Unit}
    (hwork : ∀ keys, LocksFree (work keys)) : LocksFree (net.chunksPass test work) := by
  have hselect : ∀ entries, LocksFree (net.selectKeys test entries) := by
    intro entries
    induction entries with
    | nil => exact locks_pure _
    | cons entry rest ih =>
      exact locks_clock.bind fun _ => (locksFree_of_silent fun _ => by cases test _ _ <;> rfl).bind fun _ =>
        ih.bind fun _ => locks_pure _
  exact (locks_lock_of_ne (by decide)).bind fun _ => (locks_get _).bind fun _ =>
    (hselect _).bind fun _ => (hwork _).bind fun _ => locks_unlock_of_ne (by decide)

theorem locksFree_republishChunks : LocksFree net.republishChunks := by
  refine locksFree_chunksPass fun keys => ?_
  induction keys with
  | nil => exact locks_pure _
  | cons key rest ih =>
    refine (locks_get _).bind fun found => ?_
    cases found with
    | none => exact locks_fault _
    | some chunk =>
      exact (locks_modify _).bind fun _ => (locksFree_publish _ _).bind fun _ => ih

theorem locksFree_cleanupChunks : LocksFree net.cleanupChunks := by
  refine locksFree_chunksPass fun keys => ?_
  induction keys with
  | nil => exact locks_pure _
  | cons key rest ih => exact (locks_modify _).bind fun _ => ih

end Net

/-- Whatever an operation does, and however it ends, the observer sees no more than is said of him. -/
theorem Operation.locksFree {W : Type} (net : Net W) (operation : Operation) :
    Net.LocksFree (operation.perform net) := by
  cases operation with
  | startup => exact Net.locksFree_startup _ _ _ _ _
  | teardown => exact (Net.locksFree_teardown _).bind fun _ => Net.locks_pure _
  | set => exact Net.locks_clock.bind fun _ => Net.locks_clock.bind fun _ => Net.locksFree_publish _ _
  | get => exact (Net.locksFree_getValue _).bind fun _ => Net.locks_pure _
  | publish => exact Net.locksFree_publish _ _
  | selfLookup => exact Net.locksFree_selfLookup _ _
  | nodeLookup => exact (Net.locksFree_nodeLookup _).bind fun _ => Net.locks_pure _
  | valueLookup => exact (Net.locksFree_valueLookup _).bind fun _ => Net.locks_pure _
  | updatePeer => exact Net.locksFree_updatePeer _ _
  | findNode => exact (Net.locksFree_findNode _ _).bind fun _ => Net.locks_pure _
  | findValue => exact (Net.locksFree_findValue _ _).bind fun _ => Net.locks_pure _
  | store => exact (Net.locksFree_store _ _ _).bind fun _ => Net.locks_pure _
  | ping => exact (Net.locksFree_ping _).bind fun _ => Net.locks_pure _
  | handle => exact (Net.locksFree_handle _ _).bind fun _ => Net.locks_pure _
  | republishChunks => exact Net.locksFree_republishChunks
  | cleanupChunks => exact Net.locksFree_cleanupChunks
  | refreshPeers => exact Net.locksFree_refreshPeers _ _

/-- An operation changes the router under its lock exactly in the runs in which no RPC fails whose
caller evicts the peer then. -/
theorem underLock_iff {W : Type} (net : Net W) (operation : Operation) (w : W) :
    UnderLock (operation.perform net w) ↔
      ∀ e ∈ (operation.perform net w).events, ¬e.FailsEvicting := by
  obtain ⟨hok, herror⟩ := operation.locksFree net w
  cases hr : (operation.perform net w).result with
  | ok u =>
    obtain ⟨_, rfl, htrace⟩ := hok u hr
    refine ⟨fun h => htrace.guarded.1 h.guarded,
      fun h => ⟨?_, fun _ _ => htrace.lock, htrace.guarded.2 h⟩⟩
    rw [htrace.lock]
    exact Option.some_ne_none _
  | error e =>
    obtain ⟨held, htrace⟩ := herror e hr
    -- A fault may leave the lock taken, but nothing is returned then.
    refine ⟨fun h => htrace.guarded.1 h.guarded, fun h => ⟨?_, fun _ ha => ?_, htrace.guarded.2 h⟩⟩
    · rw [htrace.lock]
      exact Option.some_ne_none _
    · rw [hr] at ha
      exact nomatch ha

/-- A ping that fails evicts without the lock. -/
theorem not_underLock :
    ¬∀ (operation : Operation) (s : Session),
      UnderLock (operation.perform (Environment.deaf 0).toNet s) := by
  intro h
  let s : Session := ⟨Router.new 0 ⟨0, [0]⟩ ⟨1, [1]⟩, ∅, 0⟩
  have hfails := (underLock_iff (Environment.deaf 0).toNet (.ping ⟨1, [1]⟩) s).1 (h _ _)
  exact hfails (.rpc .ping ⟨1, [1]⟩ ⟨localToRpcPeer ⟨0, [0]⟩⟩ none) (.head _) ⟨by decide, rfl⟩

end Distft
