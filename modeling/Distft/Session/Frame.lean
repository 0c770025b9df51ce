import Distft.Session.Lookup

/-!
# What the operations leave alone

Besides the router, the clock and the other nodes, an operation of the session changes its chunks at
few places: `publish` inserts the chunk that it is given, and the handler of `Store` the one of its
request. So a condition that no call of the router and no RPC ends (`Net.Frame`) is kept by the
callers and the lookups, and by `publish` and the handlers where it is kept by such an insertion. The
callers and the lookups do not touch the mutex of the chunks either: their events have every condition
that all events about other things have (`Net.Covers`).
-/

namespace Distft

/-- The key that the handler of a request inserts a chunk under, if it is the one of `Store` and the
key can be read. -/
def Method.storedKey : (m : Method) → m.Request → Option Key
  | .store, request => Key.ofBytes request.chunkKey
  | .findNode, _ => none
  | .findValue, _ => none
  | .storeInit, _ => none
  | .ping, _ => none

/-- The event is not about a mutex. -/
def OffMutex (mutex : Mutex) (e : Event) : Prop := e ≠ .lock mutex ∧ e ≠ .unlock mutex

namespace Net

variable {W : Type}

/-- A condition on the world that no call of the router, no counting of dead peers, no reading of the
clock, and no RPC ends. -/
structure Frame (net : Net W) (I : W → Prop) : Prop where
  /-- Calls of the router keep the condition. -/
  step : ∀ w call, I w →
    I (net.withSession { net.session w with router := (net.session w).router.step call } w)
  /-- Counting dead peers keeps the condition. -/
  deadPeers : ∀ w n, I w → I (net.withSession { net.session w with deadPeers := n } w)
  /-- Reading the clock keeps the condition. -/
  now : ∀ w, I w → I (net.now w).2
  /-- RPCs keep the condition. -/
  rpc : ∀ m endpoint request w, I w → I (net.rpc m endpoint request w).2

/-- In particular `update_peer` keeps it, whatever the peer. -/
theorem Frame.update {net : Net W} {I : W → Prop} (h : net.Frame I) :
    net.UpdateStable (fun _ => True) I :=
  ⟨fun _ _ => trivial, fun w now peer _ => h.step w (.insert now peer.key peer.endpoint),
    fun w key => h.step w (.evict key), h.deadPeers, h.now, fun _ _ w _ => h.rpc .ping _ _ w⟩

/-- Nothing is asked of the world. -/
theorem frame_true (net : Net W) : net.Frame fun _ => True :=
  ⟨fun _ _ _ => trivial, fun _ _ _ => trivial, fun _ _ => trivial, fun _ _ _ _ _ => trivial⟩

/-- The computation keeps a condition on the world, and all its events have `P`, however it ends. -/
abbrev Keeps (I : W → Prop) (P : Event → Prop) {α : Type} (m : Op W α) : Prop :=
  Exec.Steady I P (fun _ => True) m

/-- All events that are not about the mutex of the chunks have `P`. -/
def Covers (P : Event → Prop) : Prop := ∀ e, OffMutex .chunks e → P e

/-- In particular those of `update_peer`. -/
theorem Covers.ofUpdates {P : Event → Prop} (hP : Covers P) : OfUpdates P where
  lock _ hne := hP _ ⟨fun heq => hne (Event.lock.inj heq), nofun⟩
  unlock _ hne := hP _ ⟨nofun, fun heq => hne (Event.unlock.inj heq)⟩
  attemptInsertPeer _ _ := hP _ ⟨nofun, nofun⟩
  evictPeer _ := hP _ ⟨nofun, nofun⟩
  ping _ _ _ := hP _ ⟨nofun, nofun⟩

/-- Nothing is asked of faults. -/
theorem updateFaults_true : UpdateFaults fun _ => True := ⟨trivial, trivial, trivial⟩

/-! ## Callers -/

section Callers

variable {net : Net W} {I : W → Prop} {P : Event → Prop} {α : Type}

theorem keeps_pure (a : α) : Keeps I P (pure a : Op W α) := Exec.steady_pure a

theorem keeps_get (f : Session → α) : Keeps I P (net.get f) := Exec.steady_read _

theorem keeps_copyData (data : Bytes) (size : Int32) : Keeps I P (copyData data size : Op W Bytes) := by
  unfold copyData
  split_ifs
  · exact keeps_pure _
  · exact Exec.steady_fault trivial

theorem keeps_evictPeer (h : net.Frame I) (hP : Covers P) (key : Key) :
    Keeps I P (net.evictPeer key) := steady_evictPeer hP.ofUpdates h.update key

theorem keeps_call (h : net.Frame I) (hP : Covers P) {m : Method} (peer : Peer)
    (request : m.Request) : Keeps I P (net.call m peer request) :=
  steady_call (h.rpc m peer.endpoint request) fun _ => hP _ ⟨nofun, nofun⟩

theorem keeps_rpcCallerEpilogue (h : net.Frame I) (hP : Covers P) (receiver : RpcPeer) :
    Keeps I P (net.rpcCallerEpilogue receiver) :=
  steady_rpcCallerEpilogue hP.ofUpdates updateFaults_true h.update fun _ _ => trivial

theorem keeps_learnPeers (h : net.Frame I) (hP : Covers P) (rpcPeers : List RpcPeer) :
    Keeps I P (net.learnPeers rpcPeers) :=
  steady_learnPeers hP.ofUpdates updateFaults_true h.update rpcPeers

theorem keeps_findNode (h : net.Frame I) (hP : Covers P) (peer : Peer) (searchKey : Key) :
    Keeps I P (net.findNode peer searchKey) := by
  unfold findNode
  refine (keeps_get _).bind fun _ => (keeps_call h hP _ _).bind fun response => ?_
  cases response with
  | none => exact (keeps_evictPeer h hP _).bind fun _ => keeps_pure _
  | some response =>
    exact (keeps_rpcCallerEpilogue h hP _).bind fun _ => (keeps_learnPeers h hP _).bind fun _ =>
      keeps_pure _

theorem keeps_findValue (h : net.Frame I) (hP : Covers P) (peer : Peer) (searchKey : Key) :
    Keeps I P (net.findValue peer searchKey) := by
  unfold findValue
  refine (keeps_get _).bind fun _ => (keeps_call h hP _ _).bind fun response => ?_
  cases response with
  | none => exact (keeps_evictPeer h hP _).bind fun _ => keeps_pure _
  | some response =>
    refine (keeps_rpcCallerEpilogue h hP _).bind fun _ => ?_
    split_ifs
    · exact (keeps_copyData _ _).bind fun _ => keeps_pure _
    · exact (keeps_learnPeers h hP _).bind fun _ => keeps_pure _

theorem keeps_store (h : net.Frame I) (hP : Covers P) (peer : Peer) (chunk : Chunk)
    (force : Bool) : Keeps I P (net.store peer chunk force) := by
  unfold store
  refine (keeps_get _).bind fun _ => (keeps_call h hP _ _).bind fun initResponse => ?_
  cases initResponse with
  | none => exact (keeps_evictPeer h hP _).bind fun _ => keeps_pure _
  | some initResponse =>
    simp only
    split_ifs
    · exact keeps_pure _
    · refine (keeps_rpcCallerEpilogue h hP _).bind fun _ => (keeps_get _).bind fun _ =>
        (keeps_call h hP _ _).bind fun response => ?_
      cases response with
      | none => exact keeps_pure _
      | some response => exact (keeps_rpcCallerEpilogue h hP _).bind fun _ => keeps_pure _

end Callers

/-! ## Lookups -/

section Lookups

variable {net : Net W} {I : W → Prop} {P : Event → Prop} {α δ : Type}

theorem keeps_closestPeers (h : net.Frame I) (hP : Covers P) (searchKey : Key) (n : UInt32) :
    Keeps I P (net.closestPeers searchKey n) := by
  unfold closestPeers
  refine (Exec.steady_emit (hP.ofUpdates.lock _ (by decide))).bind fun _ =>
    (steady_clock h.update).bind fun now => Exec.Steady.bind ?_ fun _ =>
    (Exec.steady_emit (hP.ofUpdates.unlock _ (by decide))).bind fun _ => keeps_pure _
  exact Exec.steady_act fun w => h.step w (.closest now searchKey n)

/-- The rounds of a lookup have what its queries have, if that composes. -/
theorem lookupRounds_of_composes {C : {α : Type} → Op W α → Prop} (hC : Exec.Composes C)
    {query : Peer → Op W (Answer δ)} (hquery : ∀ peer, C (query peer)) (searchKey : Key) (rounds : ℕ)
    (queried : List Key) (size : ℕ) (minDist : Dist) (closest : List Peer) :
    C (lookupRounds searchKey query rounds queried size minDist closest) := by
  have hpending : ∀ next, (∀ pending queried closest, C (next pending queried closest)) →
      ∀ pending queried closest, C (queryPending query next pending queried closest) := by
    intro next hnext pending
    induction pending with
    | nil => exact fun _ _ => hC.pure _
    | cons peer rest ih =>
      intro queried closest
      unfold queryPending
      split_ifs
      · exact ih _ _
      · refine hC.bind (hquery peer) fun answer => ?_
        cases answer with
        | failed => exact ih _ _
        | answered found => exact hnext _ _ _
        | halt value => exact hC.pure _
  have hround : ∀ count pending queried closest,
      C (queryRound query count pending queried closest) := by
    intro count
    induction count with
    | zero => exact fun _ _ _ => hC.pure _
    | succ count ih => exact hpending _ ih
  induction rounds generalizing queried size minDist closest with
  | zero => exact hC.pure _
  | succ rounds ih =>
    unfold lookupRounds
    refine hC.bind (hround _ _ _ _) fun r => ?_
    obtain ⟨halted, queried, closest⟩ := r
    simp only
    split_ifs
    · exact hC.pure _
    · split
      · exact hC.fault _
      · split_ifs
        · exact hC.pure _
        · exact ih _ _ _ _

-- What the parts of an operation have, it has, if that composes.
section Composed

variable {C : {α : Type} → Op W α → Prop}

theorem lookupHelper_of_composes (hC : Exec.Composes C) {searchKey : Key}
    (hclosest : C (net.closestPeers searchKey (UInt32.ofNat kbucketMax))) (closest : List Peer)
    {query : Peer → Op W (Answer δ)} (hquery : ∀ peer, C (query peer)) :
    C (net.lookupHelper searchKey closest query) :=
  hC.bind hclosest fun _ => lookupRounds_of_composes hC hquery _ _ _ _ _ _

theorem nodeQueryFn_of_composes (hC : Exec.Composes C) {searchKey : Key} {peer : Peer}
    (hfind : C (net.findNode peer searchKey)) : C (net.nodeQueryFn searchKey peer) := by
  refine hC.bind hfind fun found => ?_
  cases found <;> exact hC.pure _

theorem valueQueryFn_of_composes (hC : Exec.Composes C) {searchKey : Key} {peer : Peer}
    (hfind : C (net.findValue peer searchKey)) : C (net.valueQueryFn searchKey peer) := by
  refine hC.bind hfind fun found => ?_
  rcases found with _ | _ | _ <;> exact hC.pure _

theorem findFrom_of_composes (hC : Exec.Composes C) {searchKey : Key}
    (hfind : ∀ peer, C (net.findNode peer searchKey)) (peers : List Peer) :
    C (net.findFrom searchKey peers) := by
  induction peers with
  | nil => exact hC.pure _
  | cons peer rest ih => exact hC.bind (hfind peer) fun _ => hC.bind ih fun _ => hC.pure _

theorem nodeLookup_of_composes (hC : Exec.Composes C) {nodeKey : Key}
    (hclosest : C (net.closestPeers nodeKey (UInt32.ofNat kbucketMax)))
    (hfind : ∀ peer, C (net.findNode peer nodeKey)) : C (net.nodeLookup nodeKey) :=
  hC.bind (lookupHelper_of_composes hC hclosest [] fun peer => nodeQueryFn_of_composes hC (hfind peer))
    fun r => hC.bind (findFrom_of_composes hC hfind r.2) fun _ => hC.pure _

theorem valueLookup_of_composes (hC : Exec.Composes C) {chunkKey : Key}
    (hclosest : C (net.closestPeers chunkKey (UInt32.ofNat kbucketMax)))
    (hfind : ∀ peer, C (net.findValue peer chunkKey)) : C (net.valueLookup chunkKey) :=
  hC.bind (lookupHelper_of_composes hC hclosest [] fun peer => valueQueryFn_of_composes hC (hfind peer))
    fun _ => hC.pure _

theorem storeAll_of_composes (hC : Exec.Composes C) {chunk : Chunk} {force : Bool}
    (hstore : ∀ peer, C (net.store peer chunk force)) (maxDist : Dist) (peers : List Peer) :
    C (net.storeAll chunk force maxDist peers) := by
  induction peers generalizing maxDist with
  | nil => exact hC.pure _
  | cons peer rest ih => exact hC.bind (hstore peer) fun _ => ih _

end Composed

/-- What keeps a condition and shows only some events composes. -/
theorem composes_keeps : Exec.Composes fun {_} (m : Op W _) => Keeps I P m :=
  ⟨keeps_pure, fun _ => Exec.steady_fault trivial, Exec.Steady.bind⟩

/-- A lookup keeps what its queries keep. -/
theorem keeps_lookupHelper (h : net.Frame I) (hP : Covers P) (searchKey : Key) (closest : List Peer)
    {query : Peer → Op W (Answer δ)} (hquery : ∀ peer, Keeps I P (query peer)) :
    Keeps I P (net.lookupHelper searchKey closest query) :=
  lookupHelper_of_composes composes_keeps (keeps_closestPeers h hP _ _) closest hquery

theorem keeps_nodeQueryFn (h : net.Frame I) (hP : Covers P) (searchKey : Key) (peer : Peer) :
    Keeps I P (net.nodeQueryFn searchKey peer) :=
  nodeQueryFn_of_composes composes_keeps (keeps_findNode h hP peer searchKey)

theorem keeps_findFrom (h : net.Frame I) (hP : Covers P) (searchKey : Key) (peers : List Peer) :
    Keeps I P (net.findFrom searchKey peers) :=
  findFrom_of_composes composes_keeps (fun peer => keeps_findNode h hP peer searchKey) peers

theorem keeps_nodeLookup (h : net.Frame I) (hP : Covers P) (nodeKey : Key) :
    Keeps I P (net.nodeLookup nodeKey) :=
  nodeLookup_of_composes composes_keeps (keeps_closestPeers h hP _ _) fun peer =>
    keeps_findNode h hP peer nodeKey

theorem keeps_valueLookup (h : net.Frame I) (hP : Covers P) (chunkKey : Key) :
    Keeps I P (net.valueLookup chunkKey) :=
  valueLookup_of_composes composes_keeps (keeps_closestPeers h hP _ _) fun peer =>
    keeps_findValue h hP peer chunkKey

theorem keeps_storeAll (h : net.Frame I) (hP : Covers P) (chunk : Chunk) (force : Bool)
    (maxDist : Dist) (peers : List Peer) : Keeps I P (net.storeAll chunk force maxDist peers) :=
  storeAll_of_composes composes_keeps (fun peer => keeps_store h hP peer chunk force) maxDist peers

end Lookups

/-! ## Sets, gets, and handlers -/

section Chunks

variable {net : Net W} {I : W → Prop} {α : Type}

/-- Nothing is asked of events. -/
theorem covers_true : Covers fun _ => True := fun _ _ => trivial

theorem keeps_emit (e : Event) : Keeps I (fun _ => True) (Exec.emit e : Op W Unit) :=
  Exec.steady_emit trivial

/-- `publish` keeps what the insertion of its chunk keeps. -/
theorem keeps_publish (h : net.Frame I) (chunk : Chunk) (force : Bool)
    (hinsert : ∀ w, I w → I (net.withSession { net.session w with
      chunks := (net.session w).chunks.insert chunk.key chunk } w)) :
    Keeps I (fun _ => True) (net.publish chunk force) := by
  unfold publish
  refine (keeps_nodeLookup h covers_true _).bind fun buffer =>
    (keeps_storeAll h covers_true chunk force _ _).bind fun maxDist => (keeps_get _).bind
    fun selfKey => ?_
  split_ifs
  · exact (keeps_emit _).bind fun _ => (Exec.steady_act hinsert).bind fun _ => keeps_emit _
  · exact keeps_pure _

/-- `set` keeps what insertions under its key keep. -/
theorem keeps_set (h : net.Frame I) (key : Key) (data : Bytes) (force : Bool)
    (hinsert : ∀ w chunk, chunk.key = key → I w → I (net.withSession { net.session w with
      chunks := (net.session w).chunks.insert key chunk } w)) :
    Keeps I (fun _ => True) (net.set key data force) :=
  (steady_clock h.update).bind fun _ => (steady_clock h.update).bind fun _ =>
    keeps_publish h _ force fun w => hinsert w _ rfl

theorem keeps_getValue (h : net.Frame I) (searchKey : Key) :
    Keeps I (fun _ => True) (net.getValue searchKey) := by
  unfold getValue
  refine (keeps_emit _).bind fun _ => (keeps_get _).bind fun found => ?_
  cases found with
  | some chunk => exact (keeps_emit _).bind fun _ => keeps_pure _
  | none => exact (keeps_emit _).bind fun _ => keeps_valueLookup h covers_true searchKey

/-- The handlers begin with an update of the sender. -/
theorem keeps_rpcHandlerPrelims (h : net.Frame I) (sender : RpcPeer) :
    Keeps I (fun _ => True) (net.rpcHandlerPrelims sender) :=
  steady_rpcHandlerPrelims covers_true.ofUpdates updateFaults_true h.update fun _ _ => trivial

/-- A key of a message is used, if it can be read. -/
theorem keeps_toKey_bind {str : Bytes} {f : Key → Op W α}
    (hf : ∀ key, Key.ofBytes str = some key → Keeps I (fun _ => True) (f key)) :
    Keeps I (fun _ => True) (toKey str >>= f) := by
  unfold toKey
  cases hkey : Key.ofBytes str with
  | none => exact (Exec.steady_fault trivial : Keeps I _ (Exec.fault _ : Op W α))
  | some key => exact hf key hkey

theorem keeps_ofSeconds (seconds : Int64) :
    Keeps I (fun _ => True) (ofSeconds seconds : Op W Time) := by
  unfold ofSeconds
  split_ifs
  · exact keeps_pure _
  · exact Exec.steady_fault trivial

/-- The handler of `Store` keeps what insertions under the key of its request keep. -/
theorem keeps_handleStore (h : net.Frame I) (request : StoreRequest)
    (hinsert : ∀ w key chunk, Key.ofBytes request.chunkKey = some key → chunk.key = key → I w →
      I (net.withSession { net.session w with
        chunks := (net.session w).chunks.insert key chunk } w)) :
    Keeps I (fun _ => True) (net.handleStore request) := by
  refine (keeps_rpcHandlerPrelims h _).bind fun receiver => keeps_toKey_bind fun key hkey => ?_
  refine (keeps_ofSeconds _).bind fun _ => (keeps_copyData _ _).bind fun _ =>
    (steady_clock h.update).bind fun _ => (keeps_emit _).bind fun _ => Exec.Steady.bind ?_ fun _ =>
    (keeps_emit _).bind fun _ => keeps_pure _
  exact Exec.steady_act fun w => hinsert w _ _ hkey rfl

/-- A handler keeps what insertions under the key of a `Store` keep. -/
theorem keeps_handle (h : net.Frame I) (m : Method) (request : m.Request)
    (hinsert : ∀ w key chunk, m.storedKey request = some key → chunk.key = key → I w →
      I (net.withSession { net.session w with
        chunks := (net.session w).chunks.insert key chunk } w)) :
    Keeps I (fun _ => True) (net.handle m request) := by
  have hclosest : ∀ searchKey,
      Keeps I (fun _ => True) (net.closestPeers searchKey (UInt32.ofNat kbucketMax)) :=
    fun searchKey => keeps_closestPeers h covers_true searchKey _
  cases m with
  | findNode =>
    exact (keeps_rpcHandlerPrelims h _).bind fun _ => keeps_toKey_bind fun _ _ =>
      (hclosest _).bind fun _ => keeps_pure _
  | findValue =>
    refine (keeps_rpcHandlerPrelims h _).bind fun _ => keeps_toKey_bind fun _ _ =>
      (keeps_emit _).bind fun _ => (keeps_get _).bind fun found => ?_
    cases found with
    | some chunk => exact (keeps_emit _).bind fun _ => keeps_pure _
    | none => exact (keeps_emit _).bind fun _ => (hclosest _).bind fun _ => keeps_pure _
  | storeInit =>
    exact (keeps_rpcHandlerPrelims h _).bind fun _ => keeps_toKey_bind fun _ _ =>
      (keeps_emit _).bind fun _ => (keeps_get _).bind fun _ => (keeps_emit _).bind fun _ =>
      keeps_pure _
  | store => exact keeps_handleStore h request hinsert
  | ping => exact (keeps_rpcHandlerPrelims h _).bind fun _ => keeps_pure _

end Chunks

end Net

/-! ## Reachable routers -/

namespace Environment

variable {W : Type} {env : Environment W}

/-- The session's router is one that calls lead to. -/
def RouterReachable (env : Environment W) (w : W) : Prop := (env.session w).router.Reachable

/-- The requests that come in during an RPC change the router only by calls. -/
def KeepsReachable (env : Environment W) : Prop :=
  ∀ m endpoint request w, env.RouterReachable w → env.RouterReachable (env.rpc m endpoint request w).2

/-- What the session does leaves its router reachable, if RPCs do. -/
theorem frame_reachable (hrpc : env.KeepsReachable) : env.toNet.Frame env.RouterReachable where
  step w call hw := by
    obtain ⟨now, selfPeer, otherPeer, calls, hcalls⟩ := hw
    refine ⟨now, selfPeer, otherPeer, calls ++ [call], ?_⟩
    have hstep := Runs.run_append Router.step (Router.new now selfPeer otherPeer) calls [call]
    rw [env.session_withSession, hcalls]
    exact hstep.symm
  deadPeers w n hw := by rwa [RouterReachable, env.session_withSession]
  now w hw := by rwa [RouterReachable, env.session_now]
  rpc := hrpc

end Environment

end Distft
